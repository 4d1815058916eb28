import UniqueAccess.Proofs.Storage.Ancestors

/-!
# Flags and containers

A node is to be flagged bit-level exactly if there is a bit-struct above it. This is a law about all
ancestors, but a tree without circles obeys it as soon as every node has the flag that it would have
been given as a new child of its parent (`flagsInherited_iff`). Below a bit-struct the container of
a node is then the outermost bit-struct above it.
-/

namespace UniqueAccess.StorageTree

open Relation (ReflTransGen TransGen)

variable {t : StorageTree} {id container : NodeId}

def IsBitStruct (t : StorageTree) (id : NodeId) : Prop :=
  ∃ node, t.get? id = some node ∧ node.kind = .bitStruct

def BelowBitStruct (t : StorageTree) (id : NodeId) : Prop :=
  ∃ above, TransGen t.HasParent id above ∧ t.IsBitStruct above

theorem belowBitStruct_iff :
    t.BelowBitStruct id ↔
      ∃ parent, t.HasParent id parent ∧ (t.IsBitStruct parent ∨ t.BelowBitStruct parent) := by
  constructor
  · rintro ⟨above, hreach, habove⟩
    obtain ⟨parent, hparent, hreach⟩ := TransGen.head'_iff.mp hreach
    rcases ReflTransGen.cases_head hreach with rfl | ⟨next, hnext, hreach⟩
    · exact ⟨parent, hparent, .inl habove⟩
    · exact ⟨parent, hparent, .inr ⟨above, .head' hnext hreach, habove⟩⟩
  · rintro ⟨parent, hparent, hstruct | ⟨above, hreach, habove⟩⟩
    · exact ⟨parent, .single hparent, hstruct⟩
    · exact ⟨above, .head hparent hreach, habove⟩

-- ---------------------------------------------------------------------------
-- Flags
-- ---------------------------------------------------------------------------

/-- A node is flagged exactly if some bit-struct is above it. -/
def FlagsExact (t : StorageTree) : Prop :=
  ∀ id node, t.get? id = some node → (node.isBitLevel ↔ t.BelowBitStruct id)

/-- Every node has the flag of a new child of its parent. -/
def FlagsInherited (t : StorageTree) : Prop :=
  ∀ id node, t.get? id = some node →
    (node.isBitLevel ↔ ∃ parent, node.parent = some parent ∧ t.makesBitLevel parent)

theorem makesBitLevel_iff {parent : NodeId} :
    t.makesBitLevel parent ↔
      ∃ node, t.get? parent = some node ∧ (node.kind = .bitStruct ∨ node.isBitLevel) := by
  unfold makesBitLevel
  cases t.get? parent with
  | none => simp
  | some node => simp

theorem makesBitLevel_iff_above {parent : NodeId}
    (h : ∀ node, t.get? parent = some node → (node.isBitLevel ↔ t.BelowBitStruct parent)) :
    t.makesBitLevel parent ↔ t.IsBitStruct parent ∨ t.BelowBitStruct parent := by
  rw [makesBitLevel_iff]
  constructor
  · rintro ⟨node, hnode, hkind | hflag⟩
    · exact .inl ⟨node, hnode, hkind⟩
    · exact .inr ((h node hnode).mp hflag)
  · rintro (⟨node, hnode, hkind⟩ | hbelow)
    · exact ⟨node, hnode, .inl hkind⟩
    · obtain ⟨_, hparent, _⟩ := belowBitStruct_iff.mp hbelow
      obtain ⟨node, hnode, _⟩ := hasParent_iff.mp hparent
      exact ⟨node, hnode, .inr ((h node hnode).mpr hbelow)⟩

theorem exists_parent_iff {node : StorageNode} {q : NodeId → Prop} (h : t.get? id = some node) :
    (∃ parent, node.parent = some parent ∧ q parent) ↔
      ∃ parent, t.HasParent id parent ∧ q parent := by
  simp [HasParent, parent?, h]

theorem flagsInherited_iff (hacyclic : ∀ id, ¬ TransGen t.HasParent id id) :
    t.FlagsInherited ↔ t.FlagsExact := by
  constructor
  · intro h id
    induction id using (wellFounded_of_acyclic hacyclic).induction with
    | _ id ih =>
      intro node hnode
      rw [h id node hnode, exists_parent_iff hnode, belowBitStruct_iff]
      refine exists_congr fun parent => and_congr_right fun hparent => ?_
      exact makesBitLevel_iff_above (ih parent (.single hparent))
  · intro h id node hnode
    rw [h id node hnode, exists_parent_iff hnode, belowBitStruct_iff]
    refine exists_congr fun parent => and_congr_right fun _ => ?_
    exact (makesBitLevel_iff_above (h parent)).symm

-- ---------------------------------------------------------------------------
-- Containers
-- ---------------------------------------------------------------------------

/-- A chain of flagged nodes leads up to a node without a flag. -/
inductive HasContainer (t : StorageTree) : NodeId → NodeId → Prop
  | unflagged {id : NodeId} {node : StorageNode} : t.get? id = some node →
      node.isBitLevel = false → HasContainer t id id
  | flagged {id parent container : NodeId} {node : StorageNode} : t.get? id = some node →
      node.isBitLevel → node.parent = some parent → HasContainer t parent container →
      HasContainer t id container

theorem containerFrom?_succ {n : Nat} :
    t.containerFrom? (n + 1) id = some container ↔
      ∃ node, t.get? id = some node ∧
        ((node.isBitLevel = false ∧ id = container) ∨
          (node.isBitLevel ∧ ∃ parent, node.parent = some parent ∧
            t.containerFrom? n parent = some container)) := by
  rw [containerFrom?, Option.bind_eq_bind, Option.bind_eq_some_iff]
  refine exists_congr fun node => and_congr_right fun _ => ?_
  cases node.isBitLevel with
  | false => simp
  | true => simp [Option.bind_eq_some_iff]

theorem containerFrom?_grows {n : Nat} (h : t.containerFrom? n id = some container) :
    t.containerFrom? (n + 1) id = some container := by
  induction n generalizing id with
  | zero => cases h
  | succ n ih =>
    obtain ⟨node, hnode, hself | ⟨hflag, parent, hparent, h⟩⟩ := containerFrom?_succ.mp h
    · exact containerFrom?_succ.mpr ⟨node, hnode, .inl hself⟩
    · exact containerFrom?_succ.mpr ⟨node, hnode, .inr ⟨hflag, parent, hparent, ih h⟩⟩

def containerRounds (t : StorageTree) : Rounds NodeId NodeId where
  answer := t.containerFrom?
  grows := containerFrom?_grows
  determined {m n} h := by
    funext id
    ext container
    rw [containerFrom?_succ, containerFrom?_succ, h]

theorem exists_containerFrom?_iff :
    (∃ n, t.containerFrom? n id = some container) ↔ t.HasContainer id container := by
  constructor
  · rintro ⟨n, h⟩
    induction n generalizing id with
    | zero => cases h
    | succ n ih =>
      obtain ⟨node, hnode, ⟨hflag, rfl⟩ | ⟨hflag, parent, hparent, h⟩⟩ := containerFrom?_succ.mp h
      · exact .unflagged hnode hflag
      · exact .flagged hnode hflag hparent (ih h)
  · intro h
    induction h with
    | unflagged hnode hflag => exact ⟨1, containerFrom?_succ.mpr ⟨_, hnode, .inl ⟨hflag, rfl⟩⟩⟩
    | flagged hnode hflag hparent _ ih =>
      obtain ⟨n, hn⟩ := ih
      exact ⟨n + 1, containerFrom?_succ.mpr ⟨_, hnode, .inr ⟨hflag, _, hparent, hn⟩⟩⟩

/-- A chain that is cut off at the size of the tree has no end. -/
theorem container?_eq_some : t.container? id = some container ↔ t.HasContainer id container := by
  refine ⟨fun h => exists_containerFrom?_iff.mp ⟨_, h⟩, fun h => ?_⟩
  obtain ⟨n, hn⟩ := exists_containerFrom?_iff.mpr h
  have houtside : ∀ n id, id ∉ t.names → t.containerFrom? n id = t.containerFrom? 0 id := by
    intro n id hid
    cases n with
    | zero => rfl
    | succ n =>
      refine Option.eq_none_iff_forall_ne_some.mpr fun container h => ?_
      obtain ⟨node, hnode, _⟩ := containerFrom?_succ.mp h
      exact hid (mem_names_of_contains (contains_iff.mpr ⟨node, hnode⟩))
  have hgrown := t.containerRounds.grows_le (Nat.le_max_left n (t.size + 1)) hn
  have hmax := t.containerRounds.answer_eq houtside (n := max n (t.size + 1)) (by simp)
  have hsize := t.containerRounds.answer_eq houtside (n := t.size + 1) (by simp)
  rw [hmax, ← hsize] at hgrown
  exact hgrown

theorem FlagsExact.exists_container (h : t.FlagsExact)
    (hacyclic : ∀ id, ¬ TransGen t.HasParent id id) (hbelow : t.BelowBitStruct id) :
    ∃ container, t.container? id = some container ∧ t.IsBitStruct container ∧
      TransGen t.HasParent id container ∧ ¬ t.BelowBitStruct container := by
  induction id using (wellFounded_of_acyclic hacyclic).induction with
  | _ id ih =>
    obtain ⟨parent, hparent, habove⟩ := belowBitStruct_iff.mp hbelow
    obtain ⟨node, hnode, hname⟩ := hasParent_iff.mp hparent
    have hflag := (h id node hnode).mpr hbelow
    by_cases hbelow' : t.BelowBitStruct parent
    · obtain ⟨container, hcontainer, hstruct, hreach, houter⟩ := ih parent (.single hparent) hbelow'
      refine ⟨container, ?_, hstruct, .head hparent hreach, houter⟩
      exact container?_eq_some.mpr
        (.flagged hnode hflag hname (container?_eq_some.mp hcontainer))
    · have hstruct := habove.resolve_right hbelow'
      have ⟨node', hnode', _⟩ := hstruct
      have hflag' : node'.isBitLevel = false :=
        Bool.eq_false_iff.mpr fun hflag => hbelow' ((h parent node' hnode').mp hflag)
      refine ⟨parent, ?_, hstruct, .single hparent, hbelow'⟩
      exact container?_eq_some.mpr (.flagged hnode hflag hname (.unflagged hnode' hflag'))

end UniqueAccess.StorageTree
