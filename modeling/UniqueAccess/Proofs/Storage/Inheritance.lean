import UniqueAccess.Proofs.Storage.BitLevel
import UniqueAccess.Proofs.Storage.Growth

/-!
# Flags of grown trees

A new node takes its flag from its parent, and no node that is added later changes what it was taken
from. So in a grown tree every flag is the one that its node would be given again, which makes it
exact, and each node has a container: itself, or the outermost bit-struct above it.
-/

namespace UniqueAccess.StorageTree

open Relation (ReflTransGen TransGen)

variable {t : StorageTree} {id container parent : NodeId} {kind : NodeKind} {dimensions : UInt64}
  {name : Option String}

-- ---------------------------------------------------------------------------
-- Flags
-- ---------------------------------------------------------------------------

theorem get?_addChild :
    (t.addChild parent kind dimensions name).2.get? id =
      if id.index = t.size then some (t.childOf parent kind dimensions name) else t.get? id :=
  getElem?_addChild id.index

theorem makesBitLevel_addChild {above : NodeId} (h : above.index < t.size) :
    (t.addChild parent kind dimensions name).2.makesBitLevel above = t.makesBitLevel above := by
  unfold makesBitLevel
  rw [get?_addChild, if_neg (Nat.ne_of_lt h)]

theorem Grown.flagsInherited (h : t.Grown) : t.FlagsInherited := by
  induction h with
  | new =>
    intro id node hnode
    obtain ⟨_, rfl⟩ := getElem?_new hnode
    simp
  | @addChild t parent kind dimensions name hgrown hcontains ih =>
    intro id node hnode
    rw [get?_addChild] at hnode
    split at hnode
    · obtain rfl := Option.some.inj hnode
      simp [childOf, makesBitLevel_addChild (of_decide_eq_true hcontains)]
    · rw [ih id node hnode]
      refine exists_congr fun above => and_congr_right fun habove => ?_
      have hlt :=
        (hgrown.parent_index_lt hnode habove).trans (Array.getElem?_eq_some_iff.mp hnode).1
      rw [makesBitLevel_addChild hlt]

theorem Grown.flagsExact (h : t.Grown) : t.FlagsExact :=
  (flagsInherited_iff h.acyclic).mp h.flagsInherited

-- ---------------------------------------------------------------------------
-- Containers
-- ---------------------------------------------------------------------------

/-- A bit-struct above a node that no other bit-struct above the node is above. -/
structure IsOutermost (t : StorageTree) (id container : NodeId) : Prop where
  isBitStruct : t.IsBitStruct container
  above : TransGen t.HasParent id container
  outermost : ∀ other, TransGen t.HasParent id other → t.IsBitStruct other →
    ReflTransGen t.HasParent other container

theorem HasParent.unique {other : NodeId} (h : t.HasParent id parent)
    (h' : t.HasParent id other) : parent = other :=
  Option.some.inj (Eq.trans (Eq.symm h) h')

theorem isOutermost_of_not_below (hstruct : t.IsBitStruct container)
    (habove : TransGen t.HasParent id container) (hnot : ¬ t.BelowBitStruct container) :
    t.IsOutermost id container := by
  refine ⟨hstruct, habove, fun other hother hstruct' => ?_⟩
  have hunique : Relator.RightUnique t.HasParent := fun _ _ _ h h' => h.unique h'
  rcases ReflTransGen.total_of_right_unique hunique hother.to_reflTransGen habove.to_reflTransGen
    with hreach | hreach
  · exact hreach
  · rcases Relation.reflTransGen_iff_eq_or_transGen.mp hreach with rfl | hreach
    · exact .refl
    · exact absurd ⟨other, hreach, hstruct'⟩ hnot

theorem FlagsExact.exists_container? (h : t.FlagsExact)
    (hacyclic : ∀ id, ¬ TransGen t.HasParent id id) {node : StorageNode}
    (hnode : t.get? id = some node) :
    ∃ container, t.container? id = some container ∧
      if node.isBitLevel then t.IsOutermost id container else container = id := by
  by_cases hflag : node.isBitLevel
  · obtain ⟨container, hcontainer, hstruct, habove, hnot⟩ :=
      h.exists_container hacyclic ((h id node hnode).mp hflag)
    refine ⟨container, hcontainer, ?_⟩
    rw [if_pos hflag]
    exact isOutermost_of_not_below hstruct habove hnot
  · refine ⟨id, container?_eq_some.mpr (.unflagged hnode (Bool.eq_false_iff.mpr hflag)), ?_⟩
    rw [if_neg hflag]

/-- A grown tree in which every node can have a name has no flaws: the nodes stand where their names
say, below earlier ones, and are flagged exactly if a bit-struct is above them. The container of a
flagged node is the outermost one, and every other node is its own. -/
theorem Grown.nodes_contained (h : t.Grown) (hfit : t.size ≤ UInt32.size) :
    t.flaws = [] ∧
      ∀ (position : Nat) (node : StorageNode), t.nodes[position]? = some node →
        node.id.index = position ∧
        (∀ parent, node.parent = some parent → parent.index < node.id.index) ∧
        (node.isBitLevel ↔ t.BelowBitStruct node.id) ∧
        ∃ container, t.container? node.id = some container ∧
          if node.isBitLevel then t.IsOutermost node.id container else container = node.id := by
  have hwf := h.wellFormed_iff.mpr hfit
  refine ⟨flaws_eq_nil.mpr hwf, fun position node hget => ?_⟩
  have hposition := hwf.named position node hget
  have hnode : t.get? node.id = some node := by rw [get?, hposition, hget]
  refine ⟨hposition, fun parent hparent => ?_, h.flagsExact node.id node hnode,
    h.flagsExact.exists_container? h.acyclic hnode⟩
  exact hposition ▸ h.parent_index_lt hget hparent

/-- A field in a dense node in a bit-struct in a bit-struct, and a field outside of both. -/
def nestedTree : StorageTree :=
  let t := (new.addChild root .bitStruct 0 none).2
  let t := (t.addChild ⟨1⟩ .bitStruct 0 (some "inner")).2
  let t := (t.addChild ⟨2⟩ .dense 1 none).2
  let t := (t.addChild ⟨3⟩ .place 0 (some "field")).2
  (t.addChild root .place 0 none).2

theorem nestedTree_contained :
    nestedTree.Grown ∧ nestedTree.size ≤ UInt32.size ∧
      nestedTree.BelowBitStruct ⟨4⟩ ∧ nestedTree.IsOutermost ⟨4⟩ ⟨1⟩ ∧
      ¬ nestedTree.BelowBitStruct ⟨5⟩ ∧ nestedTree.container? ⟨5⟩ = some ⟨5⟩ := by
  have hgrown : nestedTree.Grown :=
    .addChild _ _ _ (.addChild _ _ _ (.addChild _ _ _ (.addChild _ _ _ (.addChild _ _ _ .new
      (by decide)) (by decide)) (by decide)) (by decide)) (by decide)
  obtain ⟨-, hnodes⟩ := hgrown.nodes_contained (by decide)
  obtain ⟨-, -, hbelow, container, hcontainer, houtermost⟩ := hnodes 4 _ rfl
  obtain ⟨-, -, hfree, container', hcontainer', hself⟩ := hnodes 5 _ rfl
  cases hcontainer.symm.trans (by decide : nestedTree.container? ⟨4⟩ = some ⟨1⟩)
  have hself : container' = ⟨5⟩ := hself
  exact ⟨hgrown, by decide, hbelow.mp rfl, houtermost, hfree.not.mp Bool.false_ne_true,
    hcontainer'.trans (congrArg some hself)⟩

end UniqueAccess.StorageTree
