import UniqueAccess.Proofs.Storage.BitLevel

/-!
# Chains that lead to containers

A flagged node leaves its address to its parent, and the chain of those parents leads to the
container. In a tree that was read from a document the chain may lead to a flagged node without a
parent, out of the tree or into a circle, and exactly then there is no container
(`container?_exact`).
-/

namespace UniqueAccess

open Relation (ReflTransGen TransGen)

/-- Among finitely many things a chain of links comes to an end or to a circle. -/
theorem exists_end_or_circle {α : Type} [Finite α] (r : α → α → Prop) (a : α) :
    ∃ b, ReflTransGen r a b ∧ ((∀ c, ¬ r b c) ∨ TransGen r b b) := by
  by_contra! hnone
  let link (b c : { b // ReflTransGen r a b }) : Prop := r b c
  have hacyclic : ∀ b, ¬ TransGen link b b := fun b hcycle =>
    (hnone b b.2).2 (hcycle.lift Subtype.val fun _ _ hlink => hlink)
  have hnever : ∀ _ : { b // ReflTransGen r a b }, False := by
    intro b
    induction b using (wellFounded_of_acyclic hacyclic).induction with
    | _ b ih =>
      obtain ⟨c, hlink⟩ := (hnone b b.2).1
      exact ih ⟨c, b.2.tail hlink⟩ (.single hlink)
  exact hnever ⟨a, .refl⟩

theorem transGen_self_of_reflTransGen {α : Type} {r : α → α → Prop} {a b : α}
    (hunique : Relator.RightUnique r) (hcircle : TransGen r a a) (h : ReflTransGen r a b) :
    TransGen r b b := by
  induction h with
  | refl => exact hcircle
  | tail _ hlink ih =>
    obtain ⟨next, hnext, hback⟩ := TransGen.head'_iff.mp ih
    obtain rfl := hunique hlink hnext
    exact TransGen.tail' hback hlink

namespace StorageTree

variable {t : StorageTree} {id last container : NodeId}

/-- A flagged node of the tree, and the parent that it names. -/
def Defers (t : StorageTree) (id parent : NodeId) : Prop :=
  ∃ node, t.get? id = some node ∧ node.isBitLevel ∧ node.parent = some parent

def IsAddressed (t : StorageTree) (id : NodeId) : Prop :=
  ∃ node, t.get? id = some node ∧ node.isBitLevel = false

theorem defers_unique (t : StorageTree) : Relator.RightUnique t.Defers := by
  rintro id parent other ⟨node, hnode, _, hparent⟩ ⟨node', hnode', _, hother⟩
  obtain rfl := Option.some.inj (hnode.symm.trans hnode')
  exact Option.some.inj (hparent.symm.trans hother)

theorem IsAddressed.not_defers (h : t.IsAddressed id) (parent : NodeId) : ¬ t.Defers id parent := by
  rintro ⟨node, hnode, hflag, _⟩
  obtain ⟨node', hnode', hfree⟩ := h
  obtain rfl := Option.some.inj (hnode.symm.trans hnode')
  rw [hfree] at hflag
  cases hflag

theorem hasContainer_iff :
    t.HasContainer id container ↔ ReflTransGen t.Defers id container ∧ t.IsAddressed container := by
  constructor
  · intro h
    induction h with
    | unflagged hnode hfree => exact ⟨.refl, _, hnode, hfree⟩
    | flagged hnode hflag hparent _ ih => exact ⟨.head ⟨_, hnode, hflag, hparent⟩ ih.1, ih.2⟩
  · rintro ⟨hchain, node, hnode, hfree⟩
    induction hchain using ReflTransGen.head_induction_on with
    | refl => exact .unflagged hnode hfree
    | head hdefers _ ih =>
      obtain ⟨node', hnode', hflag, hparent⟩ := hdefers
      exact .flagged hnode' hflag hparent ih

-- ---------------------------------------------------------------------------
-- Chains without a container
-- ---------------------------------------------------------------------------

/-- The ways in which a chain can miss a container: it leaves the tree, ends at a flagged node, or
is on a circle. -/
inductive Strands (t : StorageTree) (last : NodeId) : Prop
  | outside : t.get? last = none → Strands t last
  | orphan {node : StorageNode} : t.get? last = some node → node.isBitLevel →
      node.parent = none → Strands t last
  | circle : TransGen t.Defers last last → Strands t last

theorem Strands.not_isAddressed (h : t.Strands last) : ¬ t.IsAddressed last := by
  rintro ⟨node, hnode, hfree⟩
  cases h with
  | outside hnone => cases hnone.symm.trans hnode
  | orphan hnode' hflag _ =>
    obtain rfl := Option.some.inj (hnode.symm.trans hnode')
    rw [hfree] at hflag
    cases hflag
  | circle hcircle =>
    obtain ⟨parent, hdefers, _⟩ := TransGen.head'_iff.mp hcircle
    exact IsAddressed.not_defers ⟨node, hnode, hfree⟩ parent hdefers

/-- A chain that misses a container misses all of them, since it is the only chain. -/
theorem Strands.of_reflTransGen (h : t.Strands last) (hchain : ReflTransGen t.Defers last id) :
    t.Strands id := by
  cases h with
  | circle hcircle => exact .circle (transGen_self_of_reflTransGen t.defers_unique hcircle hchain)
  | outside hnone =>
    rcases ReflTransGen.cases_head hchain with rfl | ⟨_, ⟨node, hnode, _⟩, _⟩
    · exact .outside hnone
    · cases hnone.symm.trans hnode
  | orphan hnode hflag hnone =>
    rcases ReflTransGen.cases_head hchain with rfl | ⟨_, ⟨node', hnode', _, hparent⟩, _⟩
    · exact .orphan hnode hflag hnone
    · obtain rfl := Option.some.inj (hnode.symm.trans hnode')
      cases hnone.symm.trans hparent

theorem exists_strands_or_hasContainer (t : StorageTree) (id : NodeId) :
    (∃ last, ReflTransGen t.Defers id last ∧ t.Strands last) ∨
      ∃ container, t.HasContainer id container := by
  obtain ⟨last, hchain, hend | hcircle⟩ := exists_end_or_circle t.Defers id
  · cases hnode : t.get? last with
    | none => exact .inl ⟨last, hchain, .outside hnode⟩
    | some node =>
      cases hflag : node.isBitLevel with
      | false => exact .inr ⟨last, hasContainer_iff.mpr ⟨hchain, node, hnode, hflag⟩⟩
      | true =>
        cases hparent : node.parent with
        | none => exact .inl ⟨last, hchain, .orphan hnode hflag hparent⟩
        | some parent => exact absurd ⟨node, hnode, hflag, hparent⟩ (hend parent)
  · exact .inl ⟨last, hchain, .circle hcircle⟩

theorem container?_eq_none :
    t.container? id = none ↔ ∃ last, ReflTransGen t.Defers id last ∧ t.Strands last := by
  rw [Option.eq_none_iff_forall_ne_some]
  constructor
  · intro hnone
    refine (t.exists_strands_or_hasContainer id).resolve_right fun ⟨container, h⟩ => ?_
    exact hnone container (container?_eq_some.mpr h)
  · rintro ⟨last, hchain, hstrands⟩ container h
    obtain ⟨hchain', haddressed⟩ := hasContainer_iff.mp (container?_eq_some.mp h)
    rcases ReflTransGen.total_of_right_unique t.defers_unique hchain hchain' with hreach | hreach
    · exact (hstrands.of_reflTransGen hreach).not_isAddressed haddressed
    · rcases ReflTransGen.cases_head hreach with rfl | ⟨parent, hdefers, _⟩
      · exact hstrands.not_isAddressed haddressed
      · exact haddressed.not_defers parent hdefers

theorem containerFrom?_eq_container? (extra : Nat) :
    t.containerFrom? (t.size + 1 + extra) id = t.container? id := by
  ext container
  rw [container?_eq_some]
  refine ⟨fun h => exists_containerFrom?_iff.mp ⟨_, h⟩, fun h => ?_⟩
  exact t.containerRounds.grows_le (Nat.le_add_right _ extra) (container?_eq_some.mpr h)

/-- In every tree, whatever its names, parents and flags are, a name has a container exactly if a
chain of flagged nodes leads from it to a node without a flag. It has none exactly if that chain
leads out of the tree, to a flagged node without a parent, or to a circle. A longer climb finds
nothing more. -/
theorem container?_exact (t : StorageTree) (id : NodeId) :
    (∀ container, t.container? id = some container ↔
      ReflTransGen t.Defers id container ∧ t.IsAddressed container) ∧
    (t.container? id = none ↔ ∃ last, ReflTransGen t.Defers id last ∧
      (t.get? last = none ∨
        (∃ node, t.get? last = some node ∧ node.isBitLevel ∧ node.parent = none) ∨
        TransGen t.Defers last last)) ∧
    ∀ extra, t.containerFrom? (t.size + 1 + extra) id = t.container? id := by
  refine ⟨fun container => container?_eq_some.trans hasContainer_iff,
    container?_eq_none.trans (exists_congr fun last => and_congr_right fun _ => ?_),
    containerFrom?_eq_container?⟩
  constructor
  · rintro (hnone | ⟨hnode, hflag, hnone⟩ | hcircle)
    · exact .inl hnone
    · exact .inr (.inl ⟨_, hnode, hflag, hnone⟩)
    · exact .inr (.inr hcircle)
  · rintro (hnone | ⟨node, hnode, hflag, hnone⟩ | hcircle)
    · exact .outside hnone
    · exact .orphan hnode hflag hnone
    · exact .circle hcircle

/-- Two flagged fields that are each other's parents, a third one below them, one without a parent,
and one in a bit-struct. -/
def strayTree : StorageTree :=
  ⟨#[⟨⟨0⟩, .root, none, false, 0, none⟩, ⟨⟨1⟩, .place, some ⟨2⟩, true, 0, none⟩,
    ⟨⟨2⟩, .place, some ⟨1⟩, true, 0, none⟩, ⟨⟨3⟩, .place, some ⟨1⟩, true, 0, none⟩,
    ⟨⟨4⟩, .place, none, true, 0, none⟩, ⟨⟨5⟩, .bitStruct, some ⟨0⟩, false, 0, none⟩,
    ⟨⟨6⟩, .place, some ⟨5⟩, true, 0, none⟩]⟩

example : ([⟨1⟩, ⟨3⟩, ⟨4⟩, ⟨6⟩, ⟨7⟩] : List NodeId).map strayTree.container? =
    [none, none, none, some ⟨5⟩, none] := by decide

end StorageTree

end UniqueAccess
