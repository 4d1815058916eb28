import UniqueAccess.Proofs.Access.Rules

/-!
# Facts that stay

A walk may visit a statement again when more is known of its operands, and it may visit it before
them. What it learns then is added to what it knew: everything that is known at some point follows
from the rules, which say no two things about one value, so that nothing is withdrawn or changed
later (`facts_permanent`).
-/

namespace UniqueAccess

structure LoopFacts.Extends (f g : LoopFacts) : Prop where
  invariant {id : StmtId} : f.isInvariant id → g.isInvariant id
  tag {id : StmtId} {tag : LoopTag} : f.tag? id = some tag → g.tag? id = some tag

theorem LoopFacts.Extends.trans {f g h : LoopFacts} (hfg : f.Extends g) (hgh : g.Extends h) :
    f.Extends h where
  invariant hid := hgh.invariant (hfg.invariant hid)
  tag htag := hgh.tag (hfg.tag htag)

namespace Program

variable {p : Program} {task : StmtId} {f : LoopFacts}

namespace Justifies

theorem exclusive (hf : p.Justifies task f) {id : StmtId} (hid : f.isInvariant id) :
    f.tag? id = none :=
  Option.eq_none_iff_forall_ne_some.mpr fun _ htag =>
    (hf.invariant hid).not_hasTag (hf.tag htag)

theorem extends_visit (hf : p.Justifies task f) {v : StmtId × Stmt}
    (hv : v ∈ p.taskVisits task) : f.Extends (f.visit task v.1 v.2) where
  invariant {id} hid := by
    rw [LoopFacts.isInvariant_visit, hid, Bool.or_true, ite_self]
  tag {id tag} htag := by
    obtain ⟨tag', htag'⟩ : ∃ tag', (f.visit task v.1 v.2).tag? id = some tag' := by
      rw [LoopFacts.tag?_visit, htag]
      split
      · exact Option.isSome_iff_exists.mp (by simp)
      · exact ⟨tag, rfl⟩
    rw [htag', ((hf.visit hv).tag htag').unique (hf.tag htag)]

theorem extends_visitAll {visits : List (StmtId × Stmt)} (hf : p.Justifies task f)
    (hvisits : ∀ v ∈ visits, v ∈ p.taskVisits task) : f.Extends (f.visitAll task visits) := by
  induction visits generalizing f with
  | nil => exact ⟨id, id⟩
  | cons v rest ih =>
    rw [List.forall_mem_cons] at hvisits
    exact (hf.extends_visit hvisits.1).trans (ih (hf.visit hvisits.1) hvisits.2)

end Justifies

/-- Let the walk through a task be made any number of times, one after another, and stopped at any
point. Then no value is both invariant and tagged, and what is known of a value at that point is
known of it at every later one. -/
theorem facts_permanent {l : List StmtId} (hl : p.Walked .taskLocal (p.taskBody task) l)
    {runs : Nat} {earlier later : List (StmtId × Stmt)} (hearlier : earlier <+: later)
    (hlater : later <+: (List.replicate runs (l.filterMap p.visit?)).flatten) :
    (∀ id, (LoopFacts.none.visitAll task earlier).isInvariant id →
      (LoopFacts.none.visitAll task earlier).tag? id = none) ∧
    (∀ id, (LoopFacts.none.visitAll task earlier).isInvariant id →
      (LoopFacts.none.visitAll task later).isInvariant id) ∧
    ∀ id tag, (LoopFacts.none.visitAll task earlier).tag? id = some tag →
      (LoopFacts.none.visitAll task later).tag? id = some tag := by
  have hvisits : l.filterMap p.visit? = p.taskVisits task := by
    rw [taskVisits, visits, hl.trail_eq]
  have hmem : ∀ v ∈ later, v ∈ p.taskVisits task := by
    intro v hv
    obtain ⟨visits, hrun, hv⟩ := List.mem_flatten.mp (hlater.subset hv)
    rwa [List.eq_of_mem_replicate hrun, hvisits] at hv
  obtain ⟨between, rfl⟩ := hearlier
  rw [List.forall_mem_append] at hmem
  have hf : p.Justifies task (LoopFacts.none.visitAll task earlier) :=
    justifies_none.visitAll hmem.1
  have hextends := hf.extends_visitAll hmem.2
  rw [LoopFacts.visitAll, LoopFacts.visitAll, ← List.foldl_append] at hextends
  exact ⟨fun _ => hf.exclusive, fun _ => hextends.invariant, fun _ _ => hextends.tag⟩

/-- A task over a range that lists `i + 5` before its operands and once more after them, `-(i + 5)`
between the two, and two negations of each other. -/
def repeatingProgram : Program where
  version := currentVersion
  storage := ⟨#[]⟩
  stmts := #[
    .task .rangeFor none [⟨3⟩, ⟨4⟩, ⟨1⟩, ⟨2⟩, ⟨3⟩, ⟨5⟩, ⟨6⟩],
    .loopIndex ⟨0⟩ 0,
    .const (.i32 5),
    .binary .add ⟨1⟩ ⟨2⟩,
    .unary .neg ⟨3⟩,
    .unary .neg ⟨6⟩,
    .unary .neg ⟨5⟩]
  root := [⟨0⟩]

def repeatingVisits : List (StmtId × Stmt) :=
  [⟨3⟩, ⟨4⟩, ⟨1⟩, ⟨2⟩, ⟨3⟩, ⟨5⟩, ⟨6⟩].filterMap repeatingProgram.visit?

/-- The tag of the sum is known from its second visit on, that of its negation from the second run
on, and the constant stays without one. -/
theorem repeatingFacts_stay :
    repeatingProgram.Walked .taskLocal (repeatingProgram.taskBody ⟨0⟩)
        [⟨3⟩, ⟨4⟩, ⟨1⟩, ⟨2⟩, ⟨3⟩, ⟨5⟩, ⟨6⟩] ∧
      (LoopFacts.none.visitAll ⟨0⟩ repeatingVisits).tag? ⟨3⟩ = some (.along 0) ∧
      (LoopFacts.none.visitAll ⟨0⟩ repeatingVisits).tag? ⟨4⟩ = none ∧
      (LoopFacts.none.visitAll ⟨0⟩ (repeatingVisits ++ repeatingVisits)).tag? ⟨3⟩ =
        some (.along 0) ∧
      (LoopFacts.none.visitAll ⟨0⟩ (repeatingVisits ++ repeatingVisits)).tag? ⟨4⟩ =
        some (.along 0) ∧
      (LoopFacts.none.visitAll ⟨0⟩ repeatingVisits).isInvariant ⟨2⟩ ∧
      (LoopFacts.none.visitAll ⟨0⟩ repeatingVisits).tag? ⟨2⟩ = none := by
  have hwalk : repeatingProgram.Walked .taskLocal (repeatingProgram.taskBody ⟨0⟩)
      [⟨3⟩, ⟨4⟩, ⟨1⟩, ⟨2⟩, ⟨3⟩, ⟨5⟩, ⟨6⟩] := trail?_eq_some.mp (by decide +kernel)
  have hruns : repeatingVisits ++ repeatingVisits <+:
      (List.replicate 2 repeatingVisits).flatten := by simp
  obtain ⟨hexclusive, -, hstays⟩ := facts_permanent hwalk (List.prefix_append _ _) hruns
  have hsum : (LoopFacts.none.visitAll ⟨0⟩ repeatingVisits).tag? ⟨3⟩ = some (.along 0) := by
    decide +kernel
  have hconstant : (LoopFacts.none.visitAll ⟨0⟩ repeatingVisits).isInvariant ⟨2⟩ := by
    decide +kernel
  exact ⟨hwalk, hsum, by decide +kernel, hstays _ _ hsum, by decide +kernel, hconstant,
    hexclusive _ hconstant⟩

end Program

end UniqueAccess
