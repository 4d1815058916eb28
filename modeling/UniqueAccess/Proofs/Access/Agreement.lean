import UniqueAccess.Proofs.Access.Facts
import UniqueAccess.Proofs.Access.Pointers

/-!
# What looks the same is known to be the same

The oracle compares two statements on demand, from the users down to the operands; the walk through
a task learns about them one by one, from the operands up to the users. If operands are visited
before their users, the two agree: of statements that are found to have the same value the same is
known, and pointers that are found to hold the same address have unique addresses together.
-/

namespace UniqueAccess.Program

open LoopFacts (Agree)

variable {p : Program} {task id a b : StmtId} {s : Stmt} {x y : List StmtId}

def Visits (p : Program) (task id : StmtId) : Prop := id ∈ (p.taskVisits task).map Prod.fst

theorem Visits.of_mem (h : (id, s) ∈ p.taskVisits task) : p.Visits task id :=
  List.mem_map.mpr ⟨_, h, rfl⟩

theorem Visits.mem_taskVisits (h : p.Visits task id) (hs : p.stmt? id = some s) :
    (id, s) ∈ p.taskVisits task := by
  obtain ⟨⟨_, s'⟩, hmem, rfl⟩ := List.mem_map.mp h
  obtain rfl := Option.some.inj ((stmt?_of_mem_taskVisits hmem).symm.trans hs)
  exact hmem

section
variable (h : DefinesFirst (p.taskVisits task))
include h

-- ---------------------------------------------------------------------------
-- Values
-- ---------------------------------------------------------------------------

theorem Visits.operand (hid : p.Visits task id) (hs : p.stmt? id = some s) {operand : StmtId}
    (hoperand : operand ∈ s.operands) : p.Visits task operand :=
  h.mem_operand (hid.mem_taskVisits hs) hoperand

theorem Visits.grounded (hid : p.Visits task id) : p.Grounded id :=
  h.grounded (fun _ _ => stmt?_of_mem_taskVisits) hid

theorem Visits.solves (hid : p.Visits task id) (hs : p.stmt? id = some s) :
    (p.loopFacts task).Solves task id s :=
  h.followsOperands.visitAll_solves _ (hid.mem_taskVisits hs)

theorem Visits.agree (ha : p.Visits task a) (hb : p.Visits task b) (hab : p.sameValue a b) :
    Agree (p.loopFacts task) (p.loopFacts task) a b := by
  induction ha.grounded h generalizing b with
  | intro a hacc ih =>
    rcases (Grounded.sameValue_iff (.intro a hacc)).mp hab with rfl | ⟨s, t, hs, ht, hform⟩
    · exact ⟨rfl, rfl⟩
    · refine (ha.solves h hs).agree (hb.solves h ht) (hform.mono fun x hx y hy hxy => ?_)
      exact ih x ⟨s, hs, hx⟩ (ha.operand h hs hx) (hb.operand h ht hy) hxy

-- ---------------------------------------------------------------------------
-- Addresses
-- ---------------------------------------------------------------------------

theorem map_tag?_eq_of_sameValues (hx : ∀ i ∈ x, p.Visits task i) (hy : ∀ j ∈ y, p.Visits task j)
    (hsame : p.SameValues x y) :
    x.map (p.loopFacts task).tag? = y.map (p.loopFacts task).tag? := by
  induction hsame with
  | nil => rfl
  | cons hij _ ih =>
    rw [List.forall_mem_cons] at hx hy
    rw [List.map_cons, List.map_cons, (hx.1.agree h hy.1 hij).tag, ih hx.2 hy.2]

theorem map_tag?_eq_of_sameAddress (ha : p.Visits task a) (hb : p.Visits task b)
    {candidates candidates' : List NodeId} (hs : p.stmt? a = some (.globalPtr candidates x))
    (ht : p.stmt? b = some (.globalPtr candidates' y))
    (hab : p.structuralOracle.sameAddress a b) :
    x.map (p.loopFacts task).tag? = y.map (p.loopFacts task).tag? := by
  rcases sameAddress_iff.mp hab with rfl | ⟨node, x', y', hs', ht', hsame⟩
  · obtain ⟨_, rfl⟩ := Stmt.globalPtr.inj (Option.some.inj (hs.symm.trans ht))
    rfl
  · obtain ⟨_, rfl⟩ := Stmt.globalPtr.inj (Option.some.inj (hs.symm.trans hs'))
    obtain ⟨_, rfl⟩ := Stmt.globalPtr.inj (Option.some.inj (ht.symm.trans ht'))
    exact map_tag?_eq_of_sameValues h (fun i hi => ha.operand h hs hi)
      (fun j hj => hb.operand h ht hj) hsame

/-- If a walk visits every statement once and operands first, comparisons of what it visits have
answers, and the oracle tells apart whatever the walk tells apart: what it says has the same value
is invariant together and has one tag, and pointers that it says hold the same address are unique
together, however many dimensions there are to cover. -/
theorem facts_respect_oracle :
    (∀ a b, p.Visits task a → p.Visits task b →
      ∃ answer, p.sameValue? a b = some answer ∧ (answer = true →
        ((p.loopFacts task).isInvariant a ↔ (p.loopFacts task).isInvariant b) ∧
          (p.loopFacts task).tag? a = (p.loopFacts task).tag? b)) ∧
    ∀ a b candidates x candidates' y, (a, .globalPtr candidates x) ∈ p.taskVisits task →
      (b, .globalPtr candidates' y) ∈ p.taskVisits task → p.structuralOracle.sameAddress a b →
        ∀ dimensions, ∃ unique,
          p.isUniquePtr task (p.loopFacts task) (some dimensions) a = .ok unique ∧
            p.isUniquePtr task (p.loopFacts task) (some dimensions) b = .ok unique := by
  constructor
  · intro a b ha hb
    obtain ⟨answer, hanswer⟩ :=
      Option.isSome_iff_exists.mp (isSome_iff_ends.mpr ((ha.grounded h).ends b))
    refine ⟨answer, hanswer, fun htrue => ?_⟩
    have hagree := ha.agree h hb (sameValue_eq_true.mpr (hanswer.trans (congrArg some htrue)))
    exact ⟨by rw [hagree.invariant], hagree.tag⟩
  · intro a b candidates x candidates' y ha hb hab dimensions
    have hs := stmt?_of_mem_taskVisits ha
    have ht := stmt?_of_mem_taskVisits hb
    refine ⟨_, isUniquePtr_eq _ hs, ?_⟩
    rw [map_tag?_eq_of_sameAddress h (.of_mem ha) (.of_mem hb) hs ht hab]
    exact isUniquePtr_eq _ ht

end

def maskedProgram : Program where
  version := currentVersion
  storage := ⟨#[
    { id := ⟨0⟩, kind := .root },
    { id := ⟨1⟩, kind := .dense, parent := some ⟨0⟩, dimensions := 2 },
    { id := ⟨2⟩, kind := .place, parent := some ⟨1⟩ }]⟩
  stmts := #[
    .task .structFor (some ⟨1⟩) [⟨1⟩, ⟨2⟩, ⟨3⟩, ⟨4⟩, ⟨5⟩, ⟨6⟩, ⟨7⟩, ⟨8⟩, ⟨9⟩],
    .loopIndex ⟨0⟩ 0,
    .loopIndex ⟨0⟩ 1,
    .const (.i32 7),
    .binary .bitXor ⟨3⟩ ⟨1⟩,
    .binary .bitXor ⟨1⟩ ⟨3⟩,
    .unary .neg ⟨4⟩,
    .unary .neg ⟨5⟩,
    .globalPtr [⟨2⟩] [⟨2⟩, ⟨6⟩],
    .globalPtr [⟨2⟩] [⟨2⟩, ⟨7⟩]]
  root := [⟨0⟩]

/-- The operands of the exclusive or are found in either order, by the oracle and by the walk. -/
theorem maskedPointers_agree :
    (maskedProgram.loopFacts ⟨0⟩).tag? ⟨6⟩ = some (.along 0) ∧
      (maskedProgram.loopFacts ⟨0⟩).tag? ⟨6⟩ = (maskedProgram.loopFacts ⟨0⟩).tag? ⟨7⟩ ∧
      ∃ unique,
        maskedProgram.isUniquePtr ⟨0⟩ (maskedProgram.loopFacts ⟨0⟩) (some 2) ⟨8⟩ = .ok unique ∧
        maskedProgram.isUniquePtr ⟨0⟩ (maskedProgram.loopFacts ⟨0⟩) (some 2) ⟨9⟩ = .ok unique := by
  have hfirst : DefinesFirst (maskedProgram.taskVisits ⟨0⟩) :=
    ⟨by decide +kernel, by decide +kernel⟩
  obtain ⟨hvalues, haddresses⟩ := facts_respect_oracle hfirst
  refine ⟨by decide +kernel, ?_, ?_⟩
  · have hvisits : maskedProgram.Visits ⟨0⟩ ⟨6⟩ ∧ maskedProgram.Visits ⟨0⟩ ⟨7⟩ := by
      unfold Visits
      decide +kernel
    have hsame : maskedProgram.sameValue? ⟨6⟩ ⟨7⟩ = some true := by decide +kernel
    obtain ⟨answer, hanswer, hagree⟩ := hvalues ⟨6⟩ ⟨7⟩ hvisits.1 hvisits.2
    exact (hagree (Option.some.inj (hanswer.symm.trans hsame))).2
  · exact haddresses ⟨8⟩ ⟨9⟩ [⟨2⟩] [⟨2⟩, ⟨6⟩] [⟨2⟩] [⟨2⟩, ⟨7⟩] (by decide +kernel)
      (by decide +kernel) (by decide +kernel) 2

end UniqueAccess.Program
