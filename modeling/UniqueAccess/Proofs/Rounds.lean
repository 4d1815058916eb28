import UniqueAccess.Program.Validity
import Mathlib.Data.Fintype.EquivFin
import Mathlib.Logic.Function.Basic

/-!
# Recursions that run out of new answers

A recursion with fuel answers more questions with every unit of it. If what it answers with one
more unit depends only on what it answered before, and there are finitely many questions, then
after as many units as there are questions nothing new is answered. Questions are asked of names,
and there are finitely many names.
-/

namespace UniqueAccess

instance : Finite StmtId :=
  Finite.of_injective (fun id => id.number.toFin) fun
    | ⟨_⟩, ⟨_⟩, h => congrArg StmtId.mk (UInt32.toFin_inj.mp h)

instance : Finite NodeId :=
  Finite.of_injective (fun id => id.number.toFin) fun
    | ⟨_⟩, ⟨_⟩, h => congrArg NodeId.mk (UInt32.toFin_inj.mp h)

/-- The answers of a recursion, by the fuel that it has. -/
structure Rounds (σ ρ : Type) where
  answer : Nat → σ → Option ρ
  grows : ∀ {n s r}, answer n s = some r → answer (n + 1) s = some r
  determined : ∀ {m n}, answer m = answer n → answer (m + 1) = answer (n + 1)

namespace Rounds

variable {σ ρ : Type}

theorem grows_le (R : Rounds σ ρ) {m n : Nat} {s : σ} {r : ρ} (hle : m ≤ n)
    (h : R.answer m s = some r) : R.answer n s = some r := by
  induction hle with
  | refl => exact h
  | step _ ih => exact R.grows ih

def answered (R : Rounds σ ρ) (questions : List σ) (n : Nat) : Nat :=
  questions.countP fun s => (R.answer n s).isSome

theorem isSome_succ (R : Rounds σ ρ) {n : Nat} {s : σ} (h : (R.answer n s).isSome) :
    (R.answer (n + 1) s).isSome := by
  obtain ⟨r, hr⟩ := Option.isSome_iff_exists.mp h
  exact Option.isSome_iff_exists.mpr ⟨r, R.grows hr⟩

/-- A round that answers something new answers one more of the questions. -/
theorem eq_or_answered_lt (R : Rounds σ ρ) {questions : List σ}
    (houtside : ∀ n s, s ∉ questions → R.answer n s = R.answer 0 s) (n : Nat) :
    R.answer n = R.answer (n + 1) ∨ R.answered questions n < R.answered questions (n + 1) := by
  refine or_iff_not_imp_left.mpr fun hne => ?_
  obtain ⟨s, hs⟩ := Function.ne_iff.mp hne
  have hmem : s ∈ questions := by
    by_contra hout
    exact hs ((houtside n s hout).trans (houtside (n + 1) s hout).symm)
  have hnone : R.answer n s = none := by
    cases hold : R.answer n s with
    | none => rfl
    | some r => exact absurd (hold.trans (R.grows hold).symm) hs
  have hsome : (R.answer (n + 1) s).isSome :=
    Option.isSome_iff_ne_none.mpr fun hnew => hs (hnone.trans hnew.symm)
  exact Program.countP_lt_of_imp (fun _ => R.isSome_succ) hmem hsome (by simp [hnone])

theorem eq_of_stable (R : Rounds σ ρ) {m n : Nat} (h : R.answer m = R.answer (m + 1))
    (hle : m ≤ n) : R.answer n = R.answer m := by
  induction hle with
  | refl => rfl
  | step _ ih => exact (R.determined ih).trans h.symm

theorem exists_stable_or_le (R : Rounds σ ρ) {questions : List σ}
    (houtside : ∀ n s, s ∉ questions → R.answer n s = R.answer 0 s) (n : Nat) :
    (∃ m < n, R.answer m = R.answer (m + 1)) ∨ n ≤ R.answered questions n := by
  induction n with
  | zero => exact .inr (Nat.zero_le _)
  | succ n ih =>
    rcases ih with ⟨m, hm, hstable⟩ | hcount
    · exact .inl ⟨m, Nat.lt_succ_of_lt hm, hstable⟩
    · rcases R.eq_or_answered_lt houtside n with hstable | hlt
      · exact .inl ⟨n, Nat.lt_succ_self n, hstable⟩
      · exact .inr (Nat.succ_le_of_lt (Nat.lt_of_le_of_lt hcount hlt))

/-- As much fuel as there are questions is enough. -/
theorem answer_eq (R : Rounds σ ρ) {questions : List σ}
    (houtside : ∀ n s, s ∉ questions → R.answer n s = R.answer 0 s) {n : Nat}
    (h : questions.length ≤ n) : R.answer n = R.answer questions.length := by
  rcases R.exists_stable_or_le houtside (questions.length + 1) with ⟨m, hm, hstable⟩ | hcount
  · have hle : m ≤ questions.length := Nat.le_of_lt_succ hm
    rw [R.eq_of_stable hstable (Nat.le_trans hle h), R.eq_of_stable hstable hle]
  · exact absurd (Nat.le_trans hcount List.countP_le_length) (Nat.not_succ_le_self _)

end Rounds

end UniqueAccess
