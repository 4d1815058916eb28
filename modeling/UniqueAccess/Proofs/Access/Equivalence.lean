import UniqueAccess.Proofs.Access.Addresses
import Mathlib.Data.List.Zip

/-!
# The answers about values and addresses fit together

The analyses compare every pointer with one representative only, and take it that what agrees with
the representative agrees with each other. In an ordered table it does: equality by form is an
equivalence, of values and of addresses, the two sides of a question can be exchanged whatever the
answer is, and an address can be replaced by one that is found to be the same. Nothing is asked of
the constants: one that is not a number equals none, but a statement is equal to itself before its
constant is looked at.
-/

namespace UniqueAccess

-- ---------------------------------------------------------------------------
-- Constants
-- ---------------------------------------------------------------------------

namespace Constant

def isNaN : Constant → Bool
  | .f32 bits => (SignedPattern.ofBits .single bits.toNat).isNaN .single
  | .f64 bits => (SignedPattern.ofBits .double bits.toNat).isNaN .double
  | _ => false

theorem numericallyEqual_self {v : Constant} (h : v.isNaN = false) : v.numericallyEqual v := by
  cases v with
  | f32 bits => exact SignedPattern.numericallyEqual_iff.mpr ⟨h, h, rfl, .inl rfl⟩
  | f64 bits => exact SignedPattern.numericallyEqual_iff.mpr ⟨h, h, rfl, .inl rfl⟩
  | _ => simp [numericallyEqual]

theorem numericallyEqual_equivalence :
    Equivalence fun v w : {v : Constant // v.isNaN = false} => v.1.numericallyEqual w.1 = true where
  refl v := numericallyEqual_self v.2
  symm := numericallyEqual_symm
  trans := numericallyEqual_trans

end Constant

namespace Program

variable {p : Program} {a b c : StmtId} {x y : List StmtId}

-- ---------------------------------------------------------------------------
-- Questions with their sides exchanged
-- ---------------------------------------------------------------------------

theorem distinctConstants_comm : p.distinctConstants a b = p.distinctConstants b a := by
  have himp : ∀ {a b}, p.distinctConstants a b → p.distinctConstants b a := by
    intro a b h
    obtain ⟨v, w, m, n, ha, hb, hv, hw, hne⟩ := distinctConstants_iff.mp h
    exact distinctConstants_iff.mpr ⟨w, v, n, m, hb, ha, hw, hv, hne.symm⟩
  exact Bool.eq_iff_iff.mpr ⟨himp, himp⟩

theorem aliasPointers_eq {same : StmtId → StmtId → Bool} {candidates candidates' : List NodeId} :
    p.aliasPointers same candidates candidates' x y =
      if ∃ node ∈ candidates, node ∈ candidates' then
        if candidates.length = 1 ∧ candidates'.length = 1 then p.aliasIndices same x y
        else .uncertain
      else .different := by
  unfold aliasPointers
  split
  · simp
  · next hsingle =>
    have hlength : ¬ (candidates.length = 1 ∧ candidates'.length = 1) := by
      simp only [List.length_eq_one_iff]
      rintro ⟨⟨node, rfl⟩, node', rfl⟩
      exact hsingle node node' rfl rfl
    simp [hlength]

section
variable {same : StmtId → StmtId → Bool} (hsame : ∀ a b, same a b = same b a)
include hsame

theorem allSame_comm : allSame same x y = allSame same y x := by
  rw [allSame, allSame, ← List.zip_swap, List.all_map]
  simp only [Function.comp_def, Prod.fst_swap, Prod.snd_swap, hsame]

theorem someDiffer_comm : p.someDiffer same x y = p.someDiffer same y x := by
  rw [someDiffer, someDiffer, ← List.zip_swap, List.any_map]
  refine congrArg _ (funext fun q => ?_)
  simp only [Function.comp_def, Prod.fst_swap, Prod.snd_swap]
  rw [hsame, distinctConstants_comm]

theorem aliasIndices_comm : p.aliasIndices same x y = p.aliasIndices same y x := by
  simp only [aliasIndices, ne_eq, eq_comm (a := x.length), someDiffer_comm hsame (x := x),
    allSame_comm hsame (x := x)]

theorem aliasPointers_comm {candidates candidates' : List NodeId} :
    p.aliasPointers same candidates candidates' x y =
      p.aliasPointers same candidates' candidates y x := by
  simp only [aliasPointers_eq, aliasIndices_comm hsame (x := x),
    and_comm (a := candidates.length = 1), and_comm (b := _ ∈ candidates')]

theorem aliasAnswerBy_comm : p.aliasAnswerBy same a b = p.aliasAnswerBy same b a := by
  unfold aliasAnswerBy
  by_cases hab : a = b
  · rw [if_pos hab, if_pos hab.symm]
  · rw [if_neg hab, if_neg (Ne.symm hab)]
    split
    · next ha hb =>
      simp only [ha, hb]
      exact aliasPointers_comm hsame
    · next hnot =>
      split
      · next hb ha => exact (hnot _ _ _ _ ha hb).elim
      · rfl

end

-- ---------------------------------------------------------------------------
-- Ordered tables
-- ---------------------------------------------------------------------------

namespace Ordered

variable (hp : p.Ordered)
include hp

theorem grounded (a : StmtId) : p.Grounded a :=
  .of_decreasing (Q := fun _ => True)
    (fun user operand _ ⟨s, hs, hoperand⟩ => ⟨trivial, hp user s hs operand hoperand⟩) trivial

theorem sameValue_equivalence : Equivalence fun a b => p.sameValue a b = true where
  refl := sameValue_refl
  symm := (hp.grounded _).sameValue_symm (hp.grounded _)
  trans := (hp.grounded _).sameValue_trans (hp.grounded _)

theorem sameAddress_equivalence :
    Equivalence fun a b => p.structuralOracle.sameAddress a b = true where
  refl _ := sameAddress_iff.mpr (.inl rfl)
  symm := (hp.grounded _).sameAddress_symm (hp.grounded _)
  trans := (hp.grounded _).sameAddress_trans (hp.grounded _)

theorem aliasAnswer_comm : p.aliasAnswer a b = p.aliasAnswer b a :=
  aliasAnswerBy_comm fun _ _ => Bool.eq_iff_iff.mpr
    ⟨hp.sameValue_equivalence.symm, hp.sameValue_equivalence.symm⟩

end Ordered

/-- In an ordered table all comparisons have answers. To have the same value and to hold the same
address are equivalences, no answer about two addresses depends on which of them comes first, and
what is the same address as another one stays so if either is replaced by the same address. -/
theorem comparisons_consistent (hp : p.Ordered) :
    (Equivalence fun v w : {v : Constant // v.isNaN = false} =>
      v.1.numericallyEqual w.1 = true) ∧
    (∀ a b, (p.sameValue? a b).isSome) ∧
    (Equivalence fun a b => p.sameValue a b = true) ∧
    (Equivalence fun a b => p.structuralOracle.sameAddress a b = true) ∧
    (∀ a b, p.aliasAnswer a b = p.aliasAnswer b a) ∧
    ∀ a a' b b', p.structuralOracle.sameAddress a a' → p.structuralOracle.sameAddress b b' →
      (p.aliasAnswer a b = .same ↔ p.aliasAnswer a' b' = .same) := by
  refine ⟨Constant.numericallyEqual_equivalence, hp.isSome_sameValue?, hp.sameValue_equivalence,
    hp.sameAddress_equivalence, fun _ _ => hp.aliasAnswer_comm, ?_⟩
  have hequiv := hp.sameAddress_equivalence
  intro a a' b b' ha hb
  rw [aliasAnswer_eq_same_iff, aliasAnswer_eq_same_iff]
  constructor
  · intro h
    exact hequiv.trans (hequiv.symm ha) (hequiv.trans h hb)
  · intro h
    exact hequiv.trans ha (hequiv.trans h (hequiv.symm hb))

/-- A task over a range with pointers at `(i + 1) * n`, `n * (1 + i)` and `(1 + i) * n`, where `n`
is not a number, and with pointers at 1 and at 2. -/
def scaledProgram : Program where
  version := currentVersion
  storage := ⟨#[{ id := ⟨0⟩, kind := .root }, { id := ⟨1⟩, kind := .place, parent := some ⟨0⟩ }]⟩
  stmts := #[
    .task .rangeFor none [⟨1⟩, ⟨2⟩, ⟨3⟩, ⟨4⟩, ⟨5⟩, ⟨6⟩, ⟨7⟩, ⟨8⟩, ⟨9⟩, ⟨10⟩, ⟨11⟩, ⟨12⟩, ⟨13⟩, ⟨14⟩],
    .loopIndex ⟨0⟩ 0,
    .const (.i32 1),
    .const (.f32 0x7fc00000),
    .binary .add ⟨1⟩ ⟨2⟩,
    .binary .add ⟨2⟩ ⟨1⟩,
    .binary .mul ⟨4⟩ ⟨3⟩,
    .binary .mul ⟨3⟩ ⟨5⟩,
    .binary .mul ⟨5⟩ ⟨3⟩,
    .globalPtr [⟨1⟩] [⟨6⟩],
    .globalPtr [⟨1⟩] [⟨7⟩],
    .globalPtr [⟨1⟩] [⟨8⟩],
    .const (.i64 2),
    .globalPtr [⟨1⟩] [⟨2⟩],
    .globalPtr [⟨1⟩] [⟨12⟩]]
  root := [⟨0⟩]

/-- The first address is the second, with both operators turned round, and the second is the third,
with one of them turned back. -/
theorem scaledPointers_consistent :
    scaledProgram.structuralOracle.sameAddress ⟨9⟩ ⟨11⟩ ∧
      scaledProgram.aliasAnswer ⟨11⟩ ⟨10⟩ = .same ∧
      scaledProgram.aliasAnswer ⟨14⟩ ⟨13⟩ = .different := by
  have hordered : scaledProgram.Ordered := ordered_of_zipIdx (by decide)
  have hfirst : scaledProgram.structuralOracle.sameAddress ⟨9⟩ ⟨10⟩ := by decide +kernel
  have hsecond : scaledProgram.structuralOracle.sameAddress ⟨10⟩ ⟨11⟩ := by decide +kernel
  have hdifferent : scaledProgram.aliasAnswer ⟨13⟩ ⟨14⟩ = .different := by decide +kernel
  obtain ⟨_, _, _, haddress, hcomm, hreplace⟩ := comparisons_consistent hordered
  refine ⟨haddress.trans hfirst hsecond, ?_, (hcomm ⟨14⟩ ⟨13⟩).trans hdifferent⟩
  exact (hreplace ⟨10⟩ ⟨11⟩ ⟨9⟩ ⟨10⟩ hsecond hfirst).mp
    (aliasAnswer_eq_same_iff.mpr (haddress.symm hfirst))

end Program

end UniqueAccess
