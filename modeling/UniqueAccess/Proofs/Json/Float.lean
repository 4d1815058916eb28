import UniqueAccess.Json.Tree
import UniqueAccess.Proofs.Json.Text
import UniqueAccess.Proofs.Number.Literal
import UniqueAccess.Proofs.Number.Narrowing

/-!
# Binary numbers that are read back

A binary number is written with the digits of the shortest decimal, and perhaps a zero after the
point. What is read back is decided by these digits: if they make a short significand and a small
exponent, it is the number that was written.
-/

namespace UniqueAccess

namespace Decimal

theorem positional_spec (d : Decimal) :
    Digit.valueOf (d.positional.1 ++ d.positional.2) = d.coefficient * 10 ^ d.exponent.toNat ∧
      d.positional.2.length = (-d.exponent).toNat := by
  have hdigits : Digit.valueOf d.digits = d.coefficient := Digit.valueOf_stringOf _
  rw [positional]
  split
  · next h =>
    have hzero : (-d.exponent).toNat = 0 := by omega
    simp [Digit.valueOf_append, Digit.valueOf_replicate_zero, hdigits, hzero]
  · next h =>
    have hzero : d.exponent.toNat = 0 := by omega
    dsimp only
    split
    · next hplaces =>
      rw [List.take_append_drop, hdigits, hzero, List.length_drop]
      omega
    · next hplaces =>
      have hone : Digit.valueOf [Digit.zero] = 0 := rfl
      rw [Digit.valueOf_append, Digit.valueOf_append, Digit.valueOf_replicate_zero, hone, hdigits,
        hzero, List.length_append, List.length_replicate]
      simp only [Nat.zero_mul, Nat.zero_add, Nat.pow_zero, Nat.mul_one, true_and]
      omega

theorem digits_eq_cons {d : Decimal} (hd : 0 < d.coefficient) :
    ∃ digit ds, digit ≠ Digit.zero ∧ d.digits = digit :: ds := by
  cases h : d.digits with
  | nil => exact absurd h (Digit.stringOf_ne_nil _)
  | cons digit ds =>
    refine ⟨digit, ds, ?_, rfl⟩
    rintro rfl
    exact hd.ne' (Digit.eq_nil_of_stringOf h)

theorem positional_whole {d : Decimal} (hd : 0 < d.coefficient) :
    ∃ digit ds, d.positional.1 = digit :: ds ∧ (digit = Digit.zero → ds = []) := by
  obtain ⟨digit, ds, hne, hdigits⟩ := digits_eq_cons hd
  rw [positional, hdigits]
  split
  · exact ⟨digit, _, rfl, fun h => absurd h hne⟩
  · dsimp only
    split
    · next hplaces =>
      obtain ⟨k, hk⟩ := Nat.exists_eq_succ_of_ne_zero (Nat.sub_ne_zero_of_lt hplaces)
      rw [hk]
      exact ⟨digit, _, List.take_succ_cons, fun h => absurd h hne⟩
    · exact ⟨Digit.zero, [], rfl, fun _ => rfl⟩

theorem coefficient_lt (d : Decimal) : d.coefficient < 10 ^ d.digits.length := by
  rw [← Digit.valueOf_stringOf d.coefficient]
  exact Digit.valueOf_lt _

end Decimal

namespace Json

variable {f : BinaryFormat} {negative : Bool} {d : Decimal}

theorem numeralOfDecimal_cases (f : BinaryFormat) (negative : Bool) (d : Decimal) :
    (numeralOfDecimal f negative d).significand = d.coefficient ∧
        (numeralOfDecimal f negative d).lastExponent = d.exponent ∨
      isPositional f d.leadingExponent = true ∧ 0 ≤ d.exponent ∧
        (numeralOfDecimal f negative d).significand =
          d.coefficient * 10 ^ (d.exponent.toNat + 1) ∧
        (numeralOfDecimal f negative d).lastExponent = -1 := by
  obtain ⟨hvalue, hlength⟩ := d.positional_spec
  rw [numeralOfDecimal, Numeral.significand, Numeral.lastExponent, Numeral.writtenExponent]
  dsimp only
  split
  · next h =>
    generalize d.positional = digits at *
    obtain ⟨whole, fraction⟩ := digits
    dsimp only at *
    cases fraction with
    | nil =>
      have hexponent : 0 ≤ d.exponent := by
        rw [List.length_nil] at hlength
        omega
      refine .inr ⟨h, hexponent, ?_, rfl⟩
      rw [List.append_nil] at hvalue
      simp only [List.isEmpty_nil, if_true]
      rw [Digit.valueOf_append_singleton, hvalue, Nat.pow_succ]
      simp only [Digit.zero]
      ring
    | cons digit fraction =>
      have hexponent : d.exponent < 0 := by
        rw [List.length_cons] at hlength
        omega
      have hzero : d.exponent.toNat = 0 := by omega
      rw [hzero, Nat.pow_zero, Nat.mul_one] at hvalue
      simp only [List.isEmpty_cons, Bool.false_eq_true, if_false]
      refine .inl ⟨hvalue, ?_⟩
      omega
  · refine .inl ⟨?_, ?_⟩
    · rw [List.take_append_drop]
      exact Digit.valueOf_stringOf _
    · have hleading : d.leadingExponent = d.exponent + (d.digits.length - 1 : Nat) := rfl
      rw [List.length_drop]
      by_cases hneg : d.leadingExponent < 0
      · simp only [hneg, decide_true, Digit.valueOf_stringOf]
        omega
      · simp only [hneg, decide_false, Digit.valueOf_stringOf]
        omega

theorem magnitude_numeralOfDecimal (f : BinaryFormat) (negative : Bool) (d : Decimal) :
    (numeralOfDecimal f negative d).magnitude = d.value := by
  rw [Numeral.magnitude, Decimal.value]
  rcases numeralOfDecimal_cases f negative d with
    ⟨hsignificand, hlast⟩ | ⟨-, he, hsignificand, hlast⟩
  · rw [hsignificand, hlast]
  · obtain ⟨k, hk⟩ := Int.eq_ofNat_of_zero_le he
    rw [hsignificand, hlast, hk, Int.toNat_natCast, zpow_natCast]
    push_cast
    rw [pow_succ]
    field_simp

/-- A decimal is never written as an integer. -/
theorem integer?_numeralOfDecimal (f : BinaryFormat) (negative : Bool) (d : Decimal) :
    (numeralOfDecimal f negative d).integer? = none := by
  rw [Numeral.integer?, numeralOfDecimal]
  dsimp only
  split
  · cases d.positional.2 <;> rfl
  · simp

theorem proper_numeralOfDecimal (f : BinaryFormat) (negative : Bool) {d : Decimal}
    (hd : 0 < d.coefficient) : (numeralOfDecimal f negative d).Proper := by
  rw [numeralOfDecimal]
  dsimp only
  split
  · obtain ⟨digit, ds, hwhole, hleading⟩ := Decimal.positional_whole hd
    refine ⟨?_, ?_, nofun⟩
    · simp [hwhole]
    · rintro ds' hds
      dsimp only at hds
      rw [hwhole] at hds
      obtain ⟨rfl, rfl⟩ := List.cons.inj hds
      exact hleading rfl
  · obtain ⟨digit, ds, -, hdigits⟩ := Decimal.digits_eq_cons hd
    refine ⟨?_, ?_, ?_⟩
    · simp [hdigits]
    · rintro ds' hds
      dsimp only at hds
      rw [hdigits] at hds
      exact (List.cons.inj hds).2.symm
    · rintro _ _ hexponent
      dsimp only at hexponent
      obtain ⟨rfl, rfl⟩ := Prod.mk.inj (Option.some.inj hexponent)
      exact Digit.stringOf_ne_nil _

def zeroNumeral (negative : Bool) : Numeral :=
  { negative, whole := [Digit.zero], fraction := [Digit.zero] }

theorem Tree.ofBinary_zero {x : SignedPattern} (hf : 0 < f.infinity) (h : x.pattern = 0) :
    Tree.ofBinary f x = .number (zeroNumeral x.negative) := by
  rw [ofBinary, if_neg (by omega), if_pos h, zeroNumeral]

theorem Tree.ofBinary_finite {x : SignedPattern} (hpos : 0 < x.pattern)
    (hfinite : x.pattern < f.infinity) :
    Tree.ofBinary f x =
      .number (numeralOfDecimal f x.negative (f.shortest .even x.pattern)) := by
  rw [ofBinary, if_neg hfinite.not_ge, if_neg hpos.ne']

theorem Tree.writable_ofBinary (f : BinaryFormat) (x : SignedPattern) :
    (Tree.ofBinary f x).Writable := by
  rw [ofBinary]
  split
  · trivial
  · split
    · exact ⟨nofun, fun ds hds => (List.cons.inj hds).2.symm, nofun⟩
    · next hpattern =>
      exact proper_numeralOfDecimal f _
        (BinaryFormat.coefficient_shortest_pos (Nat.pos_of_ne_zero hpattern) .even)

-- ---------------------------------------------------------------------------
-- Reading
-- ---------------------------------------------------------------------------

open BinaryFormat (single double)

variable {p : Nat}

theorem negative_numeralOfDecimal (f : BinaryFormat) (negative : Bool) (d : Decimal) :
    (numeralOfDecimal f negative d).negative = negative := by
  rw [numeralOfDecimal]
  dsimp only
  split <;> rfl

theorem staged?_numeralOfDecimal (hshort : (numeralOfDecimal f negative d).Short)
    (hround : double.RoundsTo (d.value * 2 ^ double.scale) p) (hfinite : p < double.infinity) :
    (numeralOfDecimal f negative d).staged? = some ⟨negative, p⟩ := by
  rw [← magnitude_numeralOfDecimal f negative] at hround
  rw [Numeral.staged?_eq hshort hround hfinite, negative_numeralOfDecimal]

theorem double?_zero (negative : Bool) : (zeroNumeral negative).double? = some ⟨negative, 0⟩ := by
  cases negative <;> decide +kernel

theorem single?_zero (negative : Bool) : (zeroNumeral negative).single? = some ⟨negative, 0⟩ := by
  cases negative <;> decide +kernel

theorem double?_shortest (hp : 0 < p) (hfinite : p < double.infinity)
    (hshort : (numeralOfDecimal double negative (double.shortest .even p)).Short) :
    (numeralOfDecimal double negative (double.shortest .even p)).double? = some ⟨negative, p⟩ := by
  rw [Numeral.double?, integer?_numeralOfDecimal]
  exact staged?_numeralOfDecimal hshort (BinaryFormat.roundsTo_shortest hp .even) hfinite

theorem pos_and_lt_infinity (hlow : 2 ^ (single.scale - 13) ≤ single.quanta p)
    (hhigh : single.quanta p < 2 ^ (single.scale + 53)) : 0 < p ∧ p < single.infinity := by
  constructor
  · rw [Nat.pos_iff_ne_zero]
    rintro rfl
    rw [BinaryFormat.quanta_zero] at hlow
    exact absurd hlow (Nat.two_pow_pos _).not_ge
  · rw [← single.quanta_strictMono.lt_iff_lt]
    exact hhigh.trans (by decide +kernel)

theorem enoughDigits_single : single.enoughDigits = 9 := by decide +kernel

theorem le_exponent_shortest (hp : 0 < p) (hlow : 2 ^ (single.scale - 13) ≤ single.quanta p) :
    -12 ≤ (single.shortest .even p).exponent := by
  have hscale : single.scale = 149 := by decide
  have hlast := BinaryFormat.le_exponent_shortest (f := single) hp .even
  have hlead := (RoundingInterval.leadingExponent_spec
    (BinaryFormat.surrounds_roundingInterval (f := single) hp)).2
  have hvalue : (single.roundingInterval p).value = 2 * single.quanta p := rfl
  have hunit : (single.roundingInterval p).unit = 2 ^ (single.scale + 1) := Nat.one_shiftLeft _
  rw [enoughDigits_single] at hlast
  rw [hvalue, hunit, hscale] at hlead
  rw [hscale] at hlow
  by_contra hsmall
  have hten : (10 : ℚ) ^ ((single.roundingInterval p).leadingExponent + 1) ≤ 10 ^ (-4 : ℤ) :=
    zpow_le_zpow_right₀ (by norm_num) (by omega)
  have hquanta : (2 : ℚ) ^ 136 ≤ single.quanta p := by exact_mod_cast hlow
  push_cast at hlead
  norm_num at hten hlead
  linarith

theorem value_shortest_lt (hp : 0 < p) (hhigh : single.quanta p < 2 ^ (single.scale + 53)) :
    (single.shortest .even p).value < 2 ^ 53 := by
  have hround := (BinaryFormat.roundsTo_shortest (f := single) hp .even).high
  obtain ⟨P, hP⟩ := single.exists_quanta_eq (m := 1) (by decide) (single.scale + 53)
  rw [Nat.one_mul] at hP
  rw [← hP, single.quanta_strictMono.lt_iff_lt] at hhigh
  have hnext : single.quanta (p + 1) ≤ 2 ^ (single.scale + 53) := by
    rw [← hP]
    exact single.quanta_strictMono.monotone hhigh
  have hthis : single.quanta p < single.quanta (p + 1) :=
    single.quanta_strictMono (Nat.lt_succ_self p)
  rw [Nat.pow_add] at hnext
  qify at hnext hthis
  have hunit : (0 : ℚ) < 2 ^ single.scale := by positivity
  rw [← mul_lt_mul_iff_left₀ hunit]
  linarith

theorem moderate_shortest (hp : 0 < p) (hlow : 2 ^ (single.scale - 13) ≤ single.quanta p)
    (hhigh : single.quanta p < 2 ^ (single.scale + 53)) : (single.shortest .even p).Moderate where
  digits := by
    rw [← enoughDigits_single]
    exact BinaryFormat.coefficient_shortest_le hp .even
  places := le_exponent_shortest hp hlow
  size := value_shortest_lt hp hhigh

theorem exponent_le_of_moderate (hd : d.Moderate) (hpos : 0 < d.coefficient) : d.exponent ≤ 22 := by
  by_contra hlarge
  have hten : (10 : ℚ) ^ (22 : ℤ) ≤ 10 ^ d.exponent := zpow_le_zpow_right₀ (by norm_num) (by omega)
  have hone : (1 : ℚ) ≤ d.coefficient := by exact_mod_cast hpos
  have hvalue : (1 : ℚ) * 10 ^ d.exponent ≤ d.value :=
    mul_le_mul_of_nonneg_right hone (zpow_nonneg (by norm_num) _)
  have hsize := hd.size
  norm_num at hten hsize
  linarith

/-- Integers of moderate size leave room for the zero after the point. -/
theorem significand_lt_of_positional (hpositional : isPositional single d.leadingExponent = true)
    (hexponent : 0 ≤ d.exponent) : d.coefficient * 10 ^ (d.exponent.toNat + 1) < 2 ^ 53 := by
  have hleading : d.exponent + (d.digits.length - 1 : Nat) < 13 := by
    simp only [isPositional, if_true, Bool.and_eq_true, decide_eq_true_eq] at hpositional
    exact hpositional.2
  calc d.coefficient * 10 ^ (d.exponent.toNat + 1)
      < 10 ^ d.digits.length * 10 ^ (d.exponent.toNat + 1) :=
        Nat.mul_lt_mul_of_pos_right d.coefficient_lt (Nat.pow_pos (by decide))
    _ = 10 ^ (d.digits.length + (d.exponent.toNat + 1)) := (Nat.pow_add ..).symm
    _ ≤ 10 ^ 14 := Nat.pow_le_pow_right (by decide) (by omega)
    _ < 2 ^ 53 := by decide

theorem short_of_moderate (negative : Bool) (hd : d.Moderate) (hpos : 0 < d.coefficient) :
    (numeralOfDecimal single negative d).Short := by
  rcases numeralOfDecimal_cases single negative d with
    ⟨hsignificand, hlast⟩ | ⟨hpositional, hexponent, hsignificand, hlast⟩
  · have hdigits := hd.digits
    have hplaces := hd.places
    have hlarge := exponent_le_of_moderate hd hpos
    constructor <;> omega
  · have hlt := significand_lt_of_positional hpositional hexponent
    constructor <;> omega

theorem single?_shortest (hlow : 2 ^ (single.scale - 13) ≤ single.quanta p)
    (hhigh : single.quanta p < 2 ^ (single.scale + 53)) :
    (numeralOfDecimal single negative (single.shortest .even p)).single? =
      some ⟨negative, p⟩ := by
  obtain ⟨hp, hfinite⟩ := pos_and_lt_infinity hlow hhigh
  have hd := moderate_shortest hp hlow hhigh
  have hpos := BinaryFormat.coefficient_shortest_pos (f := single) hp .even
  have hround := BinaryFormat.roundsTo_shortest (f := single) hp .even
  generalize single.shortest .even p = d at *
  obtain ⟨D, hD⟩ := BinaryFormat.exists_roundsTo (f := double) (x := d.value * 2 ^ double.scale)
    (by decide) (mul_nonneg d.value_nonneg (by positivity))
  have hDfinite : D < double.infinity := by
    obtain ⟨P, hP⟩ := double.exists_quanta_eq (m := 1) (by decide) (53 + double.scale)
    refine (hD.mono (double.roundsTo_quanta P) ?_).trans_lt ?_
    · rw [hP, Nat.pow_add]
      push_cast
      rw [one_mul]
      exact mul_le_mul_of_nonneg_right hd.size.le (by positivity)
    · rw [← double.quanta_strictMono.lt_iff_lt, hP]
      decide +kernel
  have hshort := short_of_moderate negative hd hpos
  rw [Numeral.single?, integer?_numeralOfDecimal]
  dsimp only
  rw [staged?_numeralOfDecimal hshort hD hDfinite, Option.map_some,
    hd.convert_eq hp hround hD hfinite]

end Json

end UniqueAccess
