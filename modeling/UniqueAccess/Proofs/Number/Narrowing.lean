import UniqueAccess.Proofs.Number.Shortest
import Mathlib.Algebra.Order.Ring.Abs

/-!
# Decimals that are rounded twice

A short decimal that is rounded to double and then to single precision becomes the same number as if
it were rounded once, provided that it is not too small (`convert_eq`): what rounds to a middle
between two numbers of single precision would be so near to it that it is the middle itself.
-/

namespace UniqueAccess

namespace BinaryFormat

variable {f : BinaryFormat} {p : Nat} {x : ℚ}

theorem middle_eq (p : Nat) :
    ∃ m < 4 * f.hidden, ∃ t, f.quanta p + f.quanta (p + 1) = m * 2 ^ t := by
  obtain ⟨s, hs, hlow, hp⟩ := f.exists_significand p
  have hquanta : f.quanta p = s * 2 ^ (p / f.hidden - 1) := by
    conv_lhs => rw [hp]
    exact quanta_add hlow hs.le
  refine ⟨2 * s + 1, by omega, p / f.hidden - 1, ?_⟩
  rw [quanta_succ, hquanta]
  ring

theorem RoundsTo.near (h : f.RoundsTo x p) (hp : f.hidden ≤ p) :
    |x - f.quanta p| * (2 * f.hidden) ≤ f.quanta p := by
  have hpos := f.hidden_pos
  obtain ⟨q, rfl⟩ := Nat.exists_eq_succ_of_ne_zero (show p ≠ 0 by omega)
  have hdiv : q.succ / f.hidden ≠ 0 := (Nat.div_pos hp hpos).ne'
  have hvalue : f.hidden * 2 ^ (q.succ / f.hidden - 1) ≤ f.quanta q.succ := by
    rw [f.quanta_eq q.succ, if_neg hdiv]
    exact Nat.mul_le_mul_right _ (Nat.le_add_right ..)
  have hprev : 2 ^ (q / f.hidden - 1) ≤ 2 ^ (q.succ / f.hidden - 1) :=
    Nat.pow_le_pow_right (by decide)
      (Nat.sub_le_sub_right (Nat.div_le_div_right (Nat.le_succ q)) 1)
  have hlow := h.low
  have hhigh := h.high
  rw [f.quanta_succ q.succ] at hhigh
  rw [Nat.succ_sub_one] at hlow
  have hthis := f.quanta_succ q
  generalize 2 ^ (q.succ / f.hidden - 1) = above at *
  generalize 2 ^ (q / f.hidden - 1) = below at *
  qify at hvalue hprev hlow hhigh hthis
  have habs : |x - f.quanta q.succ| ≤ above / 2 := by
    rw [abs_le]
    constructor <;> linarith
  have hhidden : (0 : ℚ) < 2 * f.hidden := by positivity
  refine (mul_le_mul_of_nonneg_right habs hhidden.le).trans ?_
  linarith

end BinaryFormat

/-- No decimal with nine digits, of which twelve at most are decimal places, comes near to a middle
between numbers of single precision without being it. -/
theorem eq_of_close {m t c k : Nat} (hm : m < 2 ^ 25) (hc : c ≤ 10 ^ 9) (hk : k ≤ 12)
    (h : |(m : ℤ) * 2 ^ t * 10 ^ k - c * 2 ^ 150| * 2 ^ 53 ≤ (m : ℤ) * 2 ^ t * 10 ^ k) :
    (m : ℤ) * 2 ^ t * 10 ^ k = c * 2 ^ 150 := by
  by_contra hne
  have hfive : (m * 5 ^ k : ℤ) < 2 ^ 53 := by
    have : m * 5 ^ k ≤ 2 ^ 25 * 5 ^ 12 :=
      Nat.mul_le_mul hm.le (Nat.pow_le_pow_right (by decide) hk)
    exact_mod_cast this.trans_lt (by decide)
  have hten : (m : ℤ) * 2 ^ t * 10 ^ k = m * 5 ^ k * 2 ^ (t + k) := by
    rw [pow_add, show (10 : ℤ) = 5 * 2 from rfl, mul_pow]
    ring
  -- both are multiples of a power of two that is large, compared with them
  rcases Nat.le_total (t + k) 150 with hle | hle
  · have hdvd : (2 : ℤ) ^ (t + k) ∣ (m : ℤ) * 2 ^ t * 10 ^ k - c * 2 ^ 150 := by
      rw [hten]
      exact (Dvd.intro_left _ rfl).sub ((pow_dvd_pow 2 hle).mul_left _)
    have hge := Int.le_of_dvd (abs_pos.mpr (sub_ne_zero.mpr hne)) ((dvd_abs _ _).mpr hdvd)
    rw [hten] at h
    have hpos : (0 : ℤ) < 2 ^ (t + k) := by positivity
    rw [hten] at hge
    nlinarith
  · have hdvd : (2 : ℤ) ^ 150 ∣ (m : ℤ) * 2 ^ t * 10 ^ k - c * 2 ^ 150 := by
      rw [hten]
      exact ((pow_dvd_pow 2 hle).mul_left _).sub (Dvd.intro_left _ rfl)
    have hge := Int.le_of_dvd (abs_pos.mpr (sub_ne_zero.mpr hne)) ((dvd_abs _ _).mpr hdvd)
    have hself := le_abs_self ((m : ℤ) * 2 ^ t * 10 ^ k - c * 2 ^ 150)
    have hc' : (c : ℤ) ≤ 10 ^ 9 := by exact_mod_cast hc
    generalize (m : ℤ) * 2 ^ t * 10 ^ k = A at *
    generalize |A - c * 2 ^ 150| = B at *
    linarith

namespace Decimal

open BinaryFormat (single double)

variable {d : Decimal} {D p : Nat}

/-- Decimals of single precision: nine digits, twelve decimal places, no larger than the integers
that double precision has. -/
structure Moderate (d : Decimal) : Prop where
  digits : d.coefficient ≤ 10 ^ 9
  places : -12 ≤ d.exponent
  size : d.value < 2 ^ 53

theorem Moderate.exact (hd : d.Moderate) (hexponent : 0 ≤ d.exponent) :
    ∃ D, (double.quanta D : ℚ) = d.value * 2 ^ double.scale := by
  obtain ⟨k, hk⟩ := Int.eq_ofNat_of_zero_le hexponent
  have hvalue : d.value = (d.coefficient * 10 ^ k : Nat) := by
    rw [value, hk, zpow_natCast]
    push_cast
    rfl
  have hsize := hd.size
  rw [hvalue] at hsize ⊢
  obtain ⟨D, hD⟩ := double.exists_quanta_eq (m := d.coefficient * 10 ^ k)
    (by exact_mod_cast hsize) double.scale
  exact ⟨D, by exact_mod_cast hD⟩

-- The middles of single precision are counted in `2 ^ j` quanta of double precision.
variable {j : Nat}

theorem hidden_le {m : Nat} (hj : double.scale = single.scale + 1 + j) (hm : 0 < m)
    (hD : double.quanta D = m * 2 ^ j) : double.hidden ≤ D := by
  have hscale : double.scale = 1074 ∧ single.scale = 149 := by decide
  have hquanta := BinaryFormat.quanta_small (f := double) (p := double.hidden) (by omega)
  rw [← double.quanta_strictMono.le_iff_le, hquanta, hD]
  calc double.hidden ≤ 2 ^ j := Nat.pow_le_pow_right (by decide) (show 52 ≤ j by omega)
    _ ≤ m * 2 ^ j := Nat.le_mul_of_pos_left _ hm

theorem Moderate.eq_of_places {m t k : Nat} (hd : d.Moderate)
    (hj : double.scale = single.scale + 1 + j) (hk : d.exponent = -k) (hm : m < 2 ^ 25)
    (hdouble : double.RoundsTo (d.value * 2 ^ double.scale) D)
    (hpos : 0 < m * 2 ^ t) (hD : double.quanta D = m * 2 ^ t * 2 ^ j) :
    d.value * 2 ^ double.scale = double.quanta D := by
  have hplaces : k ≤ 12 := by
    have := hd.places
    omega
  have hbits : (2 * double.hidden : ℚ) = 2 ^ 53 := by norm_num [BinaryFormat.hidden, double]
  have hnear := hdouble.near (hidden_le hj hpos hD)
  -- both numbers in units of one double quantum and `k` decimal places
  have hunit : (0 : ℚ) < 2 ^ j / 10 ^ k := by positivity
  have hleft : d.value * 2 ^ double.scale = d.coefficient * 2 ^ 150 * (2 ^ j / 10 ^ k) := by
    rw [value, hk, zpow_neg, zpow_natCast, hj, pow_add, show single.scale + 1 = 150 from rfl]
    field_simp
  have hright : (double.quanta D : ℚ) = m * 2 ^ t * 10 ^ k * (2 ^ j / 10 ^ k) := by
    rw [hD]
    push_cast
    field_simp
  generalize (2 : ℚ) ^ j / 10 ^ k = unit at *
  have hclose : |(m : ℤ) * 2 ^ t * 10 ^ k - d.coefficient * 2 ^ 150| * 2 ^ 53 ≤
      (m : ℤ) * 2 ^ t * 10 ^ k := by
    rw [hleft, hright, hbits, ← sub_mul, abs_mul, abs_of_pos hunit, abs_sub_comm,
      mul_right_comm, mul_le_mul_iff_left₀ hunit] at hnear
    qify
    exact hnear
  have hsame := eq_of_close hm hd.digits hplaces hclose
  qify at hsame
  rw [hleft, hright, hsame]

theorem Moderate.eq_middle (hd : d.Moderate) (hj : double.scale = single.scale + 1 + j)
    (hdouble : double.RoundsTo (d.value * 2 ^ double.scale) D)
    (hD : (double.quanta D : ℚ) = (single.quanta p + single.quanta (p + 1)) * 2 ^ j) :
    d.value * 2 ^ double.scale = double.quanta D := by
  rcases lt_or_ge d.exponent 0 with hexponent | hexponent
  · obtain ⟨k, hk⟩ : ∃ k : Nat, d.exponent = -k := ⟨(-d.exponent).toNat, by omega⟩
    obtain ⟨m, hm, t, hmiddle⟩ := single.middle_eq p
    have hpos : 0 < m * 2 ^ t := by
      rw [← hmiddle]
      exact Nat.add_pos_right _ (BinaryFormat.quanta_pos p.succ_pos)
    refine hd.eq_of_places hj hk (hm.trans_eq (by decide)) hdouble hpos ?_
    rw [← hmiddle]
    exact_mod_cast hD
  · obtain ⟨D', hD'⟩ := hd.exact hexponent
    rw [← hD'] at hdouble ⊢
    rw [hdouble.unique (double.roundsTo_quanta D')]

theorem exists_middle (j q : Nat) :
    ∃ P, (double.quanta P : ℚ) = (single.quanta q + single.quanta (q + 1)) * 2 ^ j := by
  obtain ⟨m, hm, t, hq⟩ := single.middle_eq q
  obtain ⟨P, hP⟩ := double.exists_quanta_eq (hm.trans (by decide)) (t + j)
  refine ⟨P, ?_⟩
  rw [Nat.pow_add, ← Nat.mul_assoc, ← hq] at hP
  exact_mod_cast hP

/-- The first rounding does not carry a number across a middle, nor to one. -/
theorem Moderate.sides {y M : ℚ} {q : Nat} (hd : d.Moderate)
    (hj : double.scale = single.scale + 1 + j)
    (hdouble : double.RoundsTo (d.value * 2 ^ double.scale) D)
    (hy : (double.quanta D : ℚ) = 2 * y * 2 ^ j)
    (hM : M = single.quanta q + single.quanta (q + 1)) :
    (M ≤ 2 * (d.value * 2 ^ single.scale) → M ≤ 2 * y) ∧
      (2 * (d.value * 2 ^ single.scale) ≤ M → 2 * y ≤ M) ∧
      (2 * y = M → 2 * (d.value * 2 ^ single.scale) = M) := by
  have hunit : (0 : ℚ) < 2 ^ j := by positivity
  have hx : d.value * 2 ^ double.scale = 2 * (d.value * 2 ^ single.scale) * 2 ^ j := by
    rw [hj, pow_add, pow_add]
    ring
  obtain ⟨P, hP⟩ := exists_middle j q
  rw [← hM] at hP
  have hround := double.roundsTo_quanta P
  rw [hP] at hround
  rw [hx] at hdouble
  refine ⟨fun h => ?_, fun h => ?_, fun h => ?_⟩
  · have hle := hround.mono hdouble (mul_le_mul_of_nonneg_right h hunit.le)
    rw [← double.quanta_strictMono.le_iff_le] at hle
    qify at hle
    rw [hP, hy] at hle
    exact le_of_mul_le_mul_right hle hunit
  · have hle := hdouble.mono hround (mul_le_mul_of_nonneg_right h hunit.le)
    rw [← double.quanta_strictMono.le_iff_le] at hle
    qify at hle
    rw [hP, hy] at hle
    exact le_of_mul_le_mul_right hle hunit
  · rw [← hx] at hdouble
    have heq := hd.eq_middle hj hdouble (p := q) (by rw [hy, h, hM])
    rw [hx, hy, h] at heq
    exact mul_right_cancel₀ hunit.ne' heq

theorem Moderate.convert_eq (hd : d.Moderate) (hp : 0 < p)
    (hsingle : single.RoundsTo (d.value * 2 ^ single.scale) p)
    (hdouble : double.RoundsTo (d.value * 2 ^ double.scale) D)
    (hfinite : p < single.infinity) : double.convert .single D = p := by
  obtain ⟨j, hj⟩ : ∃ j, double.scale = single.scale + 1 + j := ⟨924, by decide⟩
  have hunit : 1 <<< double.scale = 2 ^ double.scale := Nat.one_shiftLeft _
  rw [BinaryFormat.convert, hunit]
  refine BinaryFormat.nearest_eq (by decide) (Nat.two_pow_pos _) ?_ hfinite
  have hy : (double.quanta D : ℚ) =
      2 * (double.quanta D / (2 ^ double.scale : Nat) * 2 ^ single.scale) * 2 ^ j := by
    rw [hj, Nat.pow_add, Nat.pow_add]
    push_cast
    field_simp
  generalize (double.quanta D / (2 ^ double.scale : Nat) * 2 ^ single.scale : ℚ) = y at *
  obtain ⟨p, rfl⟩ := Nat.exists_eq_succ_of_ne_zero hp.ne'
  obtain ⟨hlow, hhigh, heven⟩ := hsingle
  obtain ⟨hbelow, -, hbelow'⟩ := hd.sides hj hdouble hy (q := p) rfl
  obtain ⟨-, habove, habove'⟩ := hd.sides hj hdouble hy (q := p.succ) rfl
  exact ⟨hbelow hlow, habove hhigh, fun h => heven (h.imp hbelow' habove')⟩

end Decimal

end UniqueAccess
