import UniqueAccess.Number.Shortest
import UniqueAccess.Proofs.Number.Binary

/-!
# The shortest decimal rounds to its number

The decimal that `shortest` finds rounds to the pattern that it was made of (`roundsTo_shortest`):
the last grid is finer than the interval of numbers that round to the pattern, so that one of the
two points around the number lies in it.
-/

namespace UniqueAccess

-- ---------------------------------------------------------------------------
-- Powers of ten
-- ---------------------------------------------------------------------------

namespace Digit

theorem tenTo_eq (k : Nat) : tenTo k = 10 ^ k := rfl

theorem tenTo_pos (k : Nat) : 0 < tenTo k := Nat.pow_pos (by decide)

theorem lt_tenTo_count (n : Nat) : n < tenTo (count n) := by
  induction n using count.induct with
  | case1 => exact tenTo_pos _
  | case2 n hn ih =>
    rw [count, if_neg hn, tenTo_eq, Nat.pow_succ, ← tenTo_eq]
    omega

theorem tenTo_le {n : Nat} (hn : n ≠ 0) : tenTo (count n - 1) ≤ n := by
  induction n using count.induct with
  | case1 => exact absurd rfl hn
  | case2 n _ ih =>
    rw [count, if_neg hn, Nat.add_sub_cancel]
    rcases Nat.eq_zero_or_pos (n / 10) with hzero | hpos
    · rw [hzero, count, if_pos rfl]
      exact Nat.pos_of_ne_zero hn
    · have hcount : count (n / 10) = count (n / 10) - 1 + 1 := by
        rw [count, if_neg hpos.ne', Nat.add_sub_cancel]
      have := ih hpos.ne'
      rw [hcount, tenTo_eq, Nat.pow_succ, ← tenTo_eq]
      omega

theorem tenTo_toNat (e : Int) : (tenTo e.toNat : ℚ) = tenTo (-e).toNat * 10 ^ e := by
  rcases e with k | k
  · simp [tenTo_eq]
  · rw [Int.toNat_negSucc, Int.neg_negSucc, zpow_negSucc]
    rw [show (↑(k + 1) : Int).toNat = k + 1 from rfl, tenTo_eq, tenTo_eq]
    push_cast
    field_simp

end Digit

-- ---------------------------------------------------------------------------
-- Decimals
-- ---------------------------------------------------------------------------

namespace Decimal

def value (d : Decimal) : ℚ := d.coefficient * 10 ^ d.exponent

theorem value_nonneg (d : Decimal) : 0 ≤ d.value :=
  mul_nonneg (Nat.cast_nonneg _) (zpow_nonneg (by norm_num) _)

theorem value_normalize (d : Decimal) : d.normalize.value = d.value := by
  induction d using normalize.induct with
  | case1 d h ih =>
    rw [normalize, if_pos h, ih, value, value]
    have hsplit : (d.coefficient : ℚ) = 10 * (d.coefficient / 10 : Nat) := by
      exact_mod_cast (Nat.mul_div_cancel' (Nat.dvd_of_mod_eq_zero h.2)).symm
    rw [hsplit, zpow_add_one₀ (by norm_num)]
    ring
  | case2 d h => rw [normalize, if_neg h]

theorem coefficient_normalize_le (d : Decimal) : d.normalize.coefficient ≤ d.coefficient := by
  induction d using normalize.induct with
  | case1 d h ih =>
    rw [normalize, if_pos h]
    exact Nat.le_trans ih (Nat.div_le_self ..)
  | case2 d h => rw [normalize, if_neg h]

theorem exponent_le_normalize (d : Decimal) : d.exponent ≤ d.normalize.exponent := by
  induction d using normalize.induct with
  | case1 d h ih =>
    rw [normalize, if_pos h]
    exact Int.le_trans (Int.le_add_one le_rfl) ih
  | case2 d h => rw [normalize, if_neg h]

end Decimal

-- ---------------------------------------------------------------------------
-- Grids
-- ---------------------------------------------------------------------------

namespace RoundingInterval

variable {i : RoundingInterval} {tie : TieRule} {c : Nat} {e : Int}

/-- The interval itself, with its ends if it is closed. -/
structure Holds (i : RoundingInterval) (x : ℚ) : Prop where
  low : (i.low : ℚ) ≤ x * i.unit
  high : x * i.unit ≤ i.high
  strict : i.closed = false → (i.low : ℚ) < x * i.unit ∧ x * i.unit < i.high

structure Surrounds (i : RoundingInterval) : Prop where
  low : i.low < i.value
  high : i.value < i.high
  unit : 0 < i.unit

theorem contains_rescale :
    (i.rescale e).contains (c * (i.rescale e).unit) = true ↔ i.Holds (c * 10 ^ e) := by
  have hfactor : (0 : ℚ) < Digit.tenTo (-e).toNat := by exact_mod_cast Digit.tenTo_pos _
  have hpoint : (c * (i.unit * Digit.tenTo e.toNat) : ℚ) =
      c * 10 ^ e * i.unit * Digit.tenTo (-e).toNat := by
    rw [Digit.tenTo_toNat e]
    ring
  rw [contains, rescale]
  cases hclosed : i.closed
  · simp only [Bool.false_eq_true, if_false, Bool.and_eq_true, decide_eq_true_eq]
    qify
    rw [hpoint, mul_lt_mul_iff_left₀ hfactor, mul_lt_mul_iff_left₀ hfactor]
    exact ⟨fun h => ⟨h.1.le, h.2.le, fun _ => h⟩, fun h => h.strict hclosed⟩
  · simp only [if_true, Bool.and_eq_true, decide_eq_true_eq]
    qify
    rw [hpoint, mul_le_mul_iff_left₀ hfactor, mul_le_mul_iff_left₀ hfactor]
    exact ⟨fun h => ⟨h.1, h.2, fun hopen => by simp [hclosed] at hopen⟩, fun h => ⟨h.low, h.high⟩⟩

theorem Surrounds.rescale (h : i.Surrounds) (e : Int) : (i.rescale e).Surrounds where
  low := Nat.mul_lt_mul_of_pos_right h.low (Digit.tenTo_pos _)
  high := Nat.mul_lt_mul_of_pos_right h.high (Digit.tenTo_pos _)
  unit := Nat.mul_pos h.unit (Digit.tenTo_pos _)

theorem contains_of_nearestMultiple? (h : i.nearestMultiple? tie = some c) :
    i.contains (c * i.unit) = true ∧ c ≤ i.value / i.unit + 1 := by
  rw [nearestMultiple?] at h
  split at h
  · next hlower =>
    obtain rfl := Option.some.inj h
    simp only [Bool.and_eq_true] at hlower
    exact ⟨hlower.1, Nat.le_succ _⟩
  · split at h
    · next hupper =>
      obtain rfl := Option.some.inj h
      exact ⟨hupper, le_rfl⟩
    · cases h

/-- A grid without a point in the interval is at least as coarse as the interval is long. -/
theorem high_le_of_nearestMultiple? (hi : i.Surrounds) (h : i.nearestMultiple? tie = none) :
    i.high ≤ i.low + i.unit := by
  have hbelow := Nat.div_mul_le_self i.value i.unit
  have habove : i.value < (i.value / i.unit + 1) * i.unit := by
    rw [Nat.succ_mul, Nat.mul_comm]
    exact Nat.lt_mul_div_succ _ hi.unit
  have hnone : i.contains (i.value / i.unit * i.unit) = false ∧
      i.contains ((i.value / i.unit + 1) * i.unit) = false := by
    rw [nearestMultiple?] at h
    split at h
    · cases h
    · next hlower =>
      split at h
      · cases h
      · next hupper =>
        rw [Bool.not_eq_true] at hupper
        simpa [hupper] using hlower
  obtain ⟨hlow, hhigh⟩ := hi
  rw [Nat.succ_mul] at habove hnone
  simp only [contains] at hnone
  split at hnone
  · simp only [Bool.and_eq_false_iff, decide_eq_false_iff_not] at hnone
    omega
  · simp only [Bool.and_eq_false_iff, decide_eq_false_iff_not] at hnone
    omega

theorem high_le_of_rescale (hi : i.Surrounds) (h : (i.rescale e).nearestMultiple? tie = none) :
    (i.high : ℚ) ≤ i.low + 10 ^ e * i.unit := by
  have hfactor : (0 : ℚ) < Digit.tenTo (-e).toNat := by exact_mod_cast Digit.tenTo_pos _
  have hle := high_le_of_nearestMultiple? (hi.rescale e) h
  simp only [rescale] at hle
  qify at hle
  rw [Digit.tenTo_toNat e] at hle
  rw [← mul_le_mul_iff_left₀ hfactor]
  linarith

/-- The search ends on a grid that is finer than the interval, if there is one. -/
theorem search_eq (hi : i.Surrounds) (tie : TieRule) {fuel : Nat}
    (hfine : (i.low : ℚ) + 10 ^ (e - fuel) * i.unit < i.high) :
    ∃ steps ≤ fuel, ∃ c, i.search tie (fuel + 1) e = ⟨c, e - steps⟩ ∧
      (i.rescale (e - steps)).nearestMultiple? tie = some c := by
  induction fuel generalizing e with
  | zero =>
    cases h : (i.rescale e).nearestMultiple? tie with
    | some c => exact ⟨0, le_rfl, c, by simp [search, h], by simpa using h⟩
    | none =>
      rw [Nat.cast_zero, sub_zero] at hfine
      exact absurd hfine (high_le_of_rescale hi h).not_gt
  | succ fuel ih =>
    cases h : (i.rescale e).nearestMultiple? tie with
    | some c => exact ⟨0, Nat.zero_le _, c, by simp [search, h], by simpa using h⟩
    | none =>
      have hstep : e - (fuel + 1 : Nat) = e - 1 - fuel := by omega
      rw [hstep] at hfine
      obtain ⟨steps, hsteps, c, hsearch, hc⟩ := ih hfine
      have hstep' : e - 1 - steps = e - (steps + 1 : Nat) := by omega
      rw [hstep'] at hsearch hc
      refine ⟨steps + 1, Nat.succ_le_succ hsteps, c, ?_, hc⟩
      rw [search, h]
      exact hsearch

theorem leadingExponent_spec (hi : i.Surrounds) :
    (10 : ℚ) ^ i.leadingExponent * i.unit ≤ i.value ∧
      (i.value : ℚ) < 10 ^ (i.leadingExponent + 1) * i.unit := by
  have hvalue : 0 < i.value := Nat.zero_lt_of_lt hi.low
  rw [leadingExponent]
  split
  · next h =>
    have hne : i.value / i.unit ≠ 0 := (Nat.div_pos h hi.unit).ne'
    have hlow := Digit.tenTo_le hne
    have hhigh := Digit.lt_tenTo_count (i.value / i.unit)
    rw [Nat.le_div_iff_mul_le hi.unit, Digit.tenTo_eq] at hlow
    rw [Nat.div_lt_iff_lt_mul hi.unit, Digit.tenTo_eq] at hhigh
    have hcount : 0 < Digit.count (i.value / i.unit) := by
      rw [Digit.count, if_neg hne]
      exact Nat.succ_pos _
    generalize Digit.count (i.value / i.unit) = k at *
    obtain ⟨k, rfl⟩ := Nat.exists_eq_succ_of_ne_zero hcount.ne'
    rw [Nat.succ_sub_one] at hlow
    rw [Nat.cast_succ, add_sub_cancel_right]
    exact_mod_cast And.intro hlow hhigh
  · next h =>
    have hne : (i.unit - 1) / i.value ≠ 0 := (Nat.div_pos (by omega) hvalue).ne'
    have hlow := Digit.tenTo_le hne
    have hhigh := Digit.lt_tenTo_count ((i.unit - 1) / i.value)
    rw [Nat.le_div_iff_mul_le hvalue, Digit.tenTo_eq] at hlow
    rw [Nat.div_lt_iff_lt_mul hvalue, Digit.tenTo_eq] at hhigh
    have hcount : 0 < Digit.count ((i.unit - 1) / i.value) := by
      rw [Digit.count, if_neg hne]
      exact Nat.succ_pos _
    generalize Digit.count ((i.unit - 1) / i.value) = k at *
    obtain ⟨k, rfl⟩ := Nat.exists_eq_succ_of_ne_zero hcount.ne'
    rw [Nat.succ_sub_one] at hlow
    have hexponent : -((k + 1 : Nat) : Int) + 1 = -k := by omega
    rw [hexponent, zpow_neg, zpow_neg, zpow_natCast, zpow_natCast, inv_mul_le_iff₀ (by positivity),
      lt_inv_mul_iff₀ (by positivity)]
    have hunit := hi.unit
    exact ⟨by exact_mod_cast Nat.le_of_pred_lt hhigh,
      by exact_mod_cast hlow.trans_lt (Nat.sub_lt hunit Nat.one_pos)⟩

end RoundingInterval

-- ---------------------------------------------------------------------------
-- Binary numbers
-- ---------------------------------------------------------------------------

namespace BinaryFormat

variable {f : BinaryFormat} {tie : TieRule} {p : Nat}

theorem quanta_lt_mul (hp : 0 < p) :
    f.quanta p < f.hidden * (f.quanta (p + 1) - f.quanta (p - 1)) := by
  have hpos := f.hidden_pos
  obtain ⟨q, rfl⟩ := Nat.exists_eq_succ_of_ne_zero hp.ne'
  have hgap : f.quanta (q.succ + 1) - f.quanta (q.succ - 1) =
      2 ^ (q / f.hidden - 1) + 2 ^ (q.succ / f.hidden - 1) := by
    rw [f.quanta_succ q.succ, f.quanta_succ q, Nat.succ_sub_one, Nat.add_assoc,
      Nat.add_sub_cancel_left]
  have hlt := Nat.mod_lt q.succ hpos
  have hbelow : 0 < 2 ^ (q / f.hidden - 1) := Nat.two_pow_pos _
  rw [hgap, f.quanta_eq q.succ, Nat.mul_add]
  split
  · next hzero =>
    rw [hzero, Nat.zero_sub, Nat.pow_zero]
    have := Nat.mul_le_mul_left f.hidden hbelow
    omega
  · rw [Nat.add_mul, Nat.add_comm]
    refine Nat.add_lt_add_right ?_ _
    rw [Nat.succ_div]
    split
    · next hdvd =>
      rw [Nat.mod_eq_zero_of_dvd hdvd, Nat.zero_mul]
      exact Nat.mul_pos hpos hbelow
    · exact Nat.mul_lt_mul_of_pos_right hlt hbelow

theorem surrounds_roundingInterval (hp : 0 < p) : (f.roundingInterval p).Surrounds := by
  have hprev : f.quanta (p - 1) < f.quanta p := f.quanta_strictMono (Nat.sub_lt hp Nat.one_pos)
  have hnext : f.quanta p < f.quanta (p + 1) := f.quanta_strictMono (Nat.lt_succ_self p)
  refine ⟨?_, ?_, Nat.lt_of_lt_of_eq (Nat.two_pow_pos (f.scale + 1)) (Nat.one_shiftLeft _).symm⟩
  · simp only [roundingInterval]
    omega
  · simp only [roundingInterval]
    omega

theorem roundsTo_of_holds {x : ℚ} (h : (f.roundingInterval p).Holds x) :
    f.RoundsTo (x * 2 ^ f.scale) p := by
  obtain ⟨hlow, hhigh, hstrict⟩ := h
  simp only [roundingInterval, Nat.one_shiftLeft] at hlow hhigh hstrict
  push_cast at hlow hhigh hstrict
  have htwice : x * 2 ^ (f.scale + 1) = 2 * (x * 2 ^ f.scale) := by ring
  rw [htwice] at hlow hhigh hstrict
  refine ⟨hlow, hhigh, fun htie => ?_⟩
  by_contra hodd
  have hopen := hstrict (by simpa using hodd)
  rcases htie with htie | htie
  · exact absurd htie hopen.1.ne'
  · exact absurd htie hopen.2.ne

theorem enoughDigits_spec (hp : 0 < p) :
    ((f.roundingInterval p).low : ℚ) +
      10 ^ ((f.roundingInterval p).leadingExponent - (f.enoughDigits - 1 : Nat)) *
        (f.roundingInterval p).unit < (f.roundingInterval p).high := by
  have hlead := (RoundingInterval.leadingExponent_spec (surrounds_roundingInterval (f := f) hp)).1
  have hgap := f.quanta_lt_mul hp
  have hcount := Digit.lt_tenTo_count (1 <<< (f.fractionBits + 1))
  rw [Nat.one_shiftLeft, Nat.pow_succ', Digit.tenTo_eq] at hcount
  have hgrid : (10 : ℚ) ^ ((f.roundingInterval p).leadingExponent - (f.enoughDigits - 1 : Nat)) *
      (f.roundingInterval p).unit < (f.quanta (p + 1) - f.quanta (p - 1) : Nat) := by
    rw [enoughDigits, Nat.add_sub_cancel, Nat.one_shiftLeft, Nat.pow_succ']
    generalize Digit.count (2 * 2 ^ f.fractionBits) = k at *
    rw [zpow_sub₀ (by norm_num), zpow_natCast, div_mul_eq_mul_div, div_lt_iff₀ (by positivity)]
    refine hlead.trans_lt ?_
    have hlt : 2 * f.quanta p < (f.quanta (p + 1) - f.quanta (p - 1)) * 10 ^ k :=
      calc 2 * f.quanta p
          < 2 * (f.hidden * (f.quanta (p + 1) - f.quanta (p - 1))) := by omega
        _ = 2 * 2 ^ f.fractionBits * (f.quanta (p + 1) - f.quanta (p - 1)) := by
            rw [hidden, Nat.mul_assoc]
        _ ≤ (f.quanta (p + 1) - f.quanta (p - 1)) * 10 ^ k := by
            rw [Nat.mul_comm]
            exact Nat.mul_le_mul_left _ hcount.le
    exact_mod_cast hlt
  have hle : f.quanta (p - 1) ≤ f.quanta (p + 1) := f.quanta_strictMono.monotone (by omega)
  push_cast [hle] at hgrid
  simp only [roundingInterval] at hgrid ⊢
  push_cast
  linarith

theorem shortest_eq (hp : 0 < p) (tie : TieRule) :
    ∃ steps < f.enoughDigits, ∃ c,
      f.shortest tie p =
        (Decimal.mk c ((f.roundingInterval p).leadingExponent - steps)).normalize ∧
      ((f.roundingInterval p).rescale
        ((f.roundingInterval p).leadingExponent - steps)).nearestMultiple? tie = some c := by
  have hi := surrounds_roundingInterval (f := f) hp
  obtain ⟨steps, hsteps, c, hsearch, hc⟩ :=
    RoundingInterval.search_eq hi tie (enoughDigits_spec hp)
  refine ⟨steps, Nat.lt_succ_of_le hsteps, c, ?_, hc⟩
  rw [shortest, ← hsearch]
  rfl

theorem roundsTo_shortest (hp : 0 < p) (tie : TieRule) :
    f.RoundsTo ((f.shortest tie p).value * 2 ^ f.scale) p := by
  obtain ⟨steps, -, c, hshortest, hc⟩ := f.shortest_eq hp tie
  have hcontains := (RoundingInterval.contains_of_nearestMultiple? hc).1
  rw [hshortest, Decimal.value_normalize]
  exact roundsTo_of_holds (RoundingInterval.contains_rescale.mp hcontains)

theorem coefficient_shortest_pos (hp : 0 < p) (tie : TieRule) :
    0 < (f.shortest tie p).coefficient := by
  have hlow := (roundsTo_shortest (f := f) hp tie).low
  have hpos : (0 : ℚ) < f.quanta p := by exact_mod_cast quanta_pos hp
  by_contra hzero
  rw [Decimal.value, Nat.eq_zero_of_not_pos hzero, Nat.cast_zero, zero_mul, zero_mul] at hlow
  have : (0 : ℚ) ≤ f.quanta (p - 1) := Nat.cast_nonneg _
  linarith

theorem coefficient_shortest_le (hp : 0 < p) (tie : TieRule) :
    (f.shortest tie p).coefficient ≤ 10 ^ f.enoughDigits := by
  obtain ⟨steps, hsteps, c, hshortest, hc⟩ := f.shortest_eq hp tie
  have hi := surrounds_roundingInterval (f := f) hp
  have hlead := (RoundingInterval.leadingExponent_spec hi).2
  have hle := (RoundingInterval.contains_of_nearestMultiple? hc).2
  rw [hshortest]
  refine (Decimal.coefficient_normalize_le _).trans (hle.trans ?_)
  generalize f.roundingInterval p = i at *
  have hfactor : (0 : ℚ) < Digit.tenTo (-(i.leadingExponent - steps)).toNat := by
    exact_mod_cast Digit.tenTo_pos _
  have hlt : (i.rescale (i.leadingExponent - steps)).value <
      10 ^ (steps + 1) * (i.rescale (i.leadingExponent - steps)).unit := by
    simp only [RoundingInterval.rescale]
    qify
    rw [Digit.tenTo_toNat (i.leadingExponent - steps)]
    refine (mul_lt_mul_of_pos_right hlead hfactor).trans_eq ?_
    rw [zpow_sub₀ (by norm_num), zpow_add_one₀ (by norm_num), zpow_natCast]
    field_simp
    ring
  refine Nat.succ_le_of_lt ((Nat.div_lt_of_lt_mul ?_).trans_le
    (Nat.pow_le_pow_right (by decide) hsteps))
  rwa [Nat.mul_comm]

theorem le_exponent_shortest (hp : 0 < p) (tie : TieRule) :
    (f.roundingInterval p).leadingExponent - f.enoughDigits < (f.shortest tie p).exponent := by
  obtain ⟨steps, hsteps, c, hshortest, -⟩ := f.shortest_eq hp tie
  rw [hshortest]
  refine lt_of_lt_of_le ?_ (Decimal.exponent_le_normalize _)
  dsimp only
  omega

end BinaryFormat

end UniqueAccess
