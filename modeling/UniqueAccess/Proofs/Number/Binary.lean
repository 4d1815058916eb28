import UniqueAccess.Number.Binary
import Mathlib.Algebra.Order.Field.Rat
import Mathlib.Tactic.FieldSimp
import Mathlib.Tactic.Linarith
import Mathlib.Tactic.LinearCombination
import Mathlib.Tactic.Positivity
import Mathlib.Tactic.Qify
import Mathlib.Tactic.Ring

/-!
# Rounding to binary numbers

A number rounds to a pattern if it lies between the middles to the neighbours of the pattern, and
on a middle only if the pattern is even. Each number rounds to one pattern at most
(`RoundsTo.unique`), and `nearestQuanta` finds it (`RoundsTo.nearestQuanta_eq`).
-/

namespace UniqueAccess

-- ---------------------------------------------------------------------------
-- Quotients
-- ---------------------------------------------------------------------------

/-- `s` is the integer nearest to `x`; of two, the even one. -/
structure IsNearestEven (x : ℚ) (s : Nat) : Prop where
  low : (2 * s : ℚ) ≤ 2 * x + 1
  high : 2 * x ≤ 2 * s + 1
  even : (2 * s : ℚ) = 2 * x + 1 ∨ 2 * x = 2 * s + 1 → s % 2 = 0

theorem isNearestEven_divNearestEven (num : Nat) {den : Nat} (hden : 0 < den) :
    IsNearestEven (num / den) (divNearestEven num den) := by
  have hcounted : 2 * (divNearestEven num den * den) ≤ 2 * num + den ∧
      2 * num ≤ 2 * (divNearestEven num den * den) + den ∧
      (2 * (divNearestEven num den * den) = 2 * num + den ∨
        2 * num = 2 * (divNearestEven num den * den) + den → divNearestEven num den % 2 = 0) := by
    have hsplit : num = num / den * den + num % den := (Nat.div_add_mod' num den).symm
    have hlt := Nat.mod_lt num hden
    rw [divNearestEven]
    generalize num / den = quotient at *
    generalize num % den = remainder at *
    split
    · omega
    · have hnext : (quotient + 1) * den = quotient * den + den := Nat.succ_mul ..
      omega
  obtain ⟨hlow, hhigh, heven⟩ := hcounted
  generalize divNearestEven num den = s at *
  have hden' : (0 : ℚ) < den := by exact_mod_cast hden
  have hx : (num / den : ℚ) * den = num := div_mul_cancel₀ _ hden'.ne'
  generalize (num / den : ℚ) = x at *
  qify [← hx] at hlow hhigh
  refine ⟨?_, ?_, fun h => heven (h.imp (fun h => ?_) fun h => ?_)⟩
  · rw [← mul_le_mul_iff_left₀ hden']
    linarith
  · rw [← mul_le_mul_iff_left₀ hden']
    linarith
  · qify [← hx]
    linear_combination den * h
  · qify [← hx]
    linear_combination den * h

namespace BinaryFormat

variable {f : BinaryFormat} {p p' : Nat} {x : ℚ}

-- ---------------------------------------------------------------------------
-- Patterns
-- ---------------------------------------------------------------------------

/-- The significands of numbers with a positive exponent field start here. -/
def hidden (f : BinaryFormat) : Nat := 2 ^ f.fractionBits

theorem hidden_pos : 0 < f.hidden := Nat.two_pow_pos _

theorem quanta_eq (p : Nat) :
    f.quanta p =
      if p / f.hidden = 0 then p % f.hidden
      else (f.hidden + p % f.hidden) * 2 ^ (p / f.hidden - 1) := by
  rw [quanta, Nat.one_shiftLeft]
  simp only [Nat.shiftLeft_eq]
  rfl

/-- The patterns whose distance to their predecessor is at least `2 ^ e`, up to the first power of
two after them. -/
theorem quanta_add {e s : Nat} (hlow : e = 0 ∨ f.hidden ≤ s) (hhigh : s ≤ 2 * f.hidden) :
    f.quanta (e * f.hidden + s) = s * 2 ^ e := by
  have hpos := f.hidden_pos
  rw [quanta_eq, Nat.mul_comm e, Nat.mul_add_mod, Nat.mul_add_div hpos]
  rcases Nat.lt_or_ge s f.hidden with hs | hs
  · simp [hlow.resolve_right (by omega), Nat.div_eq_of_lt hs, Nat.mod_eq_of_lt hs]
  · rcases Nat.lt_or_ge s (2 * f.hidden) with hs' | hs'
    · have hdiv : s / f.hidden = 1 := Nat.div_eq_of_lt_le (by omega) (by omega)
      have hmod : s % f.hidden = s - f.hidden := by
        rw [Nat.mod_eq_sub_mod hs, Nat.mod_eq_of_lt (by omega)]
      rw [hdiv, hmod, if_neg (by omega), Nat.add_sub_cancel' hs, Nat.add_sub_cancel]
    · obtain rfl : s = 2 * f.hidden := by omega
      rw [Nat.mul_div_cancel _ hpos, Nat.mul_mod_left, if_neg (by omega)]
      rw [Nat.add_zero, show e + 2 - 1 = e + 1 from rfl, Nat.pow_succ]
      ring

theorem quanta_small (h : p ≤ 2 * f.hidden) : f.quanta p = p := by
  simpa using quanta_add (f := f) (e := 0) (.inl rfl) h

theorem exists_significand (f : BinaryFormat) (p : Nat) :
    ∃ s < 2 * f.hidden, (p / f.hidden - 1 = 0 ∨ f.hidden ≤ s) ∧
      p = (p / f.hidden - 1) * f.hidden + s := by
  have hpos := f.hidden_pos
  have hlt := Nat.mod_lt p hpos
  have hsplit := Nat.div_add_mod' p f.hidden
  rcases Nat.eq_zero_or_pos (p / f.hidden) with hzero | hdiv
  · exact ⟨p % f.hidden, by omega, by simp [hzero], by simpa [hzero] using hsplit.symm⟩
  · obtain ⟨e, he⟩ := Nat.exists_eq_succ_of_ne_zero hdiv.ne'
    rw [he, Nat.succ_mul] at hsplit
    refine ⟨f.hidden + p % f.hidden, by omega, .inr (Nat.le_add_right ..), ?_⟩
    rw [he, Nat.succ_sub_one]
    omega

theorem quanta_succ (p : Nat) : f.quanta (p + 1) = f.quanta p + 2 ^ (p / f.hidden - 1) := by
  obtain ⟨s, hs, hlow, hp⟩ := f.exists_significand p
  generalize p / f.hidden - 1 = e at *
  rw [hp, Nat.add_assoc, quanta_add hlow hs.le, quanta_add (hlow.imp_right Nat.le_succ_of_le) hs,
    Nat.succ_mul]

theorem quanta_strictMono : StrictMono f.quanta :=
  strictMono_nat_of_lt_succ fun p => by
    rw [quanta_succ]
    exact Nat.lt_add_of_pos_right (Nat.two_pow_pos _)

theorem quanta_zero : f.quanta 0 = 0 := by simp [quanta]

theorem quanta_pos (h : 0 < p) : 0 < f.quanta p := by
  simpa [quanta_zero] using f.quanta_strictMono h

theorem exists_quanta_eq {m : Nat} (hm : m < 2 * f.hidden) (j : Nat) :
    ∃ p, f.quanta p = m * 2 ^ j := by
  induction j with
  | zero => exact ⟨m, by simpa using quanta_small hm.le⟩
  | succ j ih =>
    obtain ⟨p, hp⟩ := ih
    obtain ⟨s, hs, hlow, hsplit⟩ := f.exists_significand p
    generalize p / f.hidden - 1 = e at *
    rw [hsplit, quanta_add hlow hs.le] at hp
    rcases Nat.lt_or_ge s f.hidden with hsmall | hlarge
    · obtain rfl : e = 0 := hlow.resolve_right (by omega)
      refine ⟨2 * s, ?_⟩
      rw [quanta_small (by omega), Nat.pow_succ, ← Nat.mul_assoc, ← hp]
      ring
    · refine ⟨(e + 1) * f.hidden + s, ?_⟩
      rw [quanta_add (.inr hlarge) hs.le, Nat.pow_succ, Nat.pow_succ, ← Nat.mul_assoc,
        ← Nat.mul_assoc, hp]

-- ---------------------------------------------------------------------------
-- Rounding
-- ---------------------------------------------------------------------------

/-- `x`, a number of quanta, lies between the middles to the neighbours of `p`, and on a middle only
if `p` is even. Zero counts as its own predecessor. -/
structure RoundsTo (f : BinaryFormat) (x : ℚ) (p : Nat) : Prop where
  low : (f.quanta (p - 1) + f.quanta p : ℚ) ≤ 2 * x
  high : 2 * x ≤ f.quanta p + f.quanta (p + 1)
  even : 2 * x = f.quanta (p - 1) + f.quanta p ∨ 2 * x = f.quanta p + f.quanta (p + 1) → p % 2 = 0

theorem RoundsTo.mono {y : ℚ} (h : f.RoundsTo x p) (h' : f.RoundsTo y p') (hxy : x ≤ y) :
    p ≤ p' := by
  by_contra hlt
  have hthis : f.quanta p' ≤ f.quanta (p - 1) := f.quanta_strictMono.monotone (by omega)
  have hnext : f.quanta (p' + 1) ≤ f.quanta p := f.quanta_strictMono.monotone (by omega)
  have hhigh := h'.high
  have hlow := h.low
  qify at hthis hnext
  -- both lie on one middle, so that the patterns are neighbours and both are even
  have heven := h.even (.inl (by linarith))
  have heven' := h'.even (.inr (by linarith))
  have hsame : f.quanta p' = f.quanta (p - 1) := by
    qify
    linarith
  have hpred := f.quanta_strictMono.injective hsame
  omega

theorem RoundsTo.unique (h : f.RoundsTo x p) (h' : f.RoundsTo x p') : p = p' :=
  Nat.le_antisymm (h.mono h' le_rfl) (h'.mono h le_rfl)

theorem roundsTo_quanta (f : BinaryFormat) (p : Nat) : f.RoundsTo (f.quanta p) p := by
  have hnext : f.quanta p < f.quanta (p + 1) := f.quanta_strictMono (Nat.lt_succ_self p)
  have hprev : f.quanta (p - 1) ≤ f.quanta p := f.quanta_strictMono.monotone (Nat.sub_le p 1)
  qify at hnext hprev
  refine ⟨by linarith, by linarith, ?_⟩
  rintro (h | h)
  · have hsame : f.quanta p = f.quanta (p - 1) := by
      qify
      linarith
    have := f.quanta_strictMono.injective hsame
    omega
  · linarith

/-- What `nearestQuanta` finds before it is cut off at infinity. -/
def unboundedQuanta (f : BinaryFormat) (num den : Nat) : Nat :=
  let exponent := Nat.log2 (num / den) - f.fractionBits
  exponent * f.hidden + divNearestEven num (den * 2 ^ exponent)

theorem nearestQuanta_eq (f : BinaryFormat) (num den : Nat) :
    f.nearestQuanta num den = min (f.unboundedQuanta num den) f.infinity := by
  simp only [nearestQuanta, unboundedQuanta, Nat.shiftLeft_eq, hidden]

theorem le_quanta_succ {e s : Nat} (hlow : e = 0 ∨ f.hidden ≤ s) (hs : s ≤ 2 * f.hidden) :
    s * 2 ^ e + 2 ^ e ≤ f.quanta (e * f.hidden + s + 1) := by
  rw [quanta_succ, quanta_add hlow hs]
  refine Nat.add_le_add_left (Nat.pow_le_pow_right (by decide) ?_) _
  rcases hlow with rfl | hlow
  · exact Nat.zero_le _
  · refine Nat.le_sub_one_of_lt ((Nat.le_div_iff_mul_le f.hidden_pos).mpr ?_)
    rw [Nat.succ_mul]
    omega

/-- The distance to the predecessor is `2 ^ e` too, except at the powers of two. -/
theorem quanta_pred {e s : Nat} (hlow : e = 0 ∨ f.hidden ≤ s) (hs : s ≤ 2 * f.hidden)
    (hpos : 0 < s) (hpower : e = 0 ∨ s ≠ f.hidden) :
    f.quanta (e * f.hidden + s - 1) + 2 ^ e = s * 2 ^ e := by
  obtain ⟨s, rfl⟩ := Nat.exists_eq_succ_of_ne_zero hpos.ne'
  rw [Nat.add_succ_sub_one, quanta_add (by omega) (by omega), Nat.succ_mul]

/-- Rounding to multiples of `2 ^ e`, for numbers of the size where these are the numbers of the
format. -/
theorem roundsTo_of_isNearestEven {e s : Nat} (hf : 0 < f.fractionBits) (h : IsNearestEven x s)
    (hx : 0 ≤ x) (hlow : e = 0 ∨ (f.hidden : ℚ) ≤ x) (hhigh : x < 2 * f.hidden) :
    f.RoundsTo (x * 2 ^ e) (e * f.hidden + s) := by
  have hpos := f.hidden_pos
  have hunit : (0 : ℚ) < 2 ^ e := by positivity
  have hs : s ≤ 2 * f.hidden := by
    have hlt : (2 * s : ℚ) < 4 * f.hidden + 1 := by linarith [h.low]
    norm_cast at hlt
    omega
  have hs' : e = 0 ∨ f.hidden ≤ s := by
    refine hlow.imp_right fun hlow => ?_
    have hle : (2 * f.hidden : ℚ) ≤ 2 * s + 1 := by linarith [h.high]
    norm_cast at hle
    omega
  have heven : s % 2 = 0 → (e * f.hidden + s) % 2 = 0 := by
    intro hs
    have hhidden : f.hidden % 2 = 0 := by
      obtain ⟨k, hk⟩ := Nat.exists_eq_succ_of_ne_zero hf.ne'
      rw [hidden, hk, Nat.pow_succ, Nat.mul_mod_left]
    simp [Nat.add_mod, Nat.mul_mod, hhidden, hs]
  have hthis : (f.quanta (e * f.hidden + s) : ℚ) = s * 2 ^ e := by
    exact_mod_cast quanta_add hs' hs
  have hnext : (s * 2 ^ e + 2 ^ e : ℚ) ≤ f.quanta (e * f.hidden + s + 1) := by
    exact_mod_cast le_quanta_succ hs' hs
  have hmiddle : x * 2 ^ e ≤ s * 2 ^ e + 2 ^ e / 2 := by
    linarith [mul_le_mul_of_nonneg_right h.high hunit.le]
  have hmiddle' : s * 2 ^ e - 2 ^ e / 2 ≤ x * 2 ^ e := by
    linarith [mul_le_mul_of_nonneg_right h.low hunit.le]
  have habove : 2 * (x * 2 ^ e) = s * 2 ^ e + f.quanta (e * f.hidden + s + 1) →
      (e * f.hidden + s) % 2 = 0 := fun htie =>
    heven (h.even (.inr (mul_right_cancel₀ hunit.ne' (by linarith))))
  by_cases hregular : 0 < s ∧ (e = 0 ∨ s ≠ f.hidden)
  · have hprev : (f.quanta (e * f.hidden + s - 1) : ℚ) + 2 ^ e = s * 2 ^ e := by
      exact_mod_cast quanta_pred hs' hs hregular.1 hregular.2
    rw [← eq_sub_iff_add_eq] at hprev
    refine ⟨?_, ?_, ?_⟩ <;> rw [hthis]
    · linarith
    · linarith
    · rintro (htie | htie)
      · refine heven (h.even (.inl (mul_right_cancel₀ hunit.ne' ?_)))
        linarith
      · exact habove htie
  · rcases Nat.eq_zero_or_pos s with rfl | hpos
    · obtain rfl : e = 0 := by omega
      refine ⟨?_, by rw [hthis]; linarith, fun _ => by simp⟩
      simpa [quanta_zero] using hx
    · -- at a power of two the number is not below the pattern
      obtain ⟨he, rfl⟩ : e ≠ 0 ∧ s = f.hidden := by omega
      have hprev : (f.quanta (e * f.hidden + f.hidden - 1) : ℚ) < f.hidden * 2 ^ e := by
        rw [← hthis]
        exact_mod_cast f.quanta_strictMono (Nat.sub_lt (by omega) Nat.one_pos)
      have hle : (f.hidden * 2 ^ e : ℚ) ≤ x * 2 ^ e :=
        mul_le_mul_of_nonneg_right (hlow.resolve_left he) hunit.le
      refine ⟨?_, ?_, ?_⟩ <;> rw [hthis]
      · linarith
      · linarith
      · rintro (htie | htie)
        · linarith
        · exact habove htie

theorem roundsTo_unboundedQuanta (hf : 0 < f.fractionBits) {den : Nat} (hden : 0 < den)
    (num : Nat) : f.RoundsTo (num / den) (f.unboundedQuanta num den) := by
  have hden' : (0 : ℚ) < den := by exact_mod_cast hden
  rw [unboundedQuanta]
  have hlower : num / den ≠ 0 → 2 ^ Nat.log2 (num / den) * den ≤ num := fun hne =>
    (Nat.le_div_iff_mul_le hden).mp (Nat.log2_self_le hne)
  have hupper : num < 2 ^ (Nat.log2 (num / den) + 1) * den :=
    (Nat.div_lt_iff_lt_mul hden).mp Nat.lt_log2_self
  have hzero : Nat.log2 (num / den) ≠ 0 → num / den ≠ 0 := by
    rintro hlog hzero
    rw [hzero] at hlog
    exact hlog Nat.log2_zero
  generalize Nat.log2 (num / den) = l at *
  have hround := isNearestEven_divNearestEven num
    (Nat.mul_pos hden (Nat.two_pow_pos (l - f.fractionBits)))
  have hvalue : (num / den : ℚ) =
      num / (den * 2 ^ (l - f.fractionBits) : Nat) * 2 ^ (l - f.fractionBits) := by
    push_cast
    field_simp
  rw [hvalue]
  refine roundsTo_of_isNearestEven hf hround (by positivity) ?_ ?_
  · rcases Nat.eq_zero_or_pos (l - f.fractionBits) with he | he
    · exact .inl he
    · refine .inr ((le_div_iff₀ (by positivity)).mpr (mod_cast ?_))
      have hnum := hlower (hzero (by omega))
      calc f.hidden * (den * 2 ^ (l - f.fractionBits))
          = 2 ^ (l - f.fractionBits + f.fractionBits) * den := by
            rw [hidden, Nat.pow_add]
            ring
        _ ≤ num := by rwa [Nat.sub_add_cancel (by omega)]
  · refine (div_lt_iff₀ (by positivity)).mpr (mod_cast hupper.trans_le ?_)
    calc 2 ^ (l + 1) * den
        ≤ 2 ^ (l - f.fractionBits + f.fractionBits + 1) * den :=
          Nat.mul_le_mul_right _ (Nat.pow_le_pow_right (by decide) (by omega))
      _ = 2 * f.hidden * (den * 2 ^ (l - f.fractionBits)) := by
          rw [hidden, Nat.pow_succ, Nat.pow_add]
          ring

theorem exists_roundsTo (hf : 0 < f.fractionBits) (hx : 0 ≤ x) : ∃ p, f.RoundsTo x p := by
  have hround := roundsTo_unboundedQuanta hf x.den_pos x.num.toNat
  have hnum : ((x.num.toNat : ℕ) : ℚ) = x.num := by
    exact_mod_cast Int.toNat_of_nonneg (Rat.num_nonneg.mpr hx)
  rw [hnum, Rat.num_div_den] at hround
  exact ⟨_, hround⟩

theorem RoundsTo.nearestQuanta_eq (hf : 0 < f.fractionBits) {num den : Nat} (hden : 0 < den)
    (h : f.RoundsTo (num / den) p) (hp : p < f.infinity) : f.nearestQuanta num den = p := by
  rw [BinaryFormat.nearestQuanta_eq, ← h.unique (roundsTo_unboundedQuanta hf hden num)]
  exact Nat.min_eq_left hp.le

theorem nearest_eq (hf : 0 < f.fractionBits) {num den : Nat} (hden : 0 < den)
    (h : f.RoundsTo (num / den * 2 ^ f.scale) p) (hp : p < f.infinity) :
    f.nearest num den = p := by
  refine RoundsTo.nearestQuanta_eq hf hden ?_ hp
  rw [Nat.shiftLeft_eq]
  push_cast
  rwa [mul_div_right_comm]

theorem quanta_nearest (hf : 0 < f.fractionBits) {m j : Nat} (hm : m < 2 * f.hidden)
    (hlt : m * 2 ^ j * 2 ^ f.scale < f.quanta f.infinity) :
    f.quanta (f.nearest (m * 2 ^ j) 1) = m * 2 ^ j * 2 ^ f.scale := by
  obtain ⟨p, hp⟩ := f.exists_quanta_eq hm (j + f.scale)
  rw [Nat.pow_add, ← Nat.mul_assoc] at hp
  have hfinite : p < f.infinity := f.quanta_strictMono.lt_iff_lt.mp (hp.trans_lt hlt)
  have hround := f.roundsTo_quanta p
  rw [hp] at hround
  rw [nearest_eq hf Nat.one_pos (p := p) _ hfinite, hp]
  rw [Nat.cast_one, div_one]
  exact_mod_cast hround

end BinaryFormat

end UniqueAccess
