import UniqueAccess.Proofs.Number.Numeral
import UniqueAccess.Proofs.Number.Shortest

/-!
# Numerals that are read exactly

A numeral is read without an error if its digits make a short significand and its exponent is small:
then the significand and the power of ten are numbers of the format, and the only rounding is that
of their product or quotient (`staged?_eq`).
-/

namespace UniqueAccess

namespace Numeral

open BinaryFormat (double)

variable {n : Numeral}

/-- The digits of a numeral, read across the decimal point. -/
def significand (n : Numeral) : Nat := Digit.valueOf (n.whole ++ n.fraction)

def lastExponent (n : Numeral) : Int := n.writtenExponent - n.fraction.length

def magnitude (n : Numeral) : ℚ := n.significand * 10 ^ n.lastExponent

structure Short (n : Numeral) : Prop where
  significand : n.significand < 2 ^ 53
  low : -22 ≤ n.lastExponent
  high : n.lastExponent ≤ 22

instance (n : Numeral) : Decidable n.Short :=
  decidable_of_iff (n.significand < 2 ^ 53 ∧ -22 ≤ n.lastExponent ∧ n.lastExponent ≤ 22)
    ⟨fun ⟨h, hlow, hhigh⟩ => ⟨h, hlow, hhigh⟩, fun h => ⟨h.significand, h.low, h.high⟩⟩

theorem le_foldl (ds : List Digit) (k : Nat) : k ≤ ds.foldl (fun n d => 10 * n + d.val) k := by
  induction ds generalizing k with
  | nil => exact le_rfl
  | cons d ds ih => exact Nat.le_trans (show k ≤ 10 * k + d.val by omega) (ih _)

theorem absorb_eq {ds : List Digit} {k : Nat}
    (h : ds.foldl (fun n d => 10 * n + d.val) k ≤ maxSignificand) :
    absorb k ds = (ds.foldl (fun n d => 10 * n + d.val) k, []) := by
  induction ds generalizing k with
  | nil => rfl
  | cons d ds ih =>
    have hfits := (le_foldl ds (10 * k + d.val)).trans h
    rw [absorb, Nat.mul_comm k, if_pos hfits, ih h, List.foldl_cons]

theorem quanta_powerOfTen {k : Nat} (hk : k ≤ 22) :
    double.quanta (powerOfTen k) = 10 ^ k * 2 ^ double.scale := by
  have hsplit : 10 ^ k = 5 ^ k * 2 ^ k := by rw [← Nat.mul_pow]
  have hfive : 5 ^ k < 2 * double.hidden :=
    (Nat.pow_le_pow_right (by decide) hk).trans_lt (by decide)
  rw [powerOfTen, Digit.tenTo_eq, hsplit]
  refine BinaryFormat.quanta_nearest (by decide) hfive ?_
  rw [← hsplit]
  exact (Nat.mul_le_mul_right _ (Nat.pow_le_pow_right (by decide) hk)).trans_lt (by decide +kernel)

theorem scaled?_eq {significand D : Nat} {exponent : Int} (hsignificand : significand < 2 ^ 53)
    (hlow : -22 ≤ exponent) (hhigh : exponent ≤ 22)
    (hround : double.RoundsTo
      (significand * 10 ^ exponent * 2 ^ double.scale) D)
    (hfinite : D < double.infinity) : scaled? significand exponent = some D := by
  have hexact : double.quanta (double.nearest significand 1) =
      significand * 2 ^ double.scale := by
    have hlt : significand * 2 ^ 0 * 2 ^ double.scale <
        double.quanta double.infinity := by
      rw [Nat.pow_zero, Nat.mul_one]
      exact (Nat.mul_le_mul_right _ hsignificand.le).trans_lt (by decide +kernel)
    simpa using BinaryFormat.quanta_nearest (f := .double) (by decide) hsignificand hlt
  rw [scaled?]
  split
  · next hneg =>
    obtain ⟨k, rfl⟩ : ∃ k : Nat, exponent = -k := ⟨(-exponent).toNat, by omega⟩
    have hk : k ≤ 22 := by omega
    rw [neg_neg, Int.toNat_natCast, scaleDown, if_pos (hk.trans (by decide))]
    refine congrArg some (BinaryFormat.nearest_eq (by decide) ?_ ?_ hfinite)
    · rw [quanta_powerOfTen hk]
      positivity
    · rw [hexact, quanta_powerOfTen hk]
      rw [zpow_neg, zpow_natCast] at hround
      convert hround using 1
      push_cast
      field_simp
  · next hpos =>
    obtain ⟨k, rfl⟩ : ∃ k : Nat, exponent = k := ⟨exponent.toNat, by omega⟩
    have hk : k ≤ 22 := by omega
    have hproduct : double.mul (double.nearest significand 1)
        (powerOfTen k) = D := by
      rw [BinaryFormat.mul, hexact, quanta_powerOfTen hk, Nat.one_shiftLeft]
      refine BinaryFormat.RoundsTo.nearestQuanta_eq (by decide) (Nat.two_pow_pos _) ?_ hfinite
      rw [zpow_natCast] at hround
      convert hround using 1
      push_cast
      field_simp
    rw [Int.toNat_natCast, scaleUp?, if_pos (hk.trans (by decide))]
    dsimp only
    rw [hproduct, if_neg hfinite.ne]

theorem staged?_eq {D : Nat} (hn : n.Short)
    (hround : double.RoundsTo (n.magnitude * 2 ^ double.scale) D)
    (hfinite : D < double.infinity) : n.staged? = some ⟨n.negative, D⟩ := by
  have hfits : n.significand ≤ maxSignificand := hn.significand.le.trans (by decide)
  rw [significand, Digit.valueOf, List.foldl_append] at hfits
  have hwhole : absorb 0 n.whole = (_, []) := absorb_eq ((le_foldl ..).trans hfits)
  have hfraction := absorb_eq hfits
  have hexponent :
      (([] : List Digit).length : Int) - (n.fraction.length - ([] : List Digit).length) +
        n.writtenExponent = n.lastExponent := by
    rw [lastExponent]
    simp
    omega
  have hscaled := scaled?_eq hn.significand hn.low hn.high hround hfinite
  rw [significand, Digit.valueOf, List.foldl_append] at hscaled
  simp only [staged?, hwhole, hfraction, hexponent, hscaled, Option.map_some]

end Numeral

end UniqueAccess
