import UniqueAccess.Json.Reader
import UniqueAccess.Number.Literal
import Mathlib.Data.List.Induction
import Mathlib.Tactic.Ring

/-!
# Numerals that are read back

A numeral that has digits where the grammar asks for them, and no leading zeros, is read back from
its text, wherever that text ends (`readNumber_text`). The numerals of integers are such, and they
denote the integers that they were made of.
-/

namespace UniqueAccess

namespace Digit

variable {d : Digit} {ds : List Digit}

@[simp] theorem ofChar?_toChar (d : Digit) : ofChar? d.toChar = some d := by
  revert d
  decide

theorem toChar_ne {c : Char} (h : ofChar? c = none) : d.toChar ≠ c := by
  rintro rfl
  simp at h

theorem scan_map_toChar {rest : List Char} (h : ∀ c ∈ rest.head?, ofChar? c = none) :
    scan (ds.map toChar ++ rest) = (ds, rest) := by
  induction ds with
  | nil =>
    cases rest with
    | nil => rfl
    | cons c rest =>
      have hc : ofChar? c = none := h c rfl
      simp [scan, hc]
  | cons d ds ih => simp [scan, ih]

theorem valueOf_append_singleton : valueOf (ds ++ [d]) = 10 * valueOf ds + d.val := by
  simp [valueOf]

theorem valueOf_append (ds ds' : List Digit) :
    valueOf (ds ++ ds') = valueOf ds * 10 ^ ds'.length + valueOf ds' := by
  induction ds' using List.reverseRecOn with
  | nil => simp [valueOf]
  | append_singleton ds' d ih =>
    rw [← List.append_assoc, valueOf_append_singleton, valueOf_append_singleton, ih,
      List.length_append, List.length_singleton, Nat.pow_succ]
    ring

theorem valueOf_replicate_zero (k : Nat) : valueOf (List.replicate k zero) = 0 := by
  induction k with
  | zero => rfl
  | succ k ih => rw [List.replicate_succ', valueOf_append_singleton, ih]; rfl

theorem valueOf_lt (ds : List Digit) : valueOf ds < 10 ^ ds.length := by
  induction ds using List.reverseRecOn with
  | nil => exact Nat.one_pos
  | append_singleton ds d ih =>
    rw [valueOf_append_singleton, List.length_append, List.length_singleton, Nat.pow_succ]
    have := d.isLt
    omega

@[simp] theorem valueOf_stringOf (n : Nat) : valueOf (stringOf n) = n := by
  induction n using stringOf.induct with
  | case1 n h =>
    rw [stringOf, if_pos h]
    simp [valueOf, Nat.mod_eq_of_lt h]
  | case2 n h ih =>
    rw [stringOf, if_neg h, valueOf_append_singleton, ih]
    simp only [Fin.val_ofNat]
    omega

theorem stringOf_ne_nil (n : Nat) : stringOf n ≠ [] := by
  rw [stringOf]
  split <;> simp

theorem stringOf_zero : stringOf 0 = [zero] := by
  rw [stringOf]
  rfl

theorem eq_nil_of_stringOf {n : Nat} (h : stringOf n = zero :: ds) : n = 0 := by
  induction n using stringOf.induct generalizing ds with
  | case1 n hlt =>
    rw [stringOf, if_pos hlt] at h
    have hzero := congrArg Fin.val (List.cons.inj h).1
    simpa [zero, Nat.mod_eq_of_lt hlt] using hzero
  | case2 n hlt ih =>
    rw [stringOf, if_neg hlt] at h
    cases hinner : stringOf (n / 10) with
    | nil => exact absurd hinner (stringOf_ne_nil _)
    | cons d inner =>
      rw [hinner, List.cons_append] at h
      have hzero := ih (hinner.trans (congrArg (· :: inner) (List.cons.inj h).1))
      omega

end Digit

namespace Numeral

variable {n : Numeral} {rest : List Char}

/-- The grammar of numbers: digits where they are asked for, and no zero before other digits. -/
structure Proper (n : Numeral) : Prop where
  whole : n.whole ≠ []
  leading : ∀ ds, n.whole = Digit.zero :: ds → ds = []
  exponent : ∀ negative ds, n.exponent = some (negative, ds) → ds ≠ []

/-- The text goes on with nothing that could belong to a number. -/
def Ends (rest : List Char) : Prop :=
  ∀ c ∈ rest.head?, Digit.ofChar? c = none ∧ c ≠ '.' ∧ c ≠ 'e' ∧ c ≠ 'E'

-- ---------------------------------------------------------------------------
-- Texts
-- ---------------------------------------------------------------------------

def fractionText (fraction : List Digit) : List Char :=
  if fraction.isEmpty then [] else '.' :: fraction.map Digit.toChar

def exponentText : Option (Bool × List Digit) → List Char
  | none => []
  | some (negative, ds) => 'e' :: (if negative then '-' else '+') :: ds.map Digit.toChar

theorem text_eq (n : Numeral) :
    n.text = (if n.negative then ['-'] else []) ++ (n.whole.map Digit.toChar ++
      (fractionText n.fraction ++ exponentText n.exponent)) := by
  obtain ⟨negative, whole, fraction, exponent⟩ := n
  rw [text, fractionText, List.append_assoc, List.append_assoc]
  cases exponent <;> rfl

theorem readDigits_map {ds : List Digit} (hds : ds ≠ [])
    (h : ∀ c ∈ rest.head?, Digit.ofChar? c = none) :
    Json.readDigits (ds.map Digit.toChar ++ rest) = some (ds, rest) := by
  rw [Json.readDigits, Digit.scan_map_toChar h]
  cases ds with
  | nil => contradiction
  | cons d ds => rfl

theorem readWhole_map (hn : n.Proper) (h : ∀ c ∈ rest.head?, Digit.ofChar? c = none) :
    Json.readWhole (n.whole.map Digit.toChar ++ rest) = some (n.whole, rest) := by
  rw [Json.readWhole, Digit.scan_map_toChar h]
  cases hwhole : n.whole with
  | nil => exact absurd hwhole hn.whole
  | cons d ds =>
    refine if_neg ?_
    rintro ⟨rfl, hds⟩
    exact hds (hn.leading ds hwhole)

theorem readExponent_text {exponent : Option (Bool × List Digit)}
    (hdigits : ∀ negative ds, exponent = some (negative, ds) → ds ≠ []) (h : Ends rest) :
    Json.readExponent (exponentText exponent ++ rest) = some (exponent, rest) := by
  match exponent with
  | none =>
    cases rest with
    | nil => rfl
    | cons c rest =>
      obtain ⟨_, _, he, hE⟩ := h c rfl
      simp [exponentText, Json.readExponent, he, hE]
  | some (negative, ds) =>
    have hread := readDigits_map (hdigits negative ds rfl) fun c hc => (h c hc).1
    cases negative <;>
      simp [exponentText, Json.readExponent, Json.readSignedExponent, Json.readExponentDigits,
        hread]

theorem readFraction_text {fraction : List Digit}
    (h : ∀ c ∈ rest.head?, Digit.ofChar? c = none ∧ c ≠ '.') :
    Json.readFraction (fractionText fraction ++ rest) = some (fraction, rest) := by
  cases fraction with
  | nil =>
    cases rest with
    | nil => rfl
    | cons c rest => simp [fractionText, Json.readFraction, (h c rfl).2]
  | cons d ds => exact readDigits_map (List.cons_ne_nil d ds) fun c hc => (h c hc).1

theorem head?_exponentText {exponent : Option (Bool × List Digit)} (h : Ends rest) :
    ∀ c ∈ (exponentText exponent ++ rest).head?, Digit.ofChar? c = none ∧ c ≠ '.' := by
  match exponent with
  | none => exact fun c hc => ⟨(h c hc).1, (h c hc).2.1⟩
  | some _ =>
    rintro c ⟨⟩
    exact ⟨rfl, by decide⟩

theorem head?_fractionText {fraction : List Digit}
    (h : ∀ c ∈ rest.head?, Digit.ofChar? c = none ∧ c ≠ '.') :
    ∀ c ∈ (fractionText fraction ++ rest).head?, Digit.ofChar? c = none := by
  cases fraction with
  | nil => exact fun c hc => (h c hc).1
  | cons d ds =>
    rintro c ⟨⟩
    rfl

theorem readMagnitude_text (hn : n.Proper) (h : Ends rest) :
    Json.readMagnitude n.negative (n.whole.map Digit.toChar ++
      (fractionText n.fraction ++ (exponentText n.exponent ++ rest))) = some (n, rest) := by
  have hexponent := @head?_exponentText rest n.exponent h
  simp only [Json.readMagnitude, readWhole_map hn (head?_fractionText hexponent),
    readFraction_text hexponent, readExponent_text hn.exponent h, Option.bind_eq_bind,
    Option.bind_some]
  rfl

theorem Proper.text_eq_cons (hn : n.Proper) :
    ∃ c text, n.text = c :: text ∧ (c = '-' ∨ ∃ d : Digit, c = d.toChar) := by
  rw [text_eq]
  cases n.negative with
  | true => exact ⟨_, _, rfl, .inl rfl⟩
  | false =>
    cases hwhole : n.whole with
    | nil => exact absurd hwhole hn.whole
    | cons d ds => exact ⟨_, _, rfl, .inr ⟨d, rfl⟩⟩

theorem readNumber_text (hn : n.Proper) (h : Ends rest) :
    Json.readNumber (n.text ++ rest) = some (n, rest) := by
  have hread := readMagnitude_text hn h
  rw [text_eq]
  cases hnegative : n.negative with
  | true =>
    rw [hnegative] at hread
    simpa [Json.readNumber] using hread
  | false =>
    rw [hnegative] at hread
    cases hwhole : n.whole with
    | nil => exact absurd hwhole hn.whole
    | cons d ds =>
      rw [hwhole] at hread
      have hsign : d.toChar ≠ '-' := Digit.toChar_ne rfl
      simpa [Json.readNumber, hsign] using hread

-- ---------------------------------------------------------------------------
-- Integers
-- ---------------------------------------------------------------------------

theorem proper_of_whole {k : Nat} (hwhole : n.whole = Digit.stringOf k)
    (hexponent : n.exponent = none) : n.Proper where
  whole := hwhole ▸ Digit.stringOf_ne_nil k
  leading ds hds := by
    rw [hwhole] at hds
    obtain rfl := Digit.eq_nil_of_stringOf hds
    rw [Digit.stringOf_zero] at hds
    exact (List.cons.inj hds).2.symm
  exponent negative ds h := by
    rw [hexponent] at h
    cases h

theorem proper_ofNat (k : Nat) : (ofNat k).Proper := proper_of_whole rfl rfl

theorem proper_ofInt (i : Int) : (ofInt i).Proper := by
  cases i with
  | ofNat k => exact proper_ofNat k
  | negSucc k => exact proper_of_whole rfl rfl

theorem integer?_ofNat {k : Nat} (h : k ≤ maxSignificand) : (ofNat k).integer? = some k := by
  simp [integer?, ofNat, h]

theorem integer?_ofInt {i : Int} (hlow : Int64.minValue.toInt ≤ i) (hhigh : i ≤ maxSignificand) :
    (ofInt i).integer? = some i := by
  cases i with
  | ofNat k => exact integer?_ofNat (Int.ofNat_le.mp hhigh)
  | negSucc k =>
    have hfits : 0 < k + 1 ∧ Int64.minValue.toInt ≤ -((k + 1 : Nat) : Int) := ⟨k.succ_pos, hlow⟩
    show (ofInt (.negSucc k)).integer? = some (-((k + 1 : Nat) : Int))
    simp only [integer?, ofInt, List.isEmpty_nil, Option.isNone_none, Bool.and_self, if_true,
      Digit.valueOf_stringOf, if_pos hfits]

end Numeral

end UniqueAccess
