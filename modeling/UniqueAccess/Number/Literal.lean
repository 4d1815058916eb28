import UniqueAccess.Number.Binary
import UniqueAccess.Number.Digits

/-!
# The numbers that numerals denote

An integer has neither point nor exponent and fits in 64 bits, signed if it is negative; `-0` is
not one. Every other numeral denotes a double: its digits are read into a significand as long as
that fits in 64 bits, and the significand is then scaled by powers of ten, each step rounded. The
result may differ from the nearest double in its last place. A numeral past the largest double
denotes nothing.
-/

namespace UniqueAccess

namespace Numeral

def maxSignificand : Nat := UInt64.size - 1

/-- Appends digits to a significand as long as it fits; what is left over comes second. -/
def absorb (significand : Nat) : List Digit → Nat × List Digit
  | [] => (significand, [])
  | d :: rest =>
    if significand * 10 + d.val ≤ maxSignificand then absorb (significand * 10 + d.val) rest
    else (significand, d :: rest)

def maxStep : Nat := 308

def powerOfTen (k : Nat) : Nat := BinaryFormat.double.nearest (Digit.tenTo k) 1

def scaleDown (pattern : Nat) (k : Nat) : Nat :=
  if k ≤ maxStep then BinaryFormat.double.div pattern (powerOfTen k)
  else if pattern = 0 then 0
  else scaleDown (BinaryFormat.double.div pattern (powerOfTen maxStep)) (k - maxStep)
termination_by k
decreasing_by simp only [maxStep] at *; omega

/-- Multiplies by `10 ^ k`; nothing if that is past the largest double. -/
def scaleUp? (pattern : Nat) (k : Nat) : Option Nat :=
  if k ≤ maxStep then
    let product := BinaryFormat.double.mul pattern (powerOfTen k)
    if product = BinaryFormat.double.infinity then none else some product
  else if pattern = 0 then some 0
  else none

def scaled? (significand : Nat) (exponent : Int) : Option Nat :=
  let pattern := BinaryFormat.double.nearest significand 1
  if exponent < 0 then some (scaleDown pattern (-exponent).toNat)
  else scaleUp? pattern exponent.toNat

def integer? (n : Numeral) : Option Int :=
  if n.fraction.isEmpty && n.exponent.isNone then
    let value := Digit.valueOf n.whole
    if n.negative then
      if 0 < value ∧ Int64.minValue.toInt ≤ -value then some (-value) else none
    else if value ≤ maxSignificand then some value else none
  else none

def writtenExponent (n : Numeral) : Int :=
  match n.exponent with
  | none => 0
  | some (true, ds) => -(Digit.valueOf ds : Int)
  | some (false, ds) => Digit.valueOf ds

/-- The double of a numeral that is no integer. -/
def staged? (n : Numeral) : Option SignedPattern :=
  let (wholePart, dropped) := absorb 0 n.whole
  let (significand, ignored) := absorb wholePart n.fraction
  let places : Int := n.fraction.length - ignored.length
  (scaled? significand (dropped.length - places + n.writtenExponent)).map (⟨n.negative, ·⟩)

def ofInteger (f : BinaryFormat) (i : Int) : SignedPattern :=
  ⟨i < 0, f.nearest i.natAbs 1⟩

def double? (n : Numeral) : Option SignedPattern :=
  match n.integer? with
  | some i => some (ofInteger .double i)
  | none => n.staged?

/-- A numeral that is no integer is read as a double and then narrowed. -/
def single? (n : Numeral) : Option SignedPattern :=
  match n.integer? with
  | some i => some (ofInteger .single i)
  | none => n.staged?.map fun x => ⟨x.negative, BinaryFormat.double.convert .single x.pattern⟩

end Numeral

end UniqueAccess
