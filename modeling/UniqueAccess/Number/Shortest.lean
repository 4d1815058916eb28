import UniqueAccess.Number.Binary
import UniqueAccess.Number.Digits

/-!
# The fewest digits that read back

Every decimal that rounds to a given binary number lies in an interval around it, which ends half
way to its two neighbours. `BinaryFormat.shortest` finds the decimal of the fewest digits in that
interval, and among several the one nearest to the number. On each decimal grid only the two points
around the number have to be tried.
-/

namespace UniqueAccess

/-- The decimal `coefficient * 10 ^ exponent`. -/
structure Decimal where
  coefficient : Nat
  exponent : Int
deriving DecidableEq, Repr

inductive TieRule where
  | up
  | even
deriving DecidableEq, Repr

namespace Decimal

def normalize (d : Decimal) : Decimal :=
  if 0 < d.coefficient ∧ d.coefficient % 10 = 0 then
    normalize ⟨d.coefficient / 10, d.exponent + 1⟩
  else d
termination_by d.coefficient
decreasing_by omega

def digits (d : Decimal) : List Digit := Digit.stringOf d.coefficient

def leadingExponent (d : Decimal) : Int := d.exponent + (d.digits.length - 1 : Nat)

def positional (d : Decimal) : List Digit × List Digit :=
  let ds := d.digits
  if 0 ≤ d.exponent then (ds ++ List.replicate d.exponent.toNat Digit.zero, [])
  else
    let places := (-d.exponent).toNat
    if places < ds.length then (ds.take (ds.length - places), ds.drop (ds.length - places))
    else ([Digit.zero], List.replicate (places - ds.length) Digit.zero ++ ds)

end Decimal

/-- The interval of numbers that round to `value`, all three counted in units of `1 / unit`. -/
structure RoundingInterval where
  low : Nat
  value : Nat
  high : Nat
  unit : Nat
  closed : Bool

namespace RoundingInterval

def contains (i : RoundingInterval) (x : Nat) : Bool :=
  if i.closed then i.low ≤ x && x ≤ i.high else i.low < x && x < i.high

/-- The same interval counted in units of `10 ^ exponent / unit`, so that the decimals with that
exponent are the multiples of the new unit. -/
def rescale (i : RoundingInterval) (exponent : Int) : RoundingInterval :=
  let factor := Digit.tenTo (-exponent).toNat
  { low := i.low * factor, value := i.value * factor, high := i.high * factor,
    unit := i.unit * Digit.tenTo exponent.toNat, closed := i.closed }

def nearestMultiple? (i : RoundingInterval) (tie : TieRule) : Option Nat :=
  let below := i.value / i.unit
  let lower := i.contains (below * i.unit)
  let upper := i.contains ((below + 1) * i.unit)
  let twice := 2 * (i.value % i.unit)
  let goesDown := twice < i.unit || (twice == i.unit && tie == .even && below % 2 == 0)
  if lower && (!upper || goesDown) then some below
  else if upper then some (below + 1)
  else none

def leadingExponent (i : RoundingInterval) : Int :=
  if i.unit ≤ i.value then (Digit.count (i.value / i.unit) : Int) - 1
  else -(Digit.count ((i.unit - 1) / i.value) : Int)

/-- Tries grids of more and more digits, `fuel` of them; the last grid has the answer of rounding
the value down. -/
def search (i : RoundingInterval) (tie : TieRule) : Nat → Int → Decimal
  | 0, exponent =>
    let grid := i.rescale exponent
    ⟨grid.value / grid.unit, exponent⟩
  | fuel + 1, exponent =>
    match (i.rescale exponent).nearestMultiple? tie with
    | some coefficient => ⟨coefficient, exponent⟩
    | none => search i tie fuel (exponent - 1)

end RoundingInterval

namespace BinaryFormat

/-- The interval of a positive finite pattern. The ends round to it exactly when it is even. -/
def roundingInterval (f : BinaryFormat) (pattern : Nat) : RoundingInterval :=
  { low := f.quanta (pattern - 1) + f.quanta pattern
    value := 2 * f.quanta pattern
    high := f.quanta pattern + f.quanta (pattern + 1)
    unit := 1 <<< (f.scale + 1)
    closed := pattern % 2 == 0 }

/-- As many digits as a grid needs to be finer than the distance of two numbers. -/
def enoughDigits (f : BinaryFormat) : Nat := Digit.count (1 <<< (f.fractionBits + 1)) + 1

def shortest (f : BinaryFormat) (tie : TieRule) (pattern : Nat) : Decimal :=
  let i := f.roundingInterval pattern
  (i.search tie f.enoughDigits i.leadingExponent).normalize

end BinaryFormat

end UniqueAccess
