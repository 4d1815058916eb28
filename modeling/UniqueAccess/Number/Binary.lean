/-!
# Binary floating-point numbers

A binary interchange format is known by the widths of its two fields. A magnitude is kept as its
*pattern*, the exponent field followed by the fraction field: patterns are ordered as the numbers
they stand for, and the neighbours of a number are the neighbours of its pattern. Values are
counted in *quanta*, the distance between the smallest numbers of the format, so that the value of
every finite pattern is a natural number and rounding is a division of natural numbers.
-/

namespace UniqueAccess

/-- The quotient nearest to `num / den`; of two equally near, the even one. -/
def divNearestEven (num den : Nat) : Nat :=
  let quotient := num / den
  let twice := 2 * (num % den)
  if twice < den ∨ (twice = den ∧ quotient % 2 = 0) then quotient else quotient + 1

structure BinaryFormat where
  fractionBits : Nat
  exponentBits : Nat
deriving DecidableEq, Repr

namespace BinaryFormat

def single : BinaryFormat := ⟨23, 8⟩
def double : BinaryFormat := ⟨52, 11⟩

/-- One quantum is `2 ^ (-scale)`. -/
def scale (f : BinaryFormat) : Nat := (1 <<< (f.exponentBits - 1)) - 2 + f.fractionBits

/-- The pattern of the infinite magnitude; the finite ones lie below and the NaNs above it. -/
def infinity (f : BinaryFormat) : Nat := ((1 <<< f.exponentBits) - 1) <<< f.fractionBits

/-- The patterns lie below this bit, which marks a negative number. -/
def signBit (f : BinaryFormat) : Nat := 1 <<< (f.exponentBits + f.fractionBits)

/-- The value of a pattern in quanta; infinity counts as the power of two after the last number. -/
def quanta (f : BinaryFormat) (pattern : Nat) : Nat :=
  let hidden := 1 <<< f.fractionBits
  let exponent := pattern / hidden
  let fraction := pattern % hidden
  if exponent = 0 then fraction else (hidden + fraction) <<< (exponent - 1)

/-- The pattern nearest to `num / den` quanta, ties to even, infinity from half a step past the
last number on. A significand that rounds up to the next power of two carries into the exponent
field. -/
def nearestQuanta (f : BinaryFormat) (num den : Nat) : Nat :=
  let exponent := Nat.log2 (num / den) - f.fractionBits
  let significand := divNearestEven num (den <<< exponent)
  min ((exponent <<< f.fractionBits) + significand) f.infinity

def nearest (f : BinaryFormat) (num den : Nat) : Nat :=
  f.nearestQuanta (num <<< f.scale) den

def mul (f : BinaryFormat) (a b : Nat) : Nat :=
  f.nearestQuanta (f.quanta a * f.quanta b) (1 <<< f.scale)

def div (f : BinaryFormat) (a b : Nat) : Nat :=
  f.nearest (f.quanta a) (f.quanta b)

def convert (f g : BinaryFormat) (pattern : Nat) : Nat :=
  g.nearest (f.quanta pattern) (1 <<< f.scale)

end BinaryFormat

structure SignedPattern where
  negative : Bool
  pattern : Nat
deriving DecidableEq, Repr

namespace SignedPattern

def ofBits (f : BinaryFormat) (bits : Nat) : SignedPattern :=
  ⟨f.signBit ≤ bits, bits % f.signBit⟩

def toBits (f : BinaryFormat) (x : SignedPattern) : Nat :=
  if x.negative then f.signBit + x.pattern else x.pattern

def isNaN (f : BinaryFormat) (x : SignedPattern) : Bool := f.infinity < x.pattern

/-- Numerical equality: a NaN equals nothing, and the two zeros are equal. -/
def numericallyEqual (f : BinaryFormat) (x y : SignedPattern) : Bool :=
  !x.isNaN f && !y.isNaN f && x.pattern == y.pattern &&
    (x.negative == y.negative || x.pattern == 0)

end SignedPattern

end UniqueAccess
