import UniqueAccess.Json.Record

/-!
# Constants

Integers of three types and binary numbers of two. A binary number is kept as its bits, so that two
constants are the same value of this type exactly when no program can tell them apart; numerical
equality is a relation of its own, under which a NaN is not even equal to itself.
-/

namespace UniqueAccess

inductive Constant where
  | i32 (value : Int32)
  | i64 (value : Int64)
  | u32 (value : UInt32)
  | f32 (bits : UInt32)
  | f64 (bits : UInt64)
deriving DecidableEq, Repr

namespace Constant

def asInt? : Constant → Option Int
  | .i32 v => some v.toInt
  | .i64 v => some v.toInt
  | .u32 v => some v.toNat
  | _ => none

def numericallyEqual : Constant → Constant → Bool
  | .i32 a, .i32 b => a == b
  | .i64 a, .i64 b => a == b
  | .u32 a, .u32 b => a == b
  | .f32 a, .f32 b =>
    (SignedPattern.ofBits .single a.toNat).numericallyEqual .single (.ofBits .single b.toNat)
  | .f64 a, .f64 b =>
    (SignedPattern.ofBits .double a.toNat).numericallyEqual .double (.ofBits .double b.toNat)
  | _, _ => false

-- ---------------------------------------------------------------------------
-- Text
-- ---------------------------------------------------------------------------

def digitText (ds : List Digit) : String := String.ofList (ds.map Digit.toChar)

/-- A magnitude in listings: the fewest digits that read back, of two equally near the larger,
without an exponent and without a point where no digit follows it. -/
def magnitudeText (f : BinaryFormat) (pattern : Nat) : String :=
  if pattern = f.infinity then "inf"
  else if pattern = 0 then "0"
  else
    let (whole, fraction) := (f.shortest .up pattern).positional
    if fraction.isEmpty then digitText whole else digitText whole ++ "." ++ digitText fraction

def binaryText (f : BinaryFormat) (x : SignedPattern) : String :=
  if x.isNaN f then "NaN"
  else (if x.negative then "-" else "") ++ magnitudeText f x.pattern

def text : Constant → String
  | .i32 v => toString v.toInt ++ "i32"
  | .i64 v => toString v.toInt ++ "i64"
  | .u32 v => toString v.toNat ++ "u32"
  | .f32 bits => binaryText .single (.ofBits .single bits.toNat) ++ "f32"
  | .f64 bits => binaryText .double (.ofBits .double bits.toNat) ++ "f64"

-- ---------------------------------------------------------------------------
-- JSON
-- ---------------------------------------------------------------------------

def toTree : Constant → Json.Tree
  | .i32 v => .ofFields [("i32", .ofInt v.toInt)]
  | .i64 v => .ofFields [("i64", .ofInt v.toInt)]
  | .u32 v => .ofFields [("u32", .ofNat v.toNat)]
  | .f32 bits => .ofFields [("f32", .ofBinary .single (.ofBits .single bits.toNat))]
  | .f64 bits => .ofFields [("f64", .ofBinary .double (.ofBits .double bits.toNat))]

def single? : Json.Tree → Option Constant
  | .number n => n.single?.map fun x => .f32 (UInt32.ofNat (x.toBits .single))
  | _ => none

def double? : Json.Tree → Option Constant
  | .number n => n.double?.map fun x => .f64 (UInt64.ofNat (x.toBits .double))
  | _ => none

def ofTyped? (type : String) (value : Json.Tree) : Option Constant :=
  match type with
  | "i32" =>
    (value.int? Int32.minValue.toInt Int32.maxValue.toInt).map fun i => .i32 (Int32.ofInt i)
  | "i64" =>
    (value.int? Int64.minValue.toInt Int64.maxValue.toInt).map fun i => .i64 (Int64.ofInt i)
  | "u32" => (value.nat? UInt32.size).map fun n => .u32 (UInt32.ofNat n)
  | "f32" => single? value
  | "f64" => double? value
  | _ => none

/-- An object whose only member is the value under the name of its type. -/
def ofTree? : Json.Tree → Option Constant
  | .object [(some type, value)] => ofTyped? type value
  | _ => none

end Constant

end UniqueAccess
