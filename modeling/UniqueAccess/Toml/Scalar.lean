import UniqueAccess.Number.Binary
import UniqueAccess.Number.Digits
import UniqueAccess.Toml.Document

/-!
# Numbers, dates and words in TOML documents

These are single words, read as a whole once it is known where they end. Digits of numbers may be
grouped by underscores. An integer fits in 64 bits with its sign, and a float must not round to
positive infinity.
-/

namespace UniqueAccess.Toml

def isWordChar (c : Char) : Bool :=
  c.isAlphanum || c == '+' || c == '-' || c == '_' || c == '.' || c == ':'

/-- Takes out the underscores, each of which stands between two digits; at least one digit. -/
def ungroup? (isDigit : Char → Bool) : List Char → Option (List Char)
  | [] => none
  | [c] => if isDigit c then some [c] else none
  | c :: '_' :: rest => if isDigit c then (ungroup? isDigit rest).map (c :: ·) else none
  | c :: rest => if isDigit c then (ungroup? isDigit rest).map (c :: ·) else none

def splitSign : List Char → Bool × List Char
  | '-' :: rest => (true, rest)
  | '+' :: rest => (false, rest)
  | s => (false, s)

-- ---------------------------------------------------------------------------
-- Integers
-- ---------------------------------------------------------------------------

def digitValue (c : Char) : Nat :=
  if c.isDigit then c.toNat - '0'.toNat
  else if c.isUpper then c.toNat - 'A'.toNat + 10
  else c.toNat - 'a'.toNat + 10

def isDigitOf (base : Nat) (c : Char) : Bool := c.isAlphanum && digitValue c < base

def valueIn (base : Nat) (ds : List Char) : Nat :=
  ds.foldl (fun n c => base * n + digitValue c) 0

def decimalDigits? (s : List Char) : Option (List Char) :=
  match ungroup? Char.isDigit s with
  | some ('0' :: _ :: _) => none
  | ds => ds

def fitting? (i : Int) : Option Int :=
  if Int64.minValue.toInt ≤ i ∧ i ≤ Int64.maxValue.toInt then some i else none

def basedInteger? (base : Nat) (s : List Char) : Option Int := do
  let n := valueIn base (← ungroup? (isDigitOf base) s)
  fitting? n

def integer? (s : List Char) : Option Int :=
  match s with
  | '0' :: 'x' :: rest => basedInteger? 16 rest
  | '0' :: 'o' :: rest => basedInteger? 8 rest
  | '0' :: 'b' :: rest => basedInteger? 2 rest
  | _ => do
    let (negative, s) := splitSign s
    let n := valueIn 10 (← decimalDigits? s)
    fitting? (if negative then -n else n)

-- ---------------------------------------------------------------------------
-- Floats
-- ---------------------------------------------------------------------------

def isGroupedDigit (c : Char) : Bool := c.isDigit || c == '_'

def fraction? : List Char → Option (List Char × List Char)
  | '.' :: rest => do
    return (← ungroup? Char.isDigit (rest.takeWhile isGroupedDigit), rest.dropWhile isGroupedDigit)
  | s => some ([], s)

def exponent? : List Char → Option Int
  | [] => some 0
  | c :: rest =>
    if c = 'e' ∨ c = 'E' then do
      let (negative, s) := splitSign rest
      let n := valueIn 10 (← ungroup? Char.isDigit s)
      return if negative then -n else n
    else none

def overflows (significand : Nat) (exponent : Int) : Bool :=
  let leading := (Digit.count significand : Int) - 1 + exponent
  if significand = 0 ∨ leading < 308 then false
  else if 308 < leading then true
  else
    BinaryFormat.double.nearest (significand * Digit.tenTo exponent.toNat)
      (Digit.tenTo (-exponent).toNat) == BinaryFormat.double.infinity

def isFloat (s : List Char) : Bool :=
  let (negative, s) := splitSign s
  if s == ['i', 'n', 'f'] || s == ['n', 'a', 'n'] then true
  else
    let whole := s.takeWhile isGroupedDigit
    let rest := s.dropWhile isGroupedDigit
    match decimalDigits? whole, fraction? rest with
    | some whole, some (fraction, rest') =>
      match exponent? rest' with
      | some exponent =>
        !rest.isEmpty &&
          (negative || !overflows (valueIn 10 (whole ++ fraction)) (exponent - fraction.length))
      | none => false
    | _, _ => false

-- ---------------------------------------------------------------------------
-- Dates and times
-- ---------------------------------------------------------------------------

def number? (ds : List Char) : Option Nat :=
  if !ds.isEmpty && ds.all Char.isDigit then some (valueIn 10 ds) else none

def daysIn (year month : Nat) : Nat :=
  if month = 2 then
    if year % 4 = 0 ∧ (year % 100 ≠ 0 ∨ year % 400 = 0) then 29 else 28
  else if month = 4 ∨ month = 6 ∨ month = 9 ∨ month = 11 then 30
  else 31

def date? : List Char → Option (List Char)
  | a :: b :: c :: d :: '-' :: e :: f :: '-' :: g :: h :: rest => do
    let year ← number? [a, b, c, d]
    let month ← number? [e, f]
    let day ← number? [g, h]
    if 1 ≤ month ∧ month ≤ 12 ∧ 1 ≤ day ∧ day ≤ daysIn year month then some rest else none
  | _ => none

def clock? (a b c d : Char) : Option Unit := do
  if (← number? [a, b]) < 24 ∧ (← number? [c, d]) < 60 then some () else none

/-- A time of day, which may have a leap second, and what follows it. -/
def time? : List Char → Option (List Char)
  | a :: b :: ':' :: c :: d :: ':' :: e :: f :: rest => do
    clock? a b c d
    if (← number? [e, f]) ≤ 60 then
      match rest with
      | '.' :: g :: rest => if g.isDigit then some (rest.dropWhile Char.isDigit) else none
      | '.' :: [] => none
      | rest => some rest
    else none
  | _ => none

def isOffset : List Char → Bool
  | [] => true
  | ['Z'] => true
  | ['z'] => true
  | [sign, a, b, ':', c, d] => (sign == '+' || sign == '-') && (clock? a b c d).isSome
  | _ => false

def isTimeOfDate (s : List Char) : Bool := ((time? s).map isOffset).getD false

def isDate (s : List Char) : Bool := date? s == some []

def isDateTime (s : List Char) : Bool :=
  time? s == some [] ||
    match date? s with
    | some [] => true
    | some ('T' :: rest) => isTimeOfDate rest
    | some ('t' :: rest) => isTimeOfDate rest
    | _ => false

-- ---------------------------------------------------------------------------
-- Words
-- ---------------------------------------------------------------------------

def Value.ofWord? (s : List Char) : Option Value :=
  if s = ['t', 'r', 'u', 'e'] then some (.boolean true)
  else if s = ['f', 'a', 'l', 's', 'e'] then some (.boolean false)
  else if isDateTime s then some (.dateTime (String.ofList s))
  else if isFloat s then some (.float (String.ofList s))
  else (integer? s).map .integer

/-- The value at the start of a text that is a word. A date and a time may also stand apart, with
one space between them. -/
def readWord (s : List Char) : Option (Value × List Char) := do
  let word := s.takeWhile isWordChar
  let rest := s.dropWhile isWordChar
  let apart :=
    match rest with
    | ' ' :: later =>
      if isDate word && isTimeOfDate (later.takeWhile isWordChar) then some later else none
    | _ => none
  match apart with
  | some later =>
    return (.dateTime (String.ofList (word ++ ' ' :: later.takeWhile isWordChar)),
      later.dropWhile isWordChar)
  | none => return (← Value.ofWord? word, rest)

end UniqueAccess.Toml
