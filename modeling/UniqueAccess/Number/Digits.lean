/-!
# Digits and numerals

Digit strings are written with the most significant digit first. A numeral is the written form of a
number: its digits are kept as they stand, so that the number that they denote is decided by those
who know the type that is wanted. Hexadecimal digits are read in either case and written in lower
case.
-/

namespace UniqueAccess

abbrev Digit := Fin 10

namespace Digit

def zero : Digit := ⟨0, by decide⟩

def ofChar? (c : Char) : Option Digit :=
  if h : '0'.toNat ≤ c.toNat ∧ c.toNat ≤ '9'.toNat then
    some ⟨c.toNat - '0'.toNat, by have : '9'.toNat = '0'.toNat + 9 := rfl; omega⟩
  else none

def toChar (d : Digit) : Char := Char.ofNat ('0'.toNat + d.val)

/-- The shortest digit string of a number, a single digit for zero. -/
def stringOf (n : Nat) : List Digit :=
  if n < 10 then [Fin.ofNat 10 n] else stringOf (n / 10) ++ [Fin.ofNat 10 (n % 10)]

def valueOf (ds : List Digit) : Nat := ds.foldl (fun n d => 10 * n + d.val) 0

def scan : List Char → List Digit × List Char
  | [] => ([], [])
  | c :: rest =>
    match ofChar? c with
    | some d => let (ds, rest) := scan rest; (d :: ds, rest)
    | none => ([], c :: rest)

def tenTo (k : Nat) : Nat := Nat.pow 10 k

/-- The least `k` with `n < tenTo k`. -/
def count (n : Nat) : Nat := if n = 0 then 0 else count (n / 10) + 1

end Digit

structure Numeral where
  negative : Bool := false
  whole : List Digit
  /-- Empty exactly when no decimal point is written. -/
  fraction : List Digit := []
  /-- Whether the exponent is negative, and its digits. -/
  exponent : Option (Bool × List Digit) := none
deriving DecidableEq, Repr

namespace Numeral

def ofNat (n : Nat) : Numeral := { whole := Digit.stringOf n }

def ofInt : Int → Numeral
  | .ofNat n => ofNat n
  | .negSucc n => { negative := true, whole := Digit.stringOf (n + 1) }

/-- The exponent carries its sign, also when that is a plus. -/
def text (n : Numeral) : List Char :=
  (if n.negative then ['-'] else []) ++ n.whole.map Digit.toChar ++
    (if n.fraction.isEmpty then [] else '.' :: n.fraction.map Digit.toChar) ++
    match n.exponent with
    | none => []
    | some (negative, ds) => 'e' :: (if negative then '-' else '+') :: ds.map Digit.toChar

end Numeral

-- ---------------------------------------------------------------------------
-- Hexadecimal digits
-- ---------------------------------------------------------------------------

namespace Hex

def digit? (c : Char) : Option Nat :=
  if '0' ≤ c ∧ c ≤ '9' then some (c.toNat - '0'.toNat)
  else if 'a' ≤ c ∧ c ≤ 'f' then some (c.toNat - 'a'.toNat + 10)
  else if 'A' ≤ c ∧ c ≤ 'F' then some (c.toNat - 'A'.toNat + 10)
  else none

def unit? (a b c d : Char) : Option Nat := do
  return (((← digit? a) * 16 + (← digit? b)) * 16 + (← digit? c)) * 16 + (← digit? d)

def toChar (n : Nat) : Char :=
  if n < 10 then Char.ofNat ('0'.toNat + n) else Char.ofNat ('a'.toNat + (n - 10))

end Hex

end UniqueAccess
