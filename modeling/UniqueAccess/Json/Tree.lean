import UniqueAccess.Number.Shortest

/-!
# JSON documents

The tree of a document, before anything is known of its meaning: numbers are numerals, members keep
their order and may repeat a name. A string whose escapes name half of a surrogate pair alone has
no text; it is harmless until somebody asks for it.

A binary number has the fewest digits that read back, of two equally near the even one. Numbers of
moderate size are positional and have at least one digit after the point: in double precision those
from `1e-5` up to but without `1e16`, in single precision those from `1e-6` up to but without
`1e13`. The others have one digit before the point and an exponent. There are no infinities and no
NaN: they are null.
-/

namespace UniqueAccess.Json

inductive Tree where
  | null
  | boolean (value : Bool)
  | number (numeral : Numeral)
  | string (text : Option String)
  | array (items : List Tree)
  | object (members : List (Option String × Tree))

namespace Tree

def ofNat (n : Nat) : Tree := .number (.ofNat n)
def ofInt (i : Int) : Tree := .number (.ofInt i)
def ofString (s : String) : Tree := .string (some s)

def ofOption {α : Type} (encode : α → Tree) : Option α → Tree
  | none => .null
  | some a => encode a

def ofList {α : Type} (encode : α → Tree) (items : List α) : Tree := .array (items.map encode)

def ofFields (fields : List (String × Tree)) : Tree :=
  .object (fields.map fun (name, value) => (some name, value))

mutual
def depth : Tree → Nat
  | .array items => depthItems items + 1
  | .object members => depthMembers members + 1
  | _ => 0
def depthItems : List Tree → Nat
  | [] => 0
  | t :: rest => max t.depth (depthItems rest)
def depthMembers : List (Option String × Tree) → Nat
  | [] => 0
  | (_, t) :: rest => max t.depth (depthMembers rest)
end

end Tree

-- ---------------------------------------------------------------------------
-- Binary numbers
-- ---------------------------------------------------------------------------

def isPositional (f : BinaryFormat) (leadingExponent : Int) : Bool :=
  if f = .single then -6 ≤ leadingExponent && leadingExponent < 13
  else -5 ≤ leadingExponent && leadingExponent < 16

def numeralOfDecimal (f : BinaryFormat) (negative : Bool) (d : Decimal) : Numeral :=
  let leading := d.leadingExponent
  if isPositional f leading then
    let (whole, fraction) := d.positional
    { negative, whole, fraction := if fraction.isEmpty then [Digit.zero] else fraction }
  else
    { negative, whole := d.digits.take 1, fraction := d.digits.drop 1,
      exponent := some (leading < 0, Digit.stringOf leading.natAbs) }

def Tree.ofBinary (f : BinaryFormat) (x : SignedPattern) : Tree :=
  if f.infinity ≤ x.pattern then .null
  else if x.pattern = 0 then
    .number { negative := x.negative, whole := [Digit.zero], fraction := [Digit.zero] }
  else .number (numeralOfDecimal f x.negative (f.shortest .even x.pattern))

end UniqueAccess.Json
