import UniqueAccess.Json.Tree

/-!
# Reading JSON

The grammar of JSON texts, over lists of characters. Each reader takes what it reads off the front
of the text and gives back the rest. Values nest, so the readers of values carry a bound on how deep
they still may go; the length of the text is one that no text can exceed.
-/

namespace UniqueAccess.Json

def isBlank (c : Char) : Bool := c == ' ' || c == '\t' || c == '\n' || c == '\r'

def skipBlank (s : List Char) : List Char := s.dropWhile isBlank

-- ---------------------------------------------------------------------------
-- Strings
-- ---------------------------------------------------------------------------

def simpleEscape? : Char → Option Char
  | '"' => some '"'
  | '\\' => some '\\'
  | '/' => some '/'
  | 'b' => some '\x08'
  | 'f' => some '\x0c'
  | 'n' => some '\n'
  | 'r' => some '\r'
  | 't' => some '\t'
  | _ => none

/-- The code points and 16-bit units of a string up to its closing quote. -/
def readCodes : List Char → Option (List Nat × List Char)
  | '"' :: rest => some ([], rest)
  | '\\' :: 'u' :: a :: b :: c :: d :: rest => do
    let unit ← Hex.unit? a b c d
    let (codes, rest) ← readCodes rest
    return (unit :: codes, rest)
  | '\\' :: e :: rest => do
    let c ← simpleEscape? e
    let (codes, rest) ← readCodes rest
    return (c.toNat :: codes, rest)
  | c :: rest =>
    if c.toNat < 0x20 then none else do
      let (codes, rest) ← readCodes rest
      return (c.toNat :: codes, rest)
  | [] => none

def isHighSurrogate (n : Nat) : Bool := 0xD800 ≤ n && n < 0xDC00
def isLowSurrogate (n : Nat) : Bool := 0xDC00 ≤ n && n < 0xE000

/-- Joins surrogate pairs; one half alone names no character. -/
def charsOfCodes : List Nat → Option (List Char)
  | [] => some []
  | high :: low :: rest =>
    if isHighSurrogate high then
      if isLowSurrogate low then
        let code := 0x10000 + (high - 0xD800) * 0x400 + (low - 0xDC00)
        (charsOfCodes rest).map (Char.ofNat code :: ·)
      else none
    else if isLowSurrogate high then none
    else (charsOfCodes (low :: rest)).map (Char.ofNat high :: ·)
  | [code] =>
    if isHighSurrogate code || isLowSurrogate code then none else some [Char.ofNat code]

def readString (s : List Char) : Option (Option String × List Char) := do
  let (codes, rest) ← readCodes s
  return ((charsOfCodes codes).map String.ofList, rest)

-- ---------------------------------------------------------------------------
-- Numbers
-- ---------------------------------------------------------------------------

def readWhole (s : List Char) : Option (List Digit × List Char) :=
  match Digit.scan s with
  | ([], _) => none
  | (d :: ds, rest) => if d = Digit.zero ∧ ds ≠ [] then none else some (d :: ds, rest)

def readDigits (s : List Char) : Option (List Digit × List Char) :=
  match Digit.scan s with
  | ([], _) => none
  | found => some found

def readFraction : List Char → Option (List Digit × List Char)
  | '.' :: rest => readDigits rest
  | s => some ([], s)

def readExponentDigits (negative : Bool) (s : List Char) :
    Option (Option (Bool × List Digit) × List Char) := do
  let (ds, rest) ← readDigits s
  return (some (negative, ds), rest)

def readSignedExponent : List Char → Option (Option (Bool × List Digit) × List Char)
  | '+' :: rest => readExponentDigits false rest
  | '-' :: rest => readExponentDigits true rest
  | s => readExponentDigits false s

def readExponent : List Char → Option (Option (Bool × List Digit) × List Char)
  | 'e' :: rest => readSignedExponent rest
  | 'E' :: rest => readSignedExponent rest
  | s => some (none, s)

def readMagnitude (negative : Bool) (s : List Char) : Option (Numeral × List Char) := do
  let (whole, s) ← readWhole s
  let (fraction, s) ← readFraction s
  let (exponent, s) ← readExponent s
  return ({ negative, whole, fraction, exponent }, s)

def readNumber : List Char → Option (Numeral × List Char)
  | '-' :: rest => readMagnitude true rest
  | s => readMagnitude false s

-- ---------------------------------------------------------------------------
-- Values
-- ---------------------------------------------------------------------------

mutual

/-- A value and the rest of the text, nested at most as deep as the bound allows. -/
def readValue : Nat → List Char → Option (Tree × List Char)
  | 0, _ => none
  | bound + 1, s =>
    match skipBlank s with
    | 'n' :: 'u' :: 'l' :: 'l' :: rest => some (.null, rest)
    | 't' :: 'r' :: 'u' :: 'e' :: rest => some (.boolean true, rest)
    | 'f' :: 'a' :: 'l' :: 's' :: 'e' :: rest => some (.boolean false, rest)
    | '"' :: rest => (readString rest).map fun (text, rest) => (.string text, rest)
    | '[' :: rest =>
      match skipBlank rest with
      | ']' :: rest => some (.array [], rest)
      | rest => (readItems bound rest).map fun (items, rest) => (.array items, rest)
    | '\x7b' :: rest =>
      match skipBlank rest with
      | '\x7d' :: rest => some (.object [], rest)
      | rest => (readMembers bound rest).map fun (members, rest) => (.object members, rest)
    | s => (readNumber s).map fun (numeral, rest) => (.number numeral, rest)

def readItems : Nat → List Char → Option (List Tree × List Char)
  | 0, _ => none
  | bound + 1, s => do
    let (item, s) ← readValue bound s
    match skipBlank s with
    | ',' :: rest =>
      let (items, rest) ← readItems bound rest
      return (item :: items, rest)
    | ']' :: rest => return ([item], rest)
    | _ => none

def readMembers : Nat → List Char → Option (List (Option String × Tree) × List Char)
  | 0, _ => none
  | bound + 1, s =>
    match skipBlank s with
    | '"' :: rest => do
      let (name, s) ← readString rest
      match skipBlank s with
      | ':' :: rest =>
        let (value, s) ← readValue bound rest
        match skipBlank s with
        | ',' :: rest =>
          let (members, rest) ← readMembers bound rest
          return ((name, value) :: members, rest)
        | '\x7d' :: rest => return ([(name, value)], rest)
        | _ => none
      | _ => none
    | _ => none

end

def Tree.ofChars? (s : List Char) : Option Tree := do
  let (tree, rest) ← readValue (s.length + 1) s
  if (skipBlank rest).isEmpty then some tree else none

def Tree.ofString? (s : String) : Option Tree := Tree.ofChars? s.toList

end UniqueAccess.Json
