import UniqueAccess.Json.Tree

/-!
# Writing JSON

Two layouts of one document. The compact one has no blanks at all. The indented one puts every item
and member on a line of its own, two spaces further in than its container; an empty container stays
on its line.
-/

namespace UniqueAccess.Json

/-- A character inside a string. Only quotes, backslashes and control characters are escaped. -/
def escape (c : Char) : List Char :=
  if c = '"' then ['\\', '"']
  else if c = '\\' then ['\\', '\\']
  else if c = '\x08' then ['\\', 'b']
  else if c = '\x0c' then ['\\', 'f']
  else if c = '\n' then ['\\', 'n']
  else if c = '\r' then ['\\', 'r']
  else if c = '\t' then ['\\', 't']
  else if c.toNat < 0x20 then
    ['\\', 'u', '0', '0', Hex.toChar (c.toNat / 16), Hex.toChar (c.toNat % 16)]
  else [c]

def quote (s : String) : List Char := '"' :: s.toList.flatMap escape ++ ['"']

/-- A string without a text is written as an empty one. -/
def quoteText (text : Option String) : List Char := quote (text.getD "")

def writeBoolean (b : Bool) : List Char :=
  if b then ['t', 'r', 'u', 'e'] else ['f', 'a', 'l', 's', 'e']

mutual
def Tree.compactChars : Tree → List Char
  | .null => ['n', 'u', 'l', 'l']
  | .boolean b => writeBoolean b
  | .number n => n.text
  | .string text => quoteText text
  | .array [] => ['[', ']']
  | .array (item :: items) => '[' :: item.compactChars ++ compactItems items
  | .object [] => ['\x7b', '\x7d']
  | .object ((name, value) :: members) =>
    '\x7b' :: quoteText name ++ ':' :: value.compactChars ++ compactMembers members
/-- Further items, with the comma before each, and the closing bracket. -/
def compactItems : List Tree → List Char
  | [] => [']']
  | item :: items => ',' :: item.compactChars ++ compactItems items
def compactMembers : List (Option String × Tree) → List Char
  | [] => ['\x7d']
  | (name, value) :: members =>
    ',' :: quoteText name ++ ':' :: value.compactChars ++ compactMembers members
end

def newLine (level : Nat) : List Char := '\n' :: List.replicate (2 * level) ' '

mutual
def Tree.indentedChars (level : Nat) : Tree → List Char
  | .null => ['n', 'u', 'l', 'l']
  | .boolean b => writeBoolean b
  | .number n => n.text
  | .string text => quoteText text
  | .array [] => ['[', ']']
  | .array (item :: items) =>
    '[' :: newLine (level + 1) ++ item.indentedChars (level + 1) ++ indentedItems level items
  | .object [] => ['\x7b', '\x7d']
  | .object ((name, value) :: members) =>
    '\x7b' :: newLine (level + 1) ++ quoteText name ++ ':' :: ' ' ::
      value.indentedChars (level + 1) ++ indentedMembers level members
def indentedItems (level : Nat) : List Tree → List Char
  | [] => newLine level ++ [']']
  | item :: items =>
    ',' :: newLine (level + 1) ++ item.indentedChars (level + 1) ++ indentedItems level items
def indentedMembers (level : Nat) : List (Option String × Tree) → List Char
  | [] => newLine level ++ ['\x7d']
  | (name, value) :: members =>
    ',' :: newLine (level + 1) ++ quoteText name ++ ':' :: ' ' ::
      value.indentedChars (level + 1) ++ indentedMembers level members
end

def Tree.compact (t : Tree) : String := String.ofList t.compactChars
def Tree.indented (t : Tree) : String := String.ofList (t.indentedChars 0)

end UniqueAccess.Json
