import UniqueAccess.Json.Tree
import UniqueAccess.Number.Literal

/-!
# Records and values in JSON documents

A record is an object with its fields in any order, or an array with the fields in their declared
order, where the last ones may be missing. Names that the record does not have are passed over; a
field that is given twice makes the record malformed. Decoding has no reasons: what does not have
its shape has no value.
-/

namespace UniqueAccess

namespace Json

abbrev Fields := List (String × Tree)

namespace Fields

def required {α : Type} (f : Fields) (name : String) (decode : Tree → Option α) : Option α :=
  (f.lookup name).bind decode

def defaulted {α : Type} (f : Fields) (name : String) (default : α) (decode : Tree → Option α) :
    Option α :=
  match f.lookup name with
  | none => some default
  | some t => decode t

/-- The members with a known name; nothing if a name has no text or a known one repeats. -/
def ofMembers? (names : List String) : List (Option String × Tree) → Option Fields
  | [] => some []
  | (none, _) :: _ => none
  | (some name, value) :: rest => do
    let fields ← ofMembers? names rest
    if !names.contains name then some fields
    else if (fields.lookup name).isSome then none
    else some ((name, value) :: fields)

def ofItems? (names : List String) (items : List Tree) : Option Fields :=
  if items.length ≤ names.length then some (names.zip items) else none

end Fields

namespace Tree

def fields? (names : List String) : Tree → Option Fields
  | .object members => Fields.ofMembers? names members
  | .array items => Fields.ofItems? names items
  | _ => none

def nat? (bound : Nat) : Tree → Option Nat
  | .number n => do
    let i ← n.integer?
    if 0 ≤ i ∧ i.toNat < bound then some i.toNat else none
  | _ => none

def int? (low high : Int) : Tree → Option Int
  | .number n => do
    let i ← n.integer?
    if low ≤ i ∧ i ≤ high then some i else none
  | _ => none

def bool? : Tree → Option Bool
  | .boolean b => some b
  | _ => none

def text? : Tree → Option String
  | .string text => text
  | _ => none

def list? {α : Type} (decode : Tree → Option α) : Tree → Option (List α)
  | .array items => items.mapM decode
  | _ => none

def nullable? {α : Type} (decode : Tree → Option α) : Tree → Option (Option α)
  | .null => some none
  | t => (decode t).map some

/-- A name of an enumeration, bare or as the only name in an object; `isUnit` says what may stand
beside it there. -/
def label? (isUnit : Tree → Bool) : Tree → Option String
  | .string text => text
  | .object [(name, value)] => if isUnit value then name else none
  | _ => none

def isNull : Tree → Bool
  | .null => true
  | _ => false

def isNullOrEmpty : Tree → Bool
  | .null => true
  | .object [] => true
  | _ => false

mutual
/-- Whether every string in a document has a text and every number a value. -/
def isMeaningful : Tree → Bool
  | .number n => n.double?.isSome
  | .string text => text.isSome
  | .array items => itemsMeaningful items
  | .object members => membersMeaningful members
  | _ => true
def itemsMeaningful : List Tree → Bool
  | [] => true
  | t :: rest => t.isMeaningful && itemsMeaningful rest
def membersMeaningful : List (Option String × Tree) → Bool
  | [] => true
  | (name, t) :: rest => name.isSome && t.isMeaningful && membersMeaningful rest
end

/-- The deepest nesting of a document that is read in full. -/
def maxDepth : Nat := 127

end Tree

end Json

-- ---------------------------------------------------------------------------
-- Labels
-- ---------------------------------------------------------------------------

class Labelled (α : Type) where
  all : List α
  label : α → String

namespace Labelled

variable {α : Type} [Labelled α]

def ofLabel? (s : String) : Option α := (all : List α).find? fun a => label a == s

def toTree (a : α) : Json.Tree := .ofString (label a)

def ofTree? (isUnit : Json.Tree → Bool) (t : Json.Tree) : Option α :=
  (t.label? isUnit).bind ofLabel?

end Labelled

end UniqueAccess
