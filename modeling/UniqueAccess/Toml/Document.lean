/-!
# TOML documents

A document is a table of values. Tables come about in four ways, and how one did decides what may
still be added to it: `extend?` and its special cases are the rules about defining a table, and
refuse to define anything twice.
-/

namespace UniqueAccess.Toml

inductive Origin where
  /-- Opened by a header of its own, or the document itself. -/
  | header
  /-- Named on the way to another table in a header. -/
  | implied
  /-- Named in a dotted key. -/
  | dotted
  | inline
deriving DecidableEq, Repr

inductive Value where
  | string (text : String)
  | boolean (value : Bool)
  | integer (value : Int)
  | float (text : String)
  | dateTime (text : String)
  | array (items : List Value)
  | table (origin : Origin) (entries : List (String × Value))
  | tables (items : List (List (String × Value)))

abbrev Entries := List (String × Value)

namespace Entries

def replace (entries : Entries) (key : String) (value : Value) : Entries :=
  entries.map fun e => if e.1 = key then (key, value) else e

/-- Changes the table at the end of a path, given its origin and entries. Missing tables on the way
are made with the origin `fresh`; of several tables under one name the last is meant. What was
written in braces is complete, and a dotted key does not reach into a table with a header. -/
def extend? (fresh : Origin) (change : Origin → Entries → Option Entries) :
    List String → Origin → Entries → Option Entries
  | [], origin, entries => change origin entries
  | key :: path, _, entries =>
    match entries.lookup key with
    | none => do
      let inner ← extend? fresh change path fresh []
      return entries ++ [(key, .table fresh inner)]
    | some (.table origin inner) =>
      if origin = .inline ∨ (fresh = .dotted ∧ origin = .header) then none
      else do
        let inner ← extend? fresh change path origin inner
        return replace entries key (.table origin inner)
    | some (.tables items) =>
      match items.getLast? with
      | none => none
      | some last => do
        let last ← extend? fresh change path .header last
        return replace entries key (.tables (items.dropLast ++ [last]))
    | some _ => none

def add? (entries : Entries) (key : String) (value : Value) : Option Entries :=
  if (entries.lookup key).isSome then none else some (entries ++ [(key, value)])

/-- Adds a value under a dotted key, whose first parts name tables made for such keys only. -/
def addDotted? (entries : Entries) (path : List String) (key : String) (value : Value) :
    Option Entries :=
  extend? .dotted
    (fun origin inner => if path ≠ [] ∧ origin ≠ .dotted then none else inner.add? key value)
    path .header entries

/-- Opens the table of a header: a new one, or one that so far is only implied. -/
def openTable? (key : String) (fill : Entries → Option Entries) (_ : Origin) (entries : Entries) :
    Option Entries :=
  match entries.lookup key with
  | none => do return entries ++ [(key, .table .header (← fill []))]
  | some (.table .implied inner) => do return replace entries key (.table .header (← fill inner))
  | some _ => none

def openNext? (key : String) (fill : Entries → Option Entries) (_ : Origin) (entries : Entries) :
    Option Entries :=
  match entries.lookup key with
  | none => do return entries ++ [(key, .tables [← fill []])]
  | some (.tables items) => do return replace entries key (.tables (items ++ [← fill []]))
  | some _ => none

end Entries

end UniqueAccess.Toml
