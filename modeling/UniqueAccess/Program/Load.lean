import UniqueAccess.Json.Reader
import UniqueAccess.Json.Writer
import UniqueAccess.Program.Validity
import UniqueAccess.Stmt.Json
import UniqueAccess.Storage.Json

/-!
# Programs in JSON documents

A text is a program that may be analyzed if it has the form of one, has the current version and is
valid; these are asked in this order.
-/

namespace UniqueAccess

open Json (Tree)

namespace Program

def toTree (p : Program) : Tree :=
  .ofFields
    [("version", .ofNat p.version.toNat), ("snodes", p.storage.toTree),
      ("stmts", .ofList Stmt.toTree p.stmts.toList), ("root", Block.toTree p.root)]

def fieldNames : List String := ["version", "snodes", "stmts", "root"]

def stmtNesting : Nat := 2

def ofTree? (t : Tree) : Option Program := do
  let f ← t.fields? fieldNames
  return {
    version := UInt32.ofNat
      (← f.defaulted "version" currentVersion.toNat (Tree.nat? UInt32.size))
    storage := ← f.required "snodes" StorageTree.ofTree?
    stmts := (← f.required "stmts" (Tree.list? (Stmt.ofTree? stmtNesting))).toArray
    root := ← f.required "root" Block.ofTree? }

/-- Reads the form of a program; whether it makes sense is another question. -/
def decode? (text : String) : Option Program := (Tree.ofString? text).bind ofTree?

end Program

-- ---------------------------------------------------------------------------
-- Loading
-- ---------------------------------------------------------------------------

inductive LoadError where
  | unreadable (path reason : String)
  | malformed
  | unsupportedVersion (found : UInt32)
  | malformedConfig
  /-- The findings of a program that is not valid: at least one. -/
  | invalid (first : Finding) (rest : List Finding)
deriving DecidableEq, Repr

namespace LoadError

def findings : LoadError → List Finding
  | invalid first rest => first :: rest
  | _ => []

/-- An invalid program is known by its first finding. -/
def diagnostic : LoadError → Diagnostic
  | unreadable .. => .fileUnreadable
  | malformed => .programMalformed
  | unsupportedVersion _ => .versionUnsupported
  | malformedConfig => .configMalformed
  | invalid first _ => first.flaw.diagnostic

def message : LoadError → String
  | unreadable path reason => "failed to read " ++ path ++ ": " ++ reason
  | malformed => "malformed program: not the description of a program"
  | unsupportedVersion found =>
    "unsupported IR version " ++ toString found.toNat ++ " (expected " ++
      toString Program.currentVersion.toNat ++ ")"
  | malformedConfig => "malformed configuration: not the description of a configuration"
  | invalid _ rest =>
    "program failed validation with " ++ toString (rest.length + 1) ++ " error(s)"

end LoadError

namespace Program

def check (p : Program) : Except LoadError Program :=
  if p.version ≠ currentVersion then .error (.unsupportedVersion p.version)
  else
    match p.findings with
    | [] => .ok p
    | first :: rest => .error (.invalid first rest)

def load (text : String) : Except LoadError Program :=
  match decode? text with
  | none => .error .malformed
  | some p => p.check

end Program

end UniqueAccess
