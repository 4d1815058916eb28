import UniqueAccess.Log
import UniqueAccess.Toml.Reader

/-!
# Settings

The settings of the command line tool, read from a configuration in three sections. What a
configuration says beside them is passed over, and what it leaves out has its default. A section is
a table, or an array with the values in their fixed order.
-/

namespace UniqueAccess

open Toml (Value Entries)

inductive OutputFormat where
  | text
  | json
deriving DecidableEq, Repr

def OutputFormat.ofName? : String → Option OutputFormat
  | "text" => some .text
  | "json" => some .json
  | _ => none

structure Settings where
  parallelTasks : Bool := false
  logLevel : Option String := none
  format : Option OutputFormat := none
  dumpProgram : Bool := false
deriving DecidableEq, Repr

namespace Toml.Value

def bool? : Value → Option Bool
  | boolean b => some b
  | _ => none

def text? : Value → Option String
  | string s => some s
  | _ => none

def isEmpty : Value → Bool
  | array [] => true
  | table _ [] => true
  | _ => false

/-- A name, bare or as the only one of a table that says nothing more about it. -/
def label? : Value → Option String
  | string s => some s
  | table _ [(name, value)] => if value.isEmpty then some name else none
  | _ => none

/-- The values that a section gives to the names of its settings. A date gives none. -/
def section? (names : List String) : Value → Option Entries
  | table _ entries => some entries
  | array items => some (names.zip items)
  | tables items => some (names.zip (items.map (table .header)))
  | dateTime _ => some []
  | _ => none

end Toml.Value

namespace Settings

def setting {α : Type} (entries : Entries) (name : String) (default : α)
    (decode : Value → Option α) : Option α :=
  match entries.lookup name with
  | none => some default
  | some value => decode value

def sectionOf? (entries : Entries) (name : String) (names : List String) : Option Entries :=
  setting entries name [] (Value.section? names)

def ofEntries? (entries : Entries) : Option Settings := do
  let analysis ← sectionOf? entries "analysis" ["parallel_tasks"]
  let log ← sectionOf? entries "log" ["level"]
  let output ← sectionOf? entries "output" ["format", "dump_ir"]
  let format (v : Value) : Option OutputFormat := v.label?.bind OutputFormat.ofName?
  return {
    parallelTasks := ← setting analysis "parallel_tasks" false Value.bool?
    logLevel := ← setting log "level" none fun v => v.text?.map some
    format := ← setting output "format" none fun v => (format v).map some
    dumpProgram := ← setting output "dump_ir" false Value.bool? }

def ofString? (text : String) : Option Settings := (Entries.ofString? text).bind ofEntries?

/-- What to log, given how often more was asked for. That overrides the configured level; a level
that is not known counts as none. -/
def logFilter (s : Settings) : Nat → LogFilter
  | 0 => ((s.logLevel.bind LogFilter.ofName?)).getD ⟨some .warn⟩
  | 1 => ⟨some .info⟩
  | 2 => ⟨some .debug⟩
  | _ => ⟨some .trace⟩

end Settings

end UniqueAccess
