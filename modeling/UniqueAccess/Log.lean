import UniqueAccess.Terminal

/-!
# Log entries

An entry names the part of the program that it comes from. A filter lets entries of its level and of
the more serious levels through. An entry is written as a line, without the control sequences that
names in it may contain.
-/

namespace UniqueAccess

inductive LogLevel where
  | error
  | warn
  | info
  | debug
  | trace
deriving DecidableEq, Repr

namespace LogLevel

/-- The more serious, the lower. -/
def rank : LogLevel → Nat
  | .error => 1
  | .warn => 2
  | .info => 3
  | .debug => 4
  | .trace => 5

def column : LogLevel → String
  | .error => "ERROR"
  | .warn => "WARN "
  | .info => "INFO "
  | .debug => "DEBUG"
  | .trace => "TRACE"

end LogLevel

inductive LogSource where
  | driver
  | program
  | walk
  | validity
  | uniqueness
  | pointers
  | packed
deriving DecidableEq, Repr

def LogSource.text : LogSource → String
  | .driver => "uniqpass"
  | .program => "compiler::ir::program"
  | .walk => "compiler::ir::traversal"
  | .validity => "compiler::ir::validation"
  | .uniqueness => "compiler::analysis::loop_unique"
  | .pointers => "compiler::analysis::uniquely_accessed"
  | .packed => "compiler::analysis::bit_struct"

structure LogEntry where
  level : LogLevel
  source : LogSource
  message : String
deriving DecidableEq, Repr

namespace LogEntry

def line (e : LogEntry) : String :=
  "[" ++ e.level.column ++ "] " ++ e.source.text ++ " - " ++ e.message

/-- What is written for an entry. A sequence that is not closed takes the line break with it. -/
def written (e : LogEntry) : String := Terminal.plainText (e.line ++ "\n")

end LogEntry

/-- The least serious level that is let through; without one nothing is. -/
structure LogFilter where
  threshold : Option LogLevel
deriving DecidableEq, Repr

namespace LogFilter

def admits (f : LogFilter) (level : LogLevel) : Bool :=
  match f.threshold with
  | none => false
  | some threshold => level.rank ≤ threshold.rank

def named : List (String × LogFilter) :=
  [("off", ⟨none⟩), ("error", ⟨some .error⟩), ("warn", ⟨some .warn⟩), ("info", ⟨some .info⟩),
    ("debug", ⟨some .debug⟩), ("trace", ⟨some .trace⟩)]

def ofName? (s : String) : Option LogFilter :=
  named.lookup (String.ofList (s.toList.map Char.toLower))

end LogFilter

end UniqueAccess
