import UniqueAccess.Command.Settings

/-!
# Command lines

A command line names a command and gives it a file or a code, options with a value, and flags. They
come in any order; after `--` everything is a plain argument. The value of an option follows it as
the next argument, which must not look like an option itself, or after an equals sign. Options and
flags are given at most once, except for the flag that asks for more log entries. Arguments are
taken one after the other, and the first that does not fit, or asks for help, decides.
-/

namespace UniqueAccess

structure AnalyzeRequest where
  file : String
  config : Option String := none
  task : Option UInt32 := none
  format : Option OutputFormat := none
  dumpProgram : Bool := false
  parallel : Bool := false
  verbosity : Nat := 0
deriving DecidableEq, Repr

inductive Command where
  | analyze (request : AnalyzeRequest)
  | check (file : String)
  | explain (code : Option String)
  | help
  | version
deriving DecidableEq, Repr

-- ---------------------------------------------------------------------------
-- Arguments
-- ---------------------------------------------------------------------------

inductive Argument where
  | plain (text : String)
  | long (name : String) (value : Option String)
  | short (letters : List Char)
  | separator
deriving DecidableEq, Repr

def Argument.ofString (s : String) : Argument :=
  match s.toList with
  | ['-', '-'] => .separator
  | '-' :: '-' :: rest =>
    let name := String.ofList (rest.takeWhile (· ≠ '='))
    match rest.dropWhile (· ≠ '=') with
    | [] => .long name none
    | _ :: value => .long name (some (String.ofList value))
  | '-' :: c :: rest => .short (c :: rest)
  | _ => .plain s

/-- A decimal number with an optional sign that fits in 32 bits. -/
def taskNumber? (s : String) : Option UInt32 :=
  let (negative, ds) := Toml.splitSign s.toList
  match Digit.scan ds with
  | (d :: ds, []) =>
    let n := Digit.valueOf (d :: ds)
    if n = 0 ∨ (negative = false ∧ n < UInt32.size) then some (UInt32.ofNat n) else none
  | _ => none

def path? (s : String) : Option String := if s.isEmpty then none else some s

-- ---------------------------------------------------------------------------
-- The arguments of an analysis
-- ---------------------------------------------------------------------------

structure AnalyzeDraft where
  file : Option String := none
  config : Option String := none
  task : Option UInt32 := none
  format : Option OutputFormat := none
  dumpProgram : Bool := false
  parallel : Bool := false
  verbosity : Nat := 0
deriving DecidableEq, Repr

inductive Step (α : Type) where
  | next (state : α)
  | help
  | wrong
deriving DecidableEq, Repr

def Step.ofOption {α : Type} : Option α → Step α
  | some a => .next a
  | none => .wrong

namespace AnalyzeDraft

def optionNames : List String := ["config", "task", "format"]

def setOption (d : AnalyzeDraft) (name value : String) : Step AnalyzeDraft :=
  match name with
  | "config" =>
    if d.config.isSome then .wrong
    else .ofOption ((path? value).map fun v => { d with config := some v })
  | "task" =>
    if d.task.isSome then .wrong
    else .ofOption ((taskNumber? value).map fun v => { d with task := some v })
  | "format" =>
    if d.format.isSome then .wrong
    else .ofOption ((OutputFormat.ofName? value).map fun v => { d with format := some v })
  | _ => .wrong

def setFlag (d : AnalyzeDraft) (name : String) : Step AnalyzeDraft :=
  match name with
  | "dump-ir" => if d.dumpProgram then .wrong else .next { d with dumpProgram := true }
  | "parallel" => if d.parallel then .wrong else .next { d with parallel := true }
  | "verbose" => .next { d with verbosity := d.verbosity + 1 }
  | "help" => .help
  | _ => .wrong

def setLetters (d : AnalyzeDraft) : List Char → Step AnalyzeDraft
  | [] => .next d
  | 'v' :: rest => setLetters { d with verbosity := d.verbosity + 1 } rest
  | 'h' :: _ => .help
  | _ => .wrong

def setFile (d : AnalyzeDraft) (text : String) : Step AnalyzeDraft :=
  if d.file.isSome then .wrong
  else .ofOption ((path? text).map fun file => { d with file := some file })

def request? (d : AnalyzeDraft) : Option AnalyzeRequest :=
  d.file.map fun file =>
    { file, config := d.config, task := d.task, format := d.format, dumpProgram := d.dumpProgram,
      parallel := d.parallel, verbosity := d.verbosity }

def finish (d : AnalyzeDraft) : Option Command := d.request?.map .analyze

def andThen (step : Step AnalyzeDraft) (rest : AnalyzeDraft → Option Command) : Option Command :=
  match step with
  | .next d => rest d
  | .help => some .help
  | .wrong => none

/-- Reads arguments; after a separator all of them are plain. -/
def read (separated : Bool) (d : AnalyzeDraft) : List String → Option Command
  | [] => d.finish
  | s :: rest =>
    match if separated then .plain s else Argument.ofString s with
    | .plain text => andThen (d.setFile text) (read separated · rest)
    | .short letters => andThen (d.setLetters letters) (read separated · rest)
    | .separator => read true d rest
    | .long name (some value) => andThen (d.setOption name value) (read separated · rest)
    | .long name none =>
      if optionNames.contains name then
        match rest with
        | [] => none
        | value :: rest =>
          match Argument.ofString value with
          | .plain text => andThen (d.setOption name text) (read separated · rest)
          | _ => none
      else andThen (d.setFlag name) (read separated · rest)

end AnalyzeDraft

-- ---------------------------------------------------------------------------
-- Commands
-- ---------------------------------------------------------------------------

def readSingle (finish : Option String → Option Command) (accept : String → Option String)
    (separated : Bool) (found : Option String) : List String → Option Command
  | [] => finish found
  | s :: rest =>
    match if separated then .plain s else Argument.ofString s with
    | .plain text =>
      if found.isSome then none
      else
        match accept text with
        | some text => readSingle finish accept separated (some text) rest
        | none => none
    | .separator => readSingle finish accept true found rest
    | .long "help" none => some .help
    | .short ('h' :: _) => some .help
    | _ => none

def commandNames : List String := ["analyze", "check", "explain", "help"]

namespace Command

def ofArguments? : List String → Option Command
  | [] => none
  | "analyze" :: rest => AnalyzeDraft.read false {} rest
  | "check" :: rest => readSingle (·.map .check) path? false none rest
  | "explain" :: rest => readSingle (some <| .explain ·) some false none rest
  | "help" :: [] => some .help
  | "help" :: name :: [] => if commandNames.contains name then some .help else none
  | s :: _ =>
    match Argument.ofString s with
    | .long "help" none => some .help
    | .long "version" none => some .version
    | .short ('h' :: _) => some .help
    | .short ('V' :: _) => some .version
    | _ => none

end Command

end UniqueAccess
