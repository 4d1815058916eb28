import UniqueAccess.Access.Trace
import UniqueAccess.Command.Arguments
import UniqueAccess.Command.FileTree
import UniqueAccess.Program.Listing
import UniqueAccess.Program.Load

/-!
# Running commands

A command is a function of its arguments and of the files that it asks for. What it writes, what it
logs and how it ends are its outcome; where files come from and where text goes to is up to the
caller.
-/

namespace UniqueAccess

inductive Failure where
  | load (error : LoadError)
  | access (error : AccessError)
  | unknownCode (written : String)
deriving DecidableEq, Repr

namespace Failure

def diagnostic : Failure → Diagnostic
  | load e => e.diagnostic
  | access e => e.diagnostic
  | unknownCode _ => .codeUnknown

def message : Failure → String
  | load e => e.message
  | access e => e.message
  | unknownCode written => "unknown error code `" ++ written ++ "`"

def findings : Failure → List Finding
  | load e => e.findings
  | _ => []

def lines (f : Failure) : List String :=
  ("error[" ++ f.diagnostic.formatted ++ "]: " ++ f.message) ::
    f.findings.map ("  " ++ ·.text) ++
    ["  = note: " ++ f.diagnostic.description] ++
    f.diagnostic.help?.toList.map ("  = help: " ++ ·)

def text (f : Failure) : String := String.intercalate "\n" f.lines

end Failure

structure Outcome where
  output : String := ""
  log : List LogEntry := []
  failure : Option Failure := none
deriving DecidableEq, Repr

namespace Outcome

def exitCode (o : Outcome) : Nat := if o.failure.isSome then 1 else 0

def failed (f : Failure) : Outcome := { failure := some f }

def errorText (o : Outcome) : String :=
  String.join (o.log.map LogEntry.written) ++
    match o.failure with
    | some failure => failure.text ++ "\n"
    | none => ""

def filtered (o : Outcome) (f : LogFilter) : Outcome :=
  { o with log := o.log.filter fun e => f.admits e.level }

end Outcome

-- ---------------------------------------------------------------------------
-- Loading
-- ---------------------------------------------------------------------------

def loadLog (file : String) (loaded : Except LoadError Program) : List LogEntry :=
  ⟨.info, .program, "loading program from " ++ file⟩ ::
    match loaded with
    | .error (.invalid _ rest) =>
      [⟨.debug, .validity, "validation found " ++ toString (rest.length + 1) ++ " error(s)"⟩]
    | _ => []

-- ---------------------------------------------------------------------------
-- Analyzing
-- ---------------------------------------------------------------------------

def reportText (format : OutputFormat) (r : AccessReport) : String :=
  match format with
  | .text => r.text
  | .json => r.toTree.indented ++ "\n"

def requestedReport (p : Program) (task : Option UInt32) :
    Except AccessError AccessReport × List LogEntry :=
  let o := p.structuralOracle
  match task with
  | some n => (p.reportOn o ⟨n⟩, p.reportOnLog o ⟨n⟩)
  | none =>
    ((p.report o (.empty : ResultCache (AnyPass Empty))).1, p.reportLog o)

def analyzeProgram (settings : Settings) (r : AnalyzeRequest) (p : Program) : Outcome :=
  let loaded : LogEntry :=
    ⟨.info, .driver, "loaded " ++ r.file ++ " (" ++ toString p.size ++ " statements)"⟩
  let dump := if r.dumpProgram || settings.dumpProgram then p.listing ++ "\n" else ""
  let format := (r.format.or settings.format).getD .text
  let (report, log) := requestedReport p r.task
  match report with
  | .error e => { output := dump, log := loaded :: log, failure := some (.access e) }
  | .ok report => { output := dump ++ reportText format report, log := loaded :: log }

def analyzeText (settings : Settings) (r : AnalyzeRequest) (text : String) : Outcome :=
  let loaded := Program.load text
  let log := loadLog r.file loaded
  let o : Outcome :=
    match loaded with
    | .error e => { log, failure := some (.load e) }
    | .ok p =>
      let o := analyzeProgram settings r p
      { o with log := log ++ o.log }
  o.filtered (settings.logFilter r.verbosity)

-- ---------------------------------------------------------------------------
-- Checking and explaining
-- ---------------------------------------------------------------------------

def checkText (file text : String) : Outcome :=
  match Program.load text with
  | .error e => .failed (.load e)
  | .ok p =>
    { output := "✓ " ++ file ++ ": " ++ toString p.size ++ " statements, " ++
        toString p.storage.size ++ " storage nodes, " ++ toString p.tasks.length ++ " tasks\n" }

/-- Looks up a code, whose letters may be of either case, or lists them all. -/
def explainCode : Option String → Outcome
  | none => { output := String.join (Diagnostic.all.map (·.entry ++ "\n")) }
  | some written =>
    match Diagnostic.ofWritten? (String.ofList (written.toList.map Char.toUpper)) with
    | none => .failed (.unknownCode written)
    | some d =>
      { output := d.entry ++ "\n" ++
          match d.help? with
          | none => ""
          | some help => "help: " ++ help ++ "\n" }

-- ---------------------------------------------------------------------------
-- Commands
-- ---------------------------------------------------------------------------

def usage : String :=
  "Usage: uniqpass <COMMAND>\n\n" ++
  "Commands:\n" ++
  "  analyze <FILE>  Analyze a serialized program\n" ++
  "  check <FILE>    Load and validate a serialized program\n" ++
  "  explain [CODE]  Describe an error code, or list every code\n\n" ++
  "Options of analyze:\n" ++
  "  --config <CONFIG>  Driver configuration (TOML)\n" ++
  "  --task <TASK>      Analyze only the task boundary with this statement id\n" ++
  "  --format <FORMAT>  Output format: text or json\n" ++
  "  --dump-ir          Print the program before the results\n" ++
  "  --parallel         Analyze tasks in parallel\n" ++
  "  -v, --verbose      Increase log verbosity\n"

section

variable {m : Type → Type} [Monad m] (read : String → m (Except ReadFailure String))

def withText (file : String) (work : String → m Outcome) : m Outcome := do
  match ← read file with
  | .error e => return .failed (.load (.unreadable file e.message))
  | .ok text => work text

def analyzeFile (r : AnalyzeRequest) : m Outcome :=
  let goOn (settings : Settings) : m Outcome :=
    withText read r.file fun text => return analyzeText settings r text
  match r.config with
  | none => goOn {}
  | some config =>
    withText read config fun text =>
      match Settings.ofString? text with
      | none => return .failed (.load .malformedConfig)
      | some settings => goOn settings

def Command.run : Command → m Outcome
  | .analyze r => analyzeFile read r
  | .check file => withText read file fun text => return checkText file text
  | .explain code => return explainCode code
  | .help => return { output := usage }
  | .version => return { output := "uniqpass 0.1.0\n" }

end

end UniqueAccess
