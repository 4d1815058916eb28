import UniqueAccess.Number.Digits

/-!
# Diagnostics

Everything that can go wrong has a number, a category, a description, and sometimes a hint. The
written form of a number is an `E` and at least four digits.
-/

namespace UniqueAccess

inductive Diagnostic where
  | fileUnreadable
  | programMalformed
  | versionUnsupported
  | configMalformed
  | codeUnknown
  | danglingStmt
  | danglingNode
  | operandTooLate
  | ownerNotLoop
  | noCandidates
  | noContainer
  | listedTwice
  | dimensionOutOfRange
  | nodeMisplaced
  | nodeCycle
  | notATask
  | dimensionsUnset
  | arityMismatch
  | containerMissing
  | orphanField
  | stmtMissing
  | nodeMissing
  | notAPointer
deriving DecidableEq, Repr

namespace Diagnostic

def all : List Diagnostic :=
  [.fileUnreadable, .programMalformed, .versionUnsupported, .configMalformed, .codeUnknown,
    .danglingStmt, .danglingNode, .operandTooLate, .ownerNotLoop, .noCandidates, .noContainer,
    .listedTwice, .dimensionOutOfRange, .nodeMisplaced, .nodeCycle, .notATask, .dimensionsUnset,
    .arityMismatch, .containerMissing, .orphanField, .stmtMissing, .nodeMissing, .notAPointer]

def code : Diagnostic → Nat
  | .fileUnreadable => 1001
  | .programMalformed => 1002
  | .versionUnsupported => 1003
  | .configMalformed => 1004
  | .codeUnknown => 1005
  | .danglingStmt => 2001
  | .danglingNode => 2002
  | .operandTooLate => 2003
  | .ownerNotLoop => 2004
  | .noCandidates => 2005
  | .noContainer => 2006
  | .listedTwice => 2007
  | .dimensionOutOfRange => 2008
  | .nodeMisplaced => 2009
  | .nodeCycle => 2010
  | .notATask => 9001
  | .dimensionsUnset => 9002
  | .arityMismatch => 9003
  | .containerMissing => 9004
  | .orphanField => 9005
  | .stmtMissing => 9006
  | .nodeMissing => 9007
  | .notAPointer => 9008

def category (d : Diagnostic) : String :=
  if d.code = 1005 then "Driver"
  else if d.code < 2000 then "Load"
  else if d.code < 9000 then "Validation"
  else "Analysis"

def description : Diagnostic → String
  | .fileUnreadable => "Could not read program file"
  | .programMalformed => "Malformed program description"
  | .versionUnsupported => "Unsupported IR version"
  | .configMalformed => "Malformed configuration file"
  | .codeUnknown => "No such error code"
  | .danglingStmt => "Reference to an unknown statement"
  | .danglingNode => "Reference to an unknown storage node"
  | .operandTooLate => "Operand used before its definition"
  | .ownerNotLoop => "Loop index does not belong to a loop"
  | .noCandidates => "Pointer computation without candidate storage nodes"
  | .noContainer => "Struct-for task without a container storage node"
  | .listedTwice => "Statement appears in more than one block"
  | .dimensionOutOfRange => "Loop index names a dimension its loop does not iterate"
  | .nodeMisplaced => "Storage node id differs from its position in the tree"
  | .nodeCycle => "Storage node parents form a cycle"
  | .notATask => "Per-task analysis invoked on a statement that is not a task boundary"
  | .dimensionsUnset => "Loop dimensionality queried before it was set"
  | .arityMismatch => "Pointers into one bit-struct disagree in index arity"
  | .containerMissing => "Struct-for task has no container storage node"
  | .orphanField => "Bit-level storage node has no physical container"
  | .stmtMissing => "Reference to an unknown statement"
  | .nodeMissing => "Reference to an unknown storage node"
  | .notAPointer => "Representative statement is not a pointer computation"

def help? : Diagnostic → Option String
  | .programMalformed =>
    some "The program must be a JSON object with `snodes`, `stmts` and `root`"
  | .codeUnknown => some "Run `uniqpass explain` without arguments to list every code"
  | .operandTooLate => some "Operands must precede their users in the statement list"
  | .dimensionOutOfRange =>
    some "Serial tasks have no loop dimensions; struct-for tasks have as many as their container"
  | .nodeMisplaced => some "The n-th entry of `snodes.nodes` must have id n"
  | .arityMismatch => some "An upstream pass produced inconsistent pointer computations"
  | _ => none

def ofCode? (n : Nat) : Option Diagnostic := all.find? fun d => d.code == n

-- ---------------------------------------------------------------------------
-- Written codes
-- ---------------------------------------------------------------------------

/-- Any number as a code, whether or not it means something. -/
def formatCode (n : Nat) : String :=
  let ds := Digit.stringOf n
  String.ofList ('E' :: (List.replicate (4 - ds.length) Digit.zero ++ ds).map Digit.toChar)

def number? (s : List Char) : Option Nat :=
  match Digit.scan s with
  | (d :: ds, []) =>
    let n := Digit.valueOf (d :: ds)
    if n < UInt16.size then some n else none
  | _ => none

/-- Reads a written code. Leading zeros are free, and one plus sign may follow the `E`. -/
def parseCode? (s : String) : Option Nat :=
  match s.toList with
  | 'E' :: '+' :: rest => number? rest
  | 'E' :: rest => number? rest
  | _ => none

def ofWritten? (s : String) : Option Diagnostic := (parseCode? s).bind ofCode?

def formatted (d : Diagnostic) : String := formatCode d.code

def entry (d : Diagnostic) : String := d.formatted ++ " [" ++ d.category ++ "]: " ++ d.description

end Diagnostic

end UniqueAccess
