import UniqueAccess.Diagnostic
import UniqueAccess.Program.Basic

/-!
# What the analyses cannot work with

An analysis fails only on a program or a question that makes no sense to it. What it merely cannot
prove is part of its result.
-/

namespace UniqueAccess

inductive AccessError where
  | notATask (stmt : StmtId)
  | dimensionsUnset (task : StmtId)
  /-- Two pointers into one container that have different numbers of indices. -/
  | arityMismatch (container : NodeId) (current incoming : StmtId)
      (currentArity incomingArity : Nat)
  | containerMissing (task : StmtId)
  | orphanField (node : NodeId)
  | stmtMissing (id : StmtId)
  | nodeMissing (id : NodeId)
  | notAPointer (stmt : StmtId)
deriving DecidableEq, Repr

namespace AccessError

def diagnostic : AccessError → Diagnostic
  | notATask _ => .notATask
  | dimensionsUnset _ => .dimensionsUnset
  | arityMismatch .. => .arityMismatch
  | containerMissing _ => .containerMissing
  | orphanField _ => .orphanField
  | stmtMissing _ => .stmtMissing
  | nodeMissing _ => .nodeMissing
  | notAPointer _ => .notAPointer

def message : AccessError → String
  | notATask stmt => "statement " ++ stmt.text ++ " is not a task boundary"
  | dimensionsUnset task =>
    "loop dimensionality of task " ++ task.text ++ " queried before it was set"
  | arityMismatch container current incoming currentArity incomingArity =>
    "pointers " ++ current.text ++ " and " ++ incoming.text ++ " into bit-struct " ++
      container.text ++ " have " ++ toString currentArity ++ " and " ++ toString incomingArity ++
      " indices"
  | containerMissing task => "struct-for task " ++ task.text ++ " has no container storage node"
  | orphanField node => "bit-level storage node " ++ node.text ++ " has no physical container"
  | stmtMissing id => "unknown statement " ++ id.text
  | nodeMissing id => "unknown storage node " ++ id.text
  | notAPointer stmt => "statement " ++ stmt.text ++ " is not a pointer computation"

end AccessError

namespace Program

def requireStmt (p : Program) (id : StmtId) : Except AccessError Stmt :=
  match p.stmt? id with
  | some s => .ok s
  | none => .error (.stmtMissing id)

def requireNode (p : Program) (id : NodeId) : Except AccessError StorageNode :=
  match p.storage.get? id with
  | some n => .ok n
  | none => .error (.nodeMissing id)

def requireIndices (p : Program) (ptr : StmtId) : Except AccessError (List StmtId) := do
  match (← p.requireStmt ptr).ptrIndices? with
  | some indices => return indices
  | none => throw (.notAPointer ptr)

def requireTaskKind (p : Program) (task : StmtId) : Except AccessError TaskKind := do
  match ← p.requireStmt task with
  | .task kind _ _ => return kind
  | _ => throw (.notATask task)

def taskDimensions (p : Program) (task : StmtId) : Except AccessError Nat := do
  match ← p.requireStmt task with
  | .task .serial _ _ => return 0
  | .task .rangeFor _ _ => return 1
  | .task .meshFor _ _ => return 1
  | .task .structFor none _ => throw (.containerMissing task)
  | .task .structFor (some container) _ => return (← p.requireNode container).dimensions.toNat
  | _ => throw (.notATask task)

end Program

end UniqueAccess
