import UniqueAccess.Access.Pointers

/-!
# Packed containers that each iteration accesses at a place of its own

The fields of a bit-struct share its words: to write one of them is to read and write them all. A
container is uniquely accessed if all its accessed fields are, at the same coordinates. The entries
of the fields are folded into one entry of their container, the first of them being the
representative; a container without one stays so. Only tasks whose iterations run in parallel are
looked at.
-/

namespace UniqueAccess

abbrev PackedAccess := OrderedMap StmtId AccessMap

inductive FieldVerdict where
  | opens
  | agrees
  /-- Not certainly the same coordinates. -/
  | disagrees (representative field : StmtId)
  /-- The field or the container is refuted already. -/
  | settled
deriving DecidableEq, Repr

def AccessMap.recordField (m : AccessMap) (container : NodeId) (entry : Option StmtId) :
    FieldVerdict → AccessMap
  | .opens => m.insert container entry
  | .agrees => m
  | .disagrees .. => m.insert container none
  | .settled => m.insert container none

namespace Program

/-- The container whose words hold a node; nothing if the node has words of its own. -/
def packedInto (p : Program) (node : NodeId) : Except AccessError (Option NodeId) := do
  if (← p.requireNode node).isBitLevel then
    match p.storage.container? node with
    | some container => return some container
    | none => throw (.orphanField node)
  else return none

def compareFields (p : Program) (o : AliasOracle) (container : NodeId)
    (representative field : StmtId) : Except AccessError FieldVerdict := do
  let indices ← p.requireIndices field
  let indices' ← p.requireIndices representative
  if indices.length ≠ indices'.length then
    throw (.arityMismatch container representative field indices'.length indices.length)
  if allSame o.sameValue indices indices' then return .agrees
  else return .disagrees representative field

def judgeField (p : Program) (o : AliasOracle) (m : AccessMap) (container : NodeId)
    (entry : Option StmtId) : Except AccessError FieldVerdict :=
  match m.get? container, entry with
  | none, _ => .ok .opens
  | some (some representative), some field => p.compareFields o container representative field
  | some _, _ => .ok .settled

def recordField (p : Program) (o : AliasOracle) (m : AccessMap)
    (access : NodeId × Option StmtId) : Except AccessError AccessMap := do
  let (node, entry) := access
  match ← p.packedInto node with
  | none => return m
  | some container =>
    return m.recordField container entry (← p.judgeField o m container entry)

def packedContainers (p : Program) (o : AliasOracle) (task : StmtId) :
    Except AccessError AccessMap := do
  (← p.uniquePointers o task).entries.foldlM (p.recordField o) .empty

def parallelTasks (p : Program) : List StmtId :=
  p.tasks.filter fun task =>
    match p.stmt? task with
    | some (.task kind _ _) => kind.isDataParallel
    | _ => false

/-- The accessed containers of every parallel task; the first task that cannot be analyzed decides
the error, also where tasks are analyzed side by side. -/
def packedAccess (p : Program) (o : AliasOracle) : Except AccessError PackedAccess := do
  return .ofList (← p.parallelTasks.mapM fun task => do return (task, ← p.packedContainers o task))

end Program

end UniqueAccess
