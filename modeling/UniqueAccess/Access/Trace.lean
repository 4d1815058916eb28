import UniqueAccess.Access.Report
import UniqueAccess.Log

/-!
# What the analyses report while they work

The entries that an analysis leaves in the log are a function of the same judgements that make up
its result: each is judged again, in the same order, and put into words. Where the analysis fails,
the log ends.
-/

namespace UniqueAccess

namespace Program

/-- One warning for every name without a statement that a walk meets. -/
def walkLog (p : Program) (scope : WalkScope) (b : Block) : List LogEntry :=
  ((p.trail scope b).filter fun id => (p.stmt? id).isNone).map fun id =>
    ⟨.warn, .walk, "walk: skipping unknown statement " ++ id.text⟩

def loopFactsLog (task : StmtId) (f : LoopFacts) : LogEntry :=
  ⟨.trace, .uniqueness, "task " ++ task.text ++ ": " ++ toString f.invariant.length ++
    " invariant, " ++ toString f.tags.size ++ " unique values"⟩

-- ---------------------------------------------------------------------------
-- Pointers
-- ---------------------------------------------------------------------------

def verdictLog (node : NodeId) (ptr : StmtId) : AccessVerdict → List LogEntry
  | .notUnique => [⟨.debug, .pointers, node.text ++ ": " ++ ptr.text ++ " is not loop-unique"⟩]
  | .disagrees representative =>
    [⟨.debug, .pointers, node.text ++ ": " ++ ptr.text ++
      " is not definitely the same address as " ++ representative.text⟩]
  | _ => []

def summaryLog (task : StmtId) (m : AccessMap) : LogEntry :=
  ⟨.debug, .pointers, "task " ++ task.text ++ ": " ++
    toString (m.values.filter Option.isSome).length ++ " of " ++ toString m.size ++
    " accessed storage nodes are uniquely accessed"⟩

def accessLog (p : Program) (o : AliasOracle) (task : StmtId) (f : LoopFacts) (dimensions : Nat)
    (m : AccessMap) : List (StmtId × NodeId) → List LogEntry
  | [] => [summaryLog task m]
  | (ptr, node) :: rest =>
    match p.judge o task f dimensions m ptr node with
    | .error _ => []
    | .ok verdict =>
      verdictLog node ptr verdict ++
        accessLog p o task f dimensions (m.record node ptr verdict) rest

/-- The task is walked twice: for its values and for its pointers. -/
def pointersLog (p : Program) (o : AliasOracle) (task : StmtId) : List LogEntry :=
  match p.taskDimensions task with
  | .error _ => []
  | .ok dimensions =>
    let facts := p.loopFacts task
    let walked := p.walkLog .taskLocal (p.taskBody task)
    walked ++ loopFactsLog task facts :: walked ++
      p.accessLog o task facts dimensions .empty (p.accesses task)

-- ---------------------------------------------------------------------------
-- Packed containers
-- ---------------------------------------------------------------------------

def fieldVerdictLog (container : NodeId) : FieldVerdict → List LogEntry
  | .disagrees representative field =>
    [⟨.debug, .packed, container.text ++ ": fields accessed through " ++ representative.text ++
      " and " ++ field.text ++ " at different coordinates"⟩]
  | _ => []

def fieldLog (p : Program) (o : AliasOracle) (m : AccessMap) :
    List (NodeId × Option StmtId) → List LogEntry
  | [] => []
  | (node, entry) :: rest =>
    match p.packedInto node with
    | .error _ => []
    | .ok none => fieldLog p o m rest
    | .ok (some container) =>
      match p.judgeField o m container entry with
      | .error _ => []
      | .ok verdict =>
        fieldVerdictLog container verdict ++
          fieldLog p o (m.recordField container entry verdict) rest

def containersLog (p : Program) (o : AliasOracle) (task : StmtId) : List LogEntry :=
  p.pointersLog o task ++
    match p.uniquePointers o task with
    | .error _ => []
    | .ok pointers => p.fieldLog o .empty pointers.entries

/-- The log of an analysis of several tasks, which stops at the first that fails. -/
def logUntilFailure {α : Type} (log : StmtId → List LogEntry)
    (analyze : StmtId → Except AccessError α) : List StmtId → List LogEntry
  | [] => []
  | task :: rest =>
    log task ++
      match analyze task with
      | .error _ => []
      | .ok _ => logUntilFailure log analyze rest

-- ---------------------------------------------------------------------------
-- Reports
-- ---------------------------------------------------------------------------

def reportLog (p : Program) (o : AliasOracle) : List LogEntry :=
  logUntilFailure (p.containersLog o) (p.packedContainers o) p.parallelTasks ++
    match p.packedAccess o with
    | .error _ => []
    | .ok _ => logUntilFailure (p.pointersLog o) (p.uniquePointers o) p.tasks

def reportOnLog (p : Program) (o : AliasOracle) (task : StmtId) : List LogEntry :=
  match p.requireTaskKind task with
  | .error _ => []
  | .ok kind =>
    p.pointersLog o task ++
      match p.uniquePointers o task with
      | .error _ => []
      | .ok _ => if kind.isDataParallel then p.containersLog o task else []

end Program

end UniqueAccess
