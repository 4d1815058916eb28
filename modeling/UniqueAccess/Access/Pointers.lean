import UniqueAccess.Access.Alias
import UniqueAccess.Access.Uniqueness

/-!
# Storage nodes that each iteration accesses at a place of its own

A node is uniquely accessed in a task if one pointer has a unique address and all other pointers
that may lead to the node certainly hold the same address. The first pointer that a walk meets is
the representative; a node without a representative has been refuted, and stays so.
-/

namespace UniqueAccess

/-- For every accessed node, in the order of first access, its representative. -/
abbrev AccessMap := OrderedMap NodeId (Option StmtId)

inductive AccessVerdict where
  | claims
  | notUnique
  | agrees
  /-- Not certainly the address of the representative. -/
  | disagrees (representative : StmtId)
  /-- Nothing new about a node that is refuted already. -/
  | settled
deriving DecidableEq, Repr

def AccessMap.record (m : AccessMap) (node : NodeId) (ptr : StmtId) : AccessVerdict → AccessMap
  | .claims => m.insert node (some ptr)
  | .notUnique => m.insert node none
  | .disagrees _ => m.insert node none
  | .agrees => m
  | .settled => m

namespace Program

/-- The pointers of a task with each of their candidates, in the order of the walk. -/
def accesses (p : Program) (task : StmtId) : List (StmtId × NodeId) :=
  (p.taskVisits task).flatMap fun (id, s) =>
    match s with
    | .globalPtr candidates _ => candidates.map (id, ·)
    | _ => []

def judge (p : Program) (o : AliasOracle) (task : StmtId) (f : LoopFacts) (dimensions : Nat)
    (m : AccessMap) (ptr : StmtId) (node : NodeId) : Except AccessError AccessVerdict :=
  match m.get? node with
  | none => do
    if ← p.isUniquePtr task f (some dimensions) ptr then return .claims else return .notUnique
  | some none => .ok .settled
  | some (some representative) =>
    .ok (if o.sameAddress representative ptr then .agrees else .disagrees representative)

def recordAccess (p : Program) (o : AliasOracle) (task : StmtId) (f : LoopFacts) (dimensions : Nat)
    (m : AccessMap) (access : StmtId × NodeId) : Except AccessError AccessMap := do
  let (ptr, node) := access
  return m.record node ptr (← p.judge o task f dimensions m ptr node)

def uniquePointers (p : Program) (o : AliasOracle) (task : StmtId) :
    Except AccessError AccessMap := do
  let dimensions ← p.taskDimensions task
  (p.accesses task).foldlM (p.recordAccess o task (p.loopFacts task) dimensions) .empty

end Program

end UniqueAccess
