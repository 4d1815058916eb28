import UniqueAccess.Access.Error
import UniqueAccess.OrderedMap
import UniqueAccess.Program.Basic

/-!
# Values that tell iterations apart

One walk through a task sorts its values. A value is invariant if it is the same in all iterations.
It is tagged if it differs between iterations: `along d` if it is an injective function of the
`d`-th index of the task, `full` if it differs between any two iterations. The other values may do
anything.

The address of a pointer is unique to its iteration if one of its indices is `full`, or if its
indices together cover all dimensions of the task.
-/

namespace UniqueAccess

inductive LoopTag where
  | along (dimension : Nat)
  | full
deriving DecidableEq, Repr

structure LoopFacts where
  invariant : List StmtId
  tags : OrderedMap StmtId LoopTag

namespace LoopFacts

def none : LoopFacts := ⟨[], .empty⟩

def isInvariant (f : LoopFacts) (id : StmtId) : Bool := f.invariant.contains id

def tag? (f : LoopFacts) (id : StmtId) : Option LoopTag := f.tags.get? id

def addInvariant (f : LoopFacts) (id : StmtId) : LoopFacts :=
  { f with invariant := f.invariant.insert id }

def addTag (f : LoopFacts) (id : StmtId) : Option LoopTag → LoopFacts
  | some tag => { f with tags := f.tags.insert id tag }
  | .none => f

/-- The tag of an injective operation on a tagged and an invariant operand. -/
def combinedTag? (f : LoopFacts) (lhs rhs : StmtId) : Option LoopTag :=
  match f.tag? lhs, f.tag? rhs with
  | some tag, .none => if f.isInvariant rhs then some tag else .none
  | .none, some tag => if f.isInvariant lhs then some tag else .none
  | _, _ => .none

def visit (task : StmtId) (f : LoopFacts) (id : StmtId) : Stmt → LoopFacts
  | .const _ => f.addInvariant id
  | .loopIndex owner dimension =>
    if owner = task then f.addTag id (some (.along dimension.toNat)) else f
  | .loopUnique _ => f.addTag id (some .full)
  | .unary op operand =>
    let tag := if op.isInjective then f.tag? operand else .none
    (if f.isInvariant operand then f.addInvariant id else f).addTag id tag
  | .binary op lhs rhs =>
    let tag := if op.isInjectiveInEach then f.combinedTag? lhs rhs else .none
    (if f.isInvariant lhs && f.isInvariant rhs then f.addInvariant id else f).addTag id tag
  | _ => f

def visitAll (task : StmtId) (f : LoopFacts) (visits : List (StmtId × Stmt)) : LoopFacts :=
  visits.foldl (fun f (id, s) => f.visit task id s) f

end LoopFacts

def coveredDimensions (tags : List (Option LoopTag)) : List Nat :=
  (tags.filterMap fun
    | some (.along d) => some d
    | _ => none).eraseDups

def isUniqueAddress (tags : List (Option LoopTag)) (dimensions : Nat) : Bool :=
  tags.contains (some .full) || (coveredDimensions tags).length == dimensions

namespace Program

def loopFacts (p : Program) (task : StmtId) : LoopFacts :=
  LoopFacts.none.visitAll task (p.taskVisits task)

def isUniquePtr (p : Program) (task : StmtId) (f : LoopFacts) (dimensions : Option Nat)
    (ptr : StmtId) : Except AccessError Bool :=
  match dimensions with
  | none => .error (.dimensionsUnset task)
  | some dimensions => do
    let indices ← p.requireIndices ptr
    return isUniqueAddress (indices.map f.tag?) dimensions

end Program

end UniqueAccess
