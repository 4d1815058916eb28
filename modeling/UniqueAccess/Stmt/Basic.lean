import UniqueAccess.Id
import UniqueAccess.Stmt.Constant
import UniqueAccess.Stmt.Operator

/-!
# Statements

A statement reads the values of other statements by name and never owns them. What it does own are
blocks: the branches of a conditional, the body of a loop, the body of a task.
-/

namespace UniqueAccess

inductive Stmt where
  | const (value : Constant)
  | unary (op : UnaryOp) (operand : StmtId)
  | binary (op : BinaryOp) (lhs rhs : StmtId)
  /-- One index of an enclosing loop or task. -/
  | loopIndex (owner : StmtId) (dimension : UInt64)
  /-- The value of `input`, promised to differ between any two iterations of the task. -/
  | loopUnique (input : StmtId)
  | globalPtr (candidates : List NodeId) (indices : List StmtId)
  | globalLoad (src : StmtId)
  | globalStore (dest value : StmtId)
  | atomic (op : AtomicOp) (dest value : StmtId)
  | nodeOp (op : NodeOp) (node : NodeId) (ptr : StmtId) (value : Option StmtId)
  | branch (cond : StmtId) (onTrue onFalse : Block)
  /-- A serial loop inside a task. -/
  | rangeFor (first last : StmtId) (body : Block)
  /-- A task; `container` is what a struct-for task iterates over. -/
  | task (kind : TaskKind) (container : Option NodeId) (body : Block)
deriving DecidableEq, Repr

namespace Stmt

def mnemonic : Stmt → String
  | const .. => "const"
  | unary .. => "unary"
  | binary .. => "binary"
  | loopIndex .. => "loop_index"
  | loopUnique .. => "loop_unique"
  | globalPtr .. => "global_ptr"
  | globalLoad .. => "global_load"
  | globalStore .. => "global_store"
  | atomic .. => "atomic"
  | nodeOp .. => "snode_op"
  | branch .. => "if"
  | rangeFor .. => "range_for"
  | task .. => "offload"

/-- The statements whose values are read; the owner of a loop index is not among them. -/
def operands : Stmt → List StmtId
  | const _ => []
  | unary _ operand => [operand]
  | binary _ lhs rhs => [lhs, rhs]
  | loopIndex .. => []
  | loopUnique input => [input]
  | globalPtr _ indices => indices
  | globalLoad src => [src]
  | globalStore dest value => [dest, value]
  | atomic _ dest value => [dest, value]
  | nodeOp _ _ ptr value => ptr :: value.toList
  | branch cond _ _ => [cond]
  | rangeFor first last _ => [first, last]
  | task .. => []

def blocks : Stmt → List Block
  | branch _ onTrue onFalse => [onTrue, onFalse]
  | rangeFor _ _ body => [body]
  | task _ _ body => [body]
  | _ => []

def nodes : Stmt → List NodeId
  | globalPtr candidates _ => candidates
  | nodeOp _ node _ _ => [node]
  | task _ container _ => container.toList
  | _ => []

def isLoop : Stmt → Bool
  | rangeFor .. => true
  | task .. => true
  | _ => false

def isTask : Stmt → Bool
  | task .. => true
  | _ => false

def isGlobalPtr : Stmt → Bool
  | globalPtr .. => true
  | _ => false

def ptrIndices? : Stmt → Option (List StmtId)
  | globalPtr _ indices => some indices
  | _ => none

end Stmt

end UniqueAccess
