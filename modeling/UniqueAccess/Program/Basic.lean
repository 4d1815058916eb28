import UniqueAccess.Stmt.Basic
import UniqueAccess.Storage.Basic

/-!
# Programs

A program is a storage tree, a table of statements, and the block of statements at its top level.
Statements are named by their position in the table; a statement runs only if some block lists it.

A walk meets the statements of a block in order, each before the statements of the blocks it owns.
Blocks may list a name without a statement; the walk meets the name and goes on. They may also lead
back into themselves, and then the walk has no end: `trail?` has a value exactly for walks that end,
because a walk that is nested deeper than the table is long has entered some block twice.
-/

namespace UniqueAccess

structure Program where
  version : UInt32
  storage : StorageTree
  stmts : Array Stmt
  root : Block
deriving DecidableEq, Repr

namespace Program

def currentVersion : UInt32 := 1

def size (p : Program) : Nat := p.stmts.size

def stmt? (p : Program) (id : StmtId) : Option Stmt := p.stmts[id.index]?

end Program

-- ---------------------------------------------------------------------------
-- Walks
-- ---------------------------------------------------------------------------

inductive WalkScope where
  /-- Past it: the walk stays inside its own task. -/
  | taskLocal
  /-- Into its body. -/
  | everything
deriving DecidableEq, Repr

namespace Program

def nested (scope : WalkScope) (s : Stmt) : Block :=
  if s.isTask && scope == .taskLocal then [] else s.blocks.flatten

/-- The names that a walk through a block meets, in order, nested at most `fuel` deep. -/
def trailWithin? (p : Program) (scope : WalkScope) : Nat → Block → Option (List StmtId)
  | 0, b => if b.isEmpty then some [] else none
  | fuel + 1, b =>
    List.flatten <$> b.mapM fun id =>
      match p.stmt? id with
      | none => some [id]
      | some s => (trailWithin? p scope fuel (nested scope s)).map (id :: ·)

def trail? (p : Program) (scope : WalkScope) (b : Block) : Option (List StmtId) :=
  p.trailWithin? scope (p.size + 1) b

/-- The names that the walk through a block meets; none if it does not end. -/
def trail (p : Program) (scope : WalkScope) (b : Block) : List StmtId := (p.trail? scope b).getD []

def visit? (p : Program) (id : StmtId) : Option (StmtId × Stmt) := (p.stmt? id).map (id, ·)

def visits (p : Program) (scope : WalkScope) (b : Block) : List (StmtId × Stmt) :=
  (p.trail scope b).filterMap p.visit?

def taskBody (p : Program) (task : StmtId) : Block :=
  match p.stmt? task with
  | some (.task _ _ body) => body
  | _ => []

/-- The statements that run as part of a task and of no task inside it. -/
def taskVisits (p : Program) (task : StmtId) : List (StmtId × Stmt) :=
  p.visits .taskLocal (p.taskBody task)

def tasks (p : Program) : List StmtId :=
  ((p.visits .everything p.root).filter fun (_, s) => s.isTask).map Prod.fst

end Program

end UniqueAccess
