import UniqueAccess.Program.Validity

/-!
# Programs under construction

A draft is a program with some of its blocks still open. New statements go to the end of the table
and into the innermost open block; a statement that owns blocks opens the first of them, and closing
a block hands its list to the owner. The top-level block is always open.
-/

namespace UniqueAccess

inductive BlockSlot where
  | body
  | onTrue
  | onFalse
deriving DecidableEq, Repr

/-- The statement with one of its blocks replaced, if it has such a block. -/
def Stmt.withBlock? (items : Block) : BlockSlot → Stmt → Option Stmt
  | .body, .rangeFor first last _ => some (.rangeFor first last items)
  | .body, .task kind container _ => some (.task kind container items)
  | .onTrue, .branch cond _ onFalse => some (.branch cond items onFalse)
  | .onFalse, .branch cond onTrue _ => some (.branch cond onTrue items)
  | _, _ => none

structure OpenBlock where
  owner : StmtId
  slot : BlockSlot
  items : Block
deriving DecidableEq, Repr

structure Draft where
  storage : StorageTree
  stmts : Array Stmt
  /-- The innermost block comes first. -/
  openBlocks : List OpenBlock
  root : Block
deriving DecidableEq, Repr

namespace Draft

def new (storage : StorageTree) : Draft := ⟨storage, #[], [], []⟩

def push (d : Draft) (s : Stmt) : StmtId × Draft :=
  let id := StmtId.ofIndex d.stmts.size
  let d := { d with stmts := d.stmts.push s }
  match d.openBlocks with
  | [] => (id, { d with root := d.root ++ [id] })
  | b :: outer => (id, { d with openBlocks := { b with items := b.items ++ [id] } :: outer })

def openBlock (d : Draft) (owner : StmtId) (slot : BlockSlot) : Draft :=
  { d with openBlocks := ⟨owner, slot, []⟩ :: d.openBlocks }

def begin (d : Draft) (s : Stmt) (slot : BlockSlot) : StmtId × Draft :=
  let (id, d) := d.push s
  (id, d.openBlock id slot)

def handOver? (stmts : Array Stmt) (b : OpenBlock) : Option (Array Stmt) := do
  let s ← stmts[b.owner.index]?
  let s ← s.withBlock? b.items b.slot
  return stmts.setIfInBounds b.owner.index s

/-- Closes the innermost block if it fills one of the given slots, and gives its owner. -/
def close? (d : Draft) (slots : List BlockSlot) : Option StmtId × Draft :=
  match d.openBlocks with
  | [] => (none, d)
  | b :: outer =>
    if slots.contains b.slot then
      match handOver? d.stmts b with
      | none => (none, { d with openBlocks := outer })
      | some stmts => (some b.owner, { d with stmts, openBlocks := outer })
    else (none, d)

-- ---------------------------------------------------------------------------
-- Statements with blocks
-- ---------------------------------------------------------------------------

def beginTask (d : Draft) (kind : TaskKind) (container : Option NodeId) : StmtId × Draft :=
  d.begin (.task kind container []) .body

def endTask (d : Draft) : Option StmtId × Draft := d.close? [.body]

def beginBranch (d : Draft) (cond : StmtId) : StmtId × Draft :=
  d.begin (.branch cond [] []) .onTrue

def beginElse (d : Draft) : Option StmtId × Draft :=
  match d.close? [.onTrue] with
  | (none, d) => (none, d)
  | (some owner, d) => (some owner, d.openBlock owner .onFalse)

def endBranch (d : Draft) : Option StmtId × Draft := d.close? [.onTrue, .onFalse]

def beginRangeFor (d : Draft) (first last : StmtId) : StmtId × Draft :=
  d.begin (.rangeFor first last []) .body

def endRangeFor (d : Draft) : Option StmtId × Draft := d.close? [.body]

-- ---------------------------------------------------------------------------
-- Finishing
-- ---------------------------------------------------------------------------

/-- Closes all blocks, the innermost first, and gives the table and the top-level block. A block that
cannot be handed over takes the one around it along. -/
def closeAll (stmts : Array Stmt) (root : Block) : List OpenBlock → Array Stmt × Block
  | [] => (stmts, root)
  | b :: outer =>
    match handOver? stmts b, outer with
    | some stmts, outer => closeAll stmts root outer
    | none, _ :: outer => closeAll stmts root outer
    | none, [] => (stmts, [])

def finishUnchecked (d : Draft) : Program :=
  let (stmts, root) := closeAll d.stmts d.root d.openBlocks
  ⟨Program.currentVersion, d.storage, stmts, root⟩

def finish (d : Draft) : Except (List Finding) Program :=
  let p := d.finishUnchecked
  if p.isValid then .ok p else .error p.findings

end Draft

end UniqueAccess
