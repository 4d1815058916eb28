import UniqueAccess.Access.Results
import UniqueAccess.Storage.Listing

/-!
# Reports

For every task the accessed nodes and, if the task is parallel, the accessed packed containers, each
with its representative.
-/

namespace UniqueAccess

open Json (Tree)

structure AccessEntry where
  node : NodeId
  label : String
  representative : Option StmtId
deriving DecidableEq, Repr

structure TaskReport where
  task : StmtId
  kind : TaskKind
  dimensions : Nat
  pointers : List AccessEntry
  /-- Missing where the task is serial. -/
  packed : Option (List AccessEntry)
deriving DecidableEq, Repr

structure AccessReport where
  tasks : List TaskReport
deriving DecidableEq, Repr

namespace Program

def accessEntries (p : Program) (m : AccessMap) : List AccessEntry :=
  m.entries.map fun (node, representative) => ⟨node, p.storage.label node, representative⟩

def reportTask (p : Program) (o : AliasOracle) (packed : Option AccessMap) (task : StmtId) :
    Except AccessError TaskReport := do
  let pointers ← p.uniquePointers o task
  return {
    task
    kind := ← p.requireTaskKind task
    dimensions := ← p.taskDimensions task
    pointers := p.accessEntries pointers
    packed := packed.map p.accessEntries }

def reportWith (p : Program) (o : AliasOracle) (packed : PackedAccess) :
    Except AccessError AccessReport := do
  return ⟨← p.tasks.mapM fun task => p.reportTask o (packed.get? task) task⟩

/-- The report on all tasks. Packed containers come from the cache, or else are gathered and kept
there, whatever becomes of the report. -/
def report {π : Type} [PassFamily π] [DecidableEq π] (p : Program) (o : AliasOracle)
    (c : ResultCache (AnyPass π)) : Except AccessError AccessReport × ResultCache (AnyPass π) :=
  let (packed, c) := c.getOrCompute .packedAccess fun _ => p.packedAccess o
  (packed >>= p.reportWith o, c)

/-- The report on one task, whether or not any block lists it. -/
def reportOn (p : Program) (o : AliasOracle) (task : StmtId) : Except AccessError AccessReport := do
  let kind ← p.requireTaskKind task
  let pointers ← p.uniquePointers o task
  let packed ← if kind.isDataParallel then some <$> p.packedContainers o task else pure none
  return ⟨[{
    task
    kind
    dimensions := ← p.taskDimensions task
    pointers := p.accessEntries pointers
    packed := packed.map p.accessEntries }]⟩

end Program

-- ---------------------------------------------------------------------------
-- Text
-- ---------------------------------------------------------------------------

namespace AccessEntry

def line (e : AccessEntry) : String :=
  "    " ++ e.label ++ " -> " ++
    match e.representative with
    | some ptr => ptr.text
    | none => "not unique"

def lines (title : String) (entries : List AccessEntry) : List String :=
  ("  " ++ title ++ ":") :: if entries.isEmpty then ["    (none)"] else entries.map line

end AccessEntry

namespace TaskReport

def lines (t : TaskReport) : List String :=
  ("task " ++ t.task.text ++ " (" ++ t.kind.text ++ ", " ++ toString t.dimensions ++
      " loop dims)") ::
    AccessEntry.lines "pointers" t.pointers ++
    match t.packed with
    | some entries => AccessEntry.lines "bit structs" entries
    | none => []

end TaskReport

def AccessReport.text (r : AccessReport) : String :=
  String.join ((r.tasks.flatMap TaskReport.lines).map (· ++ "\n"))

-- ---------------------------------------------------------------------------
-- JSON
-- ---------------------------------------------------------------------------

def AccessEntry.toTree (e : AccessEntry) : Tree :=
  .ofFields
    [("snode", e.node.toTree), ("label", .ofString e.label),
      ("representative", .ofOption StmtId.toTree e.representative)]

def TaskReport.toTree (t : TaskReport) : Tree :=
  .ofFields
    [("task", t.task.toTree), ("task_type", Labelled.toTree t.kind),
      ("num_loop_indices", .ofNat t.dimensions),
      ("pointers", .ofList AccessEntry.toTree t.pointers),
      ("bit_structs", .ofOption (.ofList AccessEntry.toTree) t.packed)]

def AccessReport.toTree (r : AccessReport) : Tree :=
  .ofFields [("tasks", .ofList TaskReport.toTree r.tasks)]

end UniqueAccess
