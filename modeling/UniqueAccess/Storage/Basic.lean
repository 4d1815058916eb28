import UniqueAccess.Id
import UniqueAccess.Json.Record

/-!
# Storage trees

Nodes are kept in a table and point to their parents. Below a bit-struct all nodes are bit-level:
they share the words of their container and have no address of their own. A tree that is grown node
by node keeps these flags right; one that is read from a document may hold anything.
-/

namespace UniqueAccess

inductive NodeKind where
  | root
  | dense
  | pointer
  | bitmasked
  | dynamic
  /-- A container that packs fields smaller than a word. -/
  | bitStruct
  | place
deriving DecidableEq, Repr

instance : Labelled NodeKind where
  all := [.root, .dense, .pointer, .bitmasked, .dynamic, .bitStruct, .place]
  label
    | .root => "root"
    | .dense => "dense"
    | .pointer => "pointer"
    | .bitmasked => "bitmasked"
    | .dynamic => "dynamic"
    | .bitStruct => "bit_struct"
    | .place => "place"

structure StorageNode where
  id : NodeId
  kind : NodeKind
  parent : Option NodeId := none
  isBitLevel : Bool := false
  /-- The number of indices of a struct-for task over the node. -/
  dimensions : UInt64 := 0
  name : Option String := none
deriving DecidableEq, Repr

structure StorageTree where
  nodes : Array StorageNode
deriving DecidableEq, Repr

namespace StorageTree

def new : StorageTree := ⟨#[{ id := ⟨0⟩, kind := .root, name := some "root" }]⟩

def root : NodeId := ⟨0⟩

def size (t : StorageTree) : Nat := t.nodes.size

def get? (t : StorageTree) (id : NodeId) : Option StorageNode := t.nodes[id.index]?

def contains (t : StorageTree) (id : NodeId) : Bool := id.index < t.size

def parent? (t : StorageTree) (id : NodeId) : Option NodeId := (t.get? id).bind (·.parent)

def isBitLevel (t : StorageTree) (id : NodeId) : Bool := ((t.get? id).map (·.isBitLevel)).getD false

def dimensions? (t : StorageTree) (id : NodeId) : Option UInt64 := (t.get? id).map (·.dimensions)

-- ---------------------------------------------------------------------------
-- Growing
-- ---------------------------------------------------------------------------

def makesBitLevel (t : StorageTree) (parent : NodeId) : Bool :=
  match t.get? parent with
  | some p => p.kind == .bitStruct || p.isBitLevel
  | none => false

/-- Adds a child, whether or not its parent is in the tree. -/
def addChild (t : StorageTree) (parent : NodeId) (kind : NodeKind) (dimensions : UInt64)
    (name : Option String) : NodeId × StorageTree :=
  let id := NodeId.ofIndex t.size
  let isBitLevel := t.makesBitLevel parent
  (id, ⟨t.nodes.push { id, kind, parent := some parent, isBitLevel, dimensions, name }⟩)

-- ---------------------------------------------------------------------------
-- Ancestors
-- ---------------------------------------------------------------------------

def containerFrom? (t : StorageTree) : Nat → NodeId → Option NodeId
  | 0, _ => none
  | fuel + 1, id => do
    let node ← t.get? id
    if node.isBitLevel then containerFrom? t fuel (← node.parent) else some id

/-- The nearest node at or above `id` that is not bit-level. A chain longer than the tree is a
cycle and has no such node. -/
def container? (t : StorageTree) (id : NodeId) : Option NodeId := t.containerFrom? (t.size + 1) id

end StorageTree

end UniqueAccess
