import UniqueAccess.Storage.Basic

/-!
# Storage trees in JSON documents
-/

namespace UniqueAccess

open Json (Tree)

namespace StorageNode

def toTree (n : StorageNode) : Tree :=
  .ofFields
    [("id", n.id.toTree), ("kind", Labelled.toTree n.kind),
      ("parent", .ofOption NodeId.toTree n.parent), ("is_bit_level", .boolean n.isBitLevel),
      ("num_active_indices", .ofNat n.dimensions.toNat), ("name", .ofOption Tree.ofString n.name)]

def fieldNames : List String :=
  ["id", "kind", "parent", "is_bit_level", "num_active_indices", "name"]

def ofTree? (t : Tree) : Option StorageNode := do
  let f ← t.fields? fieldNames
  return {
    id := ← f.required "id" NodeId.ofTree?
    kind := ← f.required "kind" (Labelled.ofTree? Tree.isNull)
    parent := ← f.defaulted "parent" none (Tree.nullable? NodeId.ofTree?)
    isBitLevel := ← f.defaulted "is_bit_level" false Tree.bool?
    dimensions := UInt64.ofNat (← f.defaulted "num_active_indices" 0 (Tree.nat? UInt64.size))
    name := ← f.defaulted "name" none (Tree.nullable? Tree.text?) }

end StorageNode

namespace StorageTree

def toTree (t : StorageTree) : Tree :=
  .ofFields [("nodes", .ofList StorageNode.toTree t.nodes.toList)]

def ofTree? (t : Tree) : Option StorageTree := do
  let f ← t.fields? ["nodes"]
  return ⟨(← f.required "nodes" (Tree.list? StorageNode.ofTree?)).toArray⟩

end StorageTree

end UniqueAccess
