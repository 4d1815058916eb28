import UniqueAccess.Storage.Basic

/-!
# Listings of storage trees

One line per node in table order, further in by one step for every ancestor.
-/

namespace UniqueAccess

def indentation (level : Nat) : String := String.ofList (List.replicate (2 * level) ' ')

namespace StorageTree

def label (t : StorageTree) (id : NodeId) : String :=
  match t.get? id with
  | none => id.text ++ ":?"
  | some node =>
    id.text ++ ":" ++ Labelled.label node.kind ++
      match node.name with
      | none => ""
      | some name => "(" ++ name ++ ")"

def chainLength (t : StorageTree) : Nat → Option NodeId → Nat
  | 0, _ => 0
  | _, none => 0
  | fuel + 1, some id => chainLength t fuel (t.parent? id) + 1

/-- The number of ancestors; a cycle counts as one more than the tree has nodes. -/
def level (t : StorageTree) (node : StorageNode) : Nat := t.chainLength (t.size + 1) node.parent

def line (t : StorageTree) (node : StorageNode) : String :=
  "; " ++ indentation (t.level node) ++ t.label node.id ++
    (if node.dimensions = 0 then "" else " dims=" ++ toString node.dimensions.toNat) ++
    (if node.isBitLevel then " bit_level" else "")

def listing (t : StorageTree) : String :=
  String.join (t.nodes.toList.map fun node => t.line node ++ "\n")

end StorageTree

end UniqueAccess
