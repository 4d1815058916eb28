import UniqueAccess.Json.Record

/-!
# Names of statements and storage nodes

Both are positions in a table, written in 32 bits.
-/

namespace UniqueAccess

structure StmtId where
  number : UInt32
deriving DecidableEq, Repr, Inhabited

structure NodeId where
  number : UInt32
deriving DecidableEq, Repr, Inhabited

namespace StmtId

def index (id : StmtId) : Nat := id.number.toNat

/-- The name of a position; positions past 32 bits start again from zero. -/
def ofIndex (i : Nat) : StmtId := ⟨UInt32.ofNat i⟩

def text (id : StmtId) : String := "$" ++ toString id.index

def toTree (id : StmtId) : Json.Tree := .ofNat id.index

def ofTree? (t : Json.Tree) : Option StmtId := (t.nat? UInt32.size).map ofIndex

end StmtId

namespace NodeId

def index (id : NodeId) : Nat := id.number.toNat

def ofIndex (i : Nat) : NodeId := ⟨UInt32.ofNat i⟩

def text (id : NodeId) : String := "S" ++ toString id.index

def toTree (id : NodeId) : Json.Tree := .ofNat id.index

def ofTree? (t : Json.Tree) : Option NodeId := (t.nat? UInt32.size).map ofIndex

end NodeId

abbrev Block := List StmtId

end UniqueAccess
