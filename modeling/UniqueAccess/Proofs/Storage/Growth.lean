import UniqueAccess.Proofs.Storage.Ancestors

/-!
# Trees that are grown

A tree can be grown from its root, each new node below one that is already there. Then the links to
parents lead to earlier positions only, and no node is above itself. What the names say is right as
long as there are enough of them: a grown tree is well formed exactly if it has no more nodes than
32 bits can name.
-/

namespace UniqueAccess.StorageTree

open Relation (TransGen)

variable {t : StorageTree} {parent : NodeId} {kind : NodeKind} {dimensions : UInt64}
  {name : Option String}

/-- The root alone, or a grown tree with a child more at one of its nodes. -/
inductive Grown : StorageTree → Prop
  | new : Grown new
  | addChild {t : StorageTree} {parent : NodeId} (kind : NodeKind) (dimensions : UInt64)
      (name : Option String) : Grown t → t.contains parent →
      Grown (t.addChild parent kind dimensions name).2

def childOf (t : StorageTree) (parent : NodeId) (kind : NodeKind) (dimensions : UInt64)
    (name : Option String) : StorageNode :=
  ⟨.ofIndex t.size, kind, some parent, t.makesBitLevel parent, dimensions, name⟩

theorem getElem?_addChild (position : Nat) :
    (t.addChild parent kind dimensions name).2.nodes[position]? =
      if position = t.size then some (t.childOf parent kind dimensions name)
      else t.nodes[position]? :=
  Array.getElem?_push

theorem getElem?_new {position : Nat} {node : StorageNode} (h : new.nodes[position]? = some node) :
    position = 0 ∧ node = { id := root, kind := .root, name := some "root" } := by
  cases position with
  | zero => exact ⟨rfl, (Option.some.inj h).symm⟩
  | succ position => simp [new] at h

theorem Grown.name_eq (h : Grown t) {position : Nat} {node : StorageNode}
    (hnode : t.nodes[position]? = some node) : node.id = .ofIndex position := by
  induction h with
  | new =>
    obtain ⟨rfl, rfl⟩ := getElem?_new hnode
    rfl
  | addChild kind dimensions name _ _ ih =>
    rw [getElem?_addChild] at hnode
    split at hnode
    · next hlast =>
      obtain rfl := Option.some.inj hnode
      rw [hlast]
      rfl
    · exact ih hnode

theorem Grown.parent_index_lt (h : Grown t) {position : Nat} {node : StorageNode}
    (hnode : t.nodes[position]? = some node) {parent : NodeId}
    (hparent : node.parent = some parent) :
    parent.index < position := by
  induction h with
  | new =>
    obtain ⟨_, rfl⟩ := getElem?_new hnode
    cases hparent
  | addChild kind dimensions name _ hcontains ih =>
    rw [getElem?_addChild] at hnode
    split at hnode
    · next hlast =>
      obtain rfl := Option.some.inj hnode
      obtain rfl := Option.some.inj hparent
      exact hlast ▸ of_decide_eq_true hcontains
    · exact ih hnode

theorem Grown.index_lt_of_hasParent (h : Grown t) {child parent : NodeId}
    (hlink : t.HasParent child parent) : parent.index < child.index := by
  obtain ⟨node, hnode, hparent⟩ := hasParent_iff.mp hlink
  exact h.parent_index_lt hnode hparent

theorem Grown.index_lt_of_transGen (h : Grown t) {id above : NodeId}
    (hreach : TransGen t.HasParent id above) : above.index < id.index := by
  induction hreach with
  | single hlink => exact h.index_lt_of_hasParent hlink
  | tail _ hlink ih => exact (h.index_lt_of_hasParent hlink).trans ih

theorem Grown.acyclic (h : Grown t) (id : NodeId) : ¬ TransGen t.HasParent id id :=
  fun hcycle => Nat.lt_irrefl _ (h.index_lt_of_transGen hcycle)

theorem Grown.wellFormed_iff (h : Grown t) : t.WellFormed ↔ t.size ≤ UInt32.size := by
  constructor
  · intro hwf
    -- The last node stands where its name says, and names are below that bound.
    by_contra hsize
    have hlt : UInt32.size < t.nodes.size := Nat.lt_of_not_le hsize
    have hnode := Array.getElem?_eq_getElem hlt
    have hindex := hwf.named _ _ hnode
    have hbound : (t.nodes[UInt32.size]).id.index < UInt32.size := UInt32.toNat_lt _
    omega
  · intro hsize
    refine ⟨fun position node hnode => ?_, fun node hmem parent hparent => ?_, h.acyclic⟩
    · have hlt : position < UInt32.size :=
        Nat.lt_of_lt_of_le (Array.getElem?_eq_some_iff.mp hnode).1 hsize
      rw [h.name_eq hnode, nodeId_index_ofIndex hlt]
    · obtain ⟨position, hnode⟩ := Array.mem_iff_getElem?.mp hmem
      have hlt := (Array.getElem?_eq_some_iff.mp hnode).1
      exact decide_eq_true ((h.parent_index_lt hnode hparent).trans hlt)

end UniqueAccess.StorageTree
