import UniqueAccess.Proofs.Rounds
import Mathlib.Logic.Relation

/-!
# Ancestors

Parents are found by name, and in a tree that was read from a document a name may lead anywhere:
out of the tree, to a node that is not the one of that name, or in a circle. A climb of as many
links as there are nodes finds every circle (`onCycle_iff`), and a tree has no flaws exactly if its
names are positions, its parents are in it, and no node is above itself (`flaws_eq_nil`).
-/

namespace UniqueAccess

/-- A relation over finitely many things that never leads back can be climbed to an end. -/
theorem wellFounded_of_acyclic {α : Type} [Finite α] {r : α → α → Prop}
    (h : ∀ a, ¬ Relation.TransGen r a a) : WellFounded fun b a => Relation.TransGen r a b := by
  have : IsTrans α fun b a => Relation.TransGen r a b := ⟨fun _ _ _ hab hbc => hbc.trans hab⟩
  have : Std.Irrefl fun b a => Relation.TransGen r a b := ⟨h⟩
  exact Finite.wellFounded_of_trans_of_irrefl _

namespace StorageTree

open Relation (ReflTransGen TransGen)

variable {t : StorageTree} {id target : NodeId}

/-- The name leads to a node of the tree, and that node names the parent. -/
def HasParent (t : StorageTree) (child parent : NodeId) : Prop := t.parent? child = some parent

theorem hasParent_iff {parent : NodeId} :
    t.HasParent id parent ↔ ∃ node, t.get? id = some node ∧ node.parent = some parent := by
  simp [HasParent, parent?, Option.bind_eq_some_iff]

theorem contains_iff : t.contains id ↔ ∃ node, t.get? id = some node := by
  constructor
  · intro h
    exact ⟨_, Array.getElem?_eq_getElem (of_decide_eq_true h)⟩
  · rintro ⟨node, hnode⟩
    exact decide_eq_true (Array.getElem?_eq_some_iff.mp hnode).1

theorem contains_iff_ne_none : t.contains id ↔ t.get? id ≠ none :=
  contains_iff.trans Option.ne_none_iff_exists'.symm

theorem HasParent.contains {parent : NodeId} (h : t.HasParent id parent) : t.contains id := by
  obtain ⟨node, hnode, _⟩ := hasParent_iff.mp h
  exact contains_iff.mpr ⟨node, hnode⟩

theorem contains_of_transGen (h : TransGen t.HasParent id target) : t.contains id := by
  obtain ⟨parent, hparent, _⟩ := TransGen.head'_iff.mp h
  exact hparent.contains

def names (t : StorageTree) : List NodeId := (List.range t.size).map NodeId.ofIndex

@[simp] theorem length_names : t.names.length = t.size := by
  simp [names]

theorem nodeId_ofIndex_index (id : NodeId) : NodeId.ofIndex id.index = id := by
  cases id
  simp [NodeId.ofIndex, NodeId.index]

theorem nodeId_index_ofIndex {i : Nat} (h : i < UInt32.size) : (NodeId.ofIndex i).index = i := by
  simp [NodeId.ofIndex, NodeId.index, Nat.mod_eq_of_lt h]

theorem mem_names_of_contains (h : t.contains id) : id ∈ t.names :=
  List.mem_map.mpr ⟨id.index, List.mem_range.mpr (of_decide_eq_true h), nodeId_ofIndex_index id⟩

-- ---------------------------------------------------------------------------
-- Climbing
-- ---------------------------------------------------------------------------

@[simp] theorem climbsTo_none (n : Nat) : t.climbsTo target n none = false := by
  cases n <;> rfl

theorem climbsTo_succ (n : Nat) :
    t.climbsTo target (n + 1) (some id) = (id == target || t.climbsTo target n (t.parent? id)) :=
  rfl

theorem climbsTo_grows {n : Nat} {current : Option NodeId} (h : t.climbsTo target n current) :
    t.climbsTo target (n + 1) current := by
  induction n generalizing current with
  | zero => cases h
  | succ n ih =>
    cases current with
    | none => exact h
    | some id =>
      rw [climbsTo_succ, Bool.or_eq_true] at h ⊢
      exact h.imp_right ih

def climbRounds (t : StorageTree) (target : NodeId) : Rounds NodeId Unit where
  answer n id := if t.climbsTo target n (some id) then some () else none
  grows {n id r} h := by
    split at h
    · next hclimbs => rw [if_pos (climbsTo_grows hclimbs), h]
    · cases h
  determined {m n} h := by
    have hclimb : ∀ current, t.climbsTo target m current = t.climbsTo target n current := by
      intro current
      cases current with
      | none => simp
      | some id =>
        have hid := congrFun h id
        cases hm : t.climbsTo target m (some id) <;> cases hn : t.climbsTo target n (some id) <;>
          simp_all
    funext id
    rw [climbsTo_succ, climbsTo_succ, hclimb]

theorem climbsTo_size {n : Nat} (htarget : t.contains target)
    (h : t.climbsTo target n (some id)) : t.climbsTo target t.size (some id) := by
  have houtside : ∀ n id, id ∉ t.names →
      (t.climbRounds target).answer n id = (t.climbRounds target).answer 0 id := by
    intro n id hid
    have hne : id ≠ target := fun heq => hid (mem_names_of_contains (heq ▸ htarget))
    have hparent : t.parent? id = none := by
      rw [parent?, Option.bind_eq_none_iff]
      exact fun node hnode => absurd (mem_names_of_contains (contains_iff.mpr ⟨node, hnode⟩)) hid
    have hfalse : ∀ n, t.climbsTo target n (some id) = false := by
      intro n
      cases n with
      | zero => rfl
      | succ n => simp [climbsTo_succ, hparent, hne]
    simp only [climbRounds, hfalse]
  have hanswer := (t.climbRounds target).grows_le (Nat.le_max_left n t.size)
    (s := id) (r := ()) (by simp [climbRounds, h])
  rw [(t.climbRounds target).answer_eq houtside (by simp), length_names] at hanswer
  simpa [climbRounds] using hanswer

theorem exists_climbsTo_iff :
    (∃ n, t.climbsTo target n (some id)) ↔ ReflTransGen t.HasParent id target := by
  constructor
  · rintro ⟨n, h⟩
    induction n generalizing id with
    | zero => cases h
    | succ n ih =>
      rw [climbsTo_succ, Bool.or_eq_true, beq_iff_eq] at h
      rcases h with rfl | h
      · exact .refl
      · cases hparent : t.parent? id with
        | none => simp [hparent] at h
        | some parent => exact .head hparent (ih (hparent ▸ h))
  · intro h
    induction h using ReflTransGen.head_induction_on with
    | refl => exact ⟨1, by simp [climbsTo_succ]⟩
    | @head id parent hparent _ ih =>
      obtain ⟨n, hn⟩ := ih
      refine ⟨n + 1, ?_⟩
      rw [climbsTo_succ, show t.parent? id = some parent from hparent, hn, Bool.or_true]

theorem onCycle_iff : t.onCycle id ↔ TransGen t.HasParent id id := by
  rw [TransGen.head'_iff, onCycle]
  constructor
  · intro h
    cases hparent : t.parent? id with
    | none => simp [hparent] at h
    | some parent => exact ⟨parent, hparent, exists_climbsTo_iff.mp ⟨t.size, hparent ▸ h⟩⟩
  · rintro ⟨parent, hparent, hreach⟩
    obtain ⟨n, hn⟩ := exists_climbsTo_iff.mpr hreach
    rw [show t.parent? id = some parent from hparent]
    exact climbsTo_size hparent.contains hn

-- ---------------------------------------------------------------------------
-- Trees without flaws
-- ---------------------------------------------------------------------------

/-- Nodes stand where their names say, and parents lead upward inside the tree. -/
structure WellFormed (t : StorageTree) : Prop where
  named : ∀ (position : Nat) (node : StorageNode), t.nodes[position]? = some node →
    node.id.index = position
  parents : ∀ node ∈ t.nodes, ∀ parent, node.parent = some parent → t.contains parent
  acyclic : ∀ id, ¬ TransGen t.HasParent id id

theorem nodeFlaws_eq_nil {position : Nat} {node : StorageNode} :
    t.nodeFlaws position node = [] ↔
      node.id.index = position ∧ ∀ parent, node.parent = some parent → t.contains parent := by
  rw [nodeFlaws, List.append_eq_nil_iff]
  refine and_congr (by simp) ?_
  cases node.parent with
  | none => simp
  | some parent => simp

theorem flaws_eq_nil : t.flaws = [] ↔ t.WellFormed := by
  simp only [flaws, List.append_eq_nil_iff, List.flatMap_eq_nil_iff, List.map_eq_nil_iff,
    List.filter_eq_nil_iff]
  constructor
  · rintro ⟨hnodes, hcycles⟩
    have hnode : ∀ position node, t.nodes[position]? = some node →
        t.nodeFlaws position node = [] := by
      intro position node h
      refine hnodes (node, position) (List.mk_mem_zipIdx_iff_getElem?.mpr ?_)
      rwa [Array.getElem?_toList]
    refine ⟨fun position node h => (nodeFlaws_eq_nil.mp (hnode position node h)).1, ?_, ?_⟩
    · intro node hmem
      obtain ⟨position, h⟩ := Array.mem_iff_getElem?.mp hmem
      exact (nodeFlaws_eq_nil.mp (hnode position node h)).2
    · intro id hcycle
      exact hcycles id (mem_names_of_contains (contains_of_transGen hcycle))
        (onCycle_iff.mpr hcycle)
  · intro h
    refine ⟨?_, fun id _ hcycle => h.acyclic id (onCycle_iff.mp hcycle)⟩
    rintro ⟨node, position⟩ hmem
    have hget : t.nodes[position]? = some node := by
      rw [← Array.getElem?_toList]
      exact List.mk_mem_zipIdx_iff_getElem?.mp hmem
    exact nodeFlaws_eq_nil.mpr ⟨h.named position node hget,
      h.parents node (Array.mem_of_getElem? hget)⟩

end StorageTree

end UniqueAccess
