import UniqueAccess.Proofs.Stmt.Constant
import UniqueAccess.Stmt.Json

/-!
# Statements that are read back

A statement is read back from its record exactly if the constant in it is, if there is one
(`ofTree?_toTree`).
-/

namespace UniqueAccess

open Json (Tree Fields)

-- ---------------------------------------------------------------------------
-- Labels and names
-- ---------------------------------------------------------------------------

theorem ofLabel?_unaryOp (op : UnaryOp) : Labelled.ofLabel? (Labelled.label op) = some op := by
  cases op <;> rfl

theorem ofLabel?_binaryOp (op : BinaryOp) : Labelled.ofLabel? (Labelled.label op) = some op := by
  cases op <;> rfl

theorem ofLabel?_atomicOp (op : AtomicOp) : Labelled.ofLabel? (Labelled.label op) = some op := by
  cases op <;> rfl

theorem ofLabel?_nodeOp (op : NodeOp) : Labelled.ofLabel? (Labelled.label op) = some op := by
  cases op <;> rfl

theorem ofLabel?_taskKind (kind : TaskKind) :
    Labelled.ofLabel? (Labelled.label kind) = some kind := by
  cases kind <;> rfl

theorem StmtId.ofTree?_toTree (id : StmtId) : ofTree? id.toTree = some id := by
  have hlt : id.index < UInt32.size := id.number.toNat_lt
  rw [ofTree?, toTree, Tree.nat?_ofNat hlt (by decide)]
  simp [ofIndex, index]

theorem NodeId.ofTree?_toTree (id : NodeId) : ofTree? id.toTree = some id := by
  have hlt : id.index < UInt32.size := id.number.toNat_lt
  rw [ofTree?, toTree, Tree.nat?_ofNat hlt (by decide)]
  simp [ofIndex, index]

theorem Block.ofTree?_toTree (b : Block) : ofTree? (toTree b) = some b :=
  Tree.list?_ofList.mpr fun id _ => id.ofTree?_toTree

theorem StmtId.index_le (id : StmtId) : id.index ≤ Numeral.maxSignificand :=
  id.number.toNat_lt.le.trans (by decide)

theorem NodeId.index_le (id : NodeId) : id.index ≤ Numeral.maxSignificand :=
  id.number.toNat_lt.le.trans (by decide)

theorem StmtId.plain_toTree (id : StmtId) : id.toTree.Plain := Tree.plain_ofNat id.index_le

theorem NodeId.plain_toTree (id : NodeId) : id.toTree.Plain := Tree.plain_ofNat id.index_le

theorem Block.plain_toTree (b : Block) : (toTree b).Plain := Tree.plain_ofList StmtId.index_le b

namespace Stmt

def constant? : Stmt → Option Constant
  | const value => some value
  | _ => none

-- ---------------------------------------------------------------------------
-- Fields
-- ---------------------------------------------------------------------------

theorem fieldNames?_toFields (s : Stmt) :
    fieldNames? s.toFields.1 = some (s.toFields.2.map Prod.fst) := by
  cases s <;> rfl

theorem nodup_toFields (s : Stmt) : (s.toFields.2.map Prod.fst).Nodup := by
  cases s <;> simp [toFields]

theorem op_notMem_toFields (s : Stmt) : "op" ∉ s.toFields.2.map Prod.fst := by
  cases s <;> simp [toFields]

theorem ofFields?_toFields (s : Stmt) :
    ofFields? s.toFields.1 s.toFields.2 = some s ↔ ∀ c ∈ s.constant?, c.Lasts := by
  have hstmt := StmtId.ofTree?_toTree
  have hblock := Block.ofTree?_toTree
  have hvalue (o : Option StmtId) := Tree.nullable?_ofOption nofun hstmt o
  have hcontainer (o : Option NodeId) := Tree.nullable?_ofOption nofun NodeId.ofTree?_toTree o
  cases s with
  | const value =>
    simp [ofFields?, toFields, constant?, Constant.Lasts, Option.bind_eq_some_iff]
  | unary op operand =>
    simp [ofFields?, toFields, constant?, operator?,
      Labelled.ofTree?_toTree (ofLabel?_unaryOp op), hstmt]
  | binary op lhs rhs =>
    simp [ofFields?, toFields, constant?, operator?,
      Labelled.ofTree?_toTree (ofLabel?_binaryOp op), hstmt]
  | loopIndex owner dimension =>
    have hdimension := Tree.nat?_ofNat dimension.toNat_lt le_rfl
    simp [ofFields?, toFields, constant?, hstmt, hdimension]
  | loopUnique input => simp [ofFields?, toFields, constant?, hstmt]
  | globalPtr candidates indices =>
    have hcandidates := Tree.list?_ofList.mpr fun id (_ : id ∈ candidates) => id.ofTree?_toTree
    have hindices := Tree.list?_ofList.mpr fun id (_ : id ∈ indices) => hstmt id
    simp [ofFields?, toFields, constant?, hcandidates, hindices]
  | globalLoad src => simp [ofFields?, toFields, constant?, hstmt]
  | globalStore dest value => simp [ofFields?, toFields, constant?, hstmt]
  | atomic op dest value =>
    simp [ofFields?, toFields, constant?, operator?,
      Labelled.ofTree?_toTree (ofLabel?_atomicOp op), hstmt]
  | nodeOp op node ptr value =>
    simp [ofFields?, toFields, constant?, operator?,
      Labelled.ofTree?_toTree (ofLabel?_nodeOp op), hstmt, NodeId.ofTree?_toTree, hvalue]
  | branch cond onTrue onFalse => simp [ofFields?, toFields, constant?, hstmt, hblock]
  | rangeFor first last body => simp [ofFields?, toFields, constant?, hstmt, hblock]
  | task kind container body =>
    simp [ofFields?, toFields, constant?, operator?,
      Labelled.ofTree?_toTree (ofLabel?_taskKind kind), hcontainer, hblock]

theorem plain_toFields {s : Stmt} (h : ∀ c ∈ s.constant?, c.Lasts) :
    ∀ field ∈ s.toFields.2, field.2.Plain := by
  have hlabel := Tree.plain_ofString
  have hstmt := StmtId.plain_toTree
  have hnode := NodeId.plain_toTree
  have hblock := Block.plain_toTree
  have hstmts (ids : List StmtId) : (Tree.ofList StmtId.toTree ids).Plain := hblock ids
  have hnodes (ids : List NodeId) : (Tree.ofList NodeId.toTree ids).Plain :=
    Tree.plain_ofList NodeId.index_le ids
  have hvalue (o : Option StmtId) := Tree.plain_ofOption hstmt o
  have hcontainer (o : Option NodeId) := Tree.plain_ofOption hnode o
  cases s with
  | const value =>
    have hlasts : value.Lasts := h value rfl
    simp only [toFields, List.forall_mem_singleton]
    exact ⟨value.writable_toTree, hlasts.isMeaningful, value.depth_toTree_le⟩
  | loopIndex owner dimension =>
    have hdimension := Tree.plain_ofNat (Nat.le_sub_one_of_lt dimension.toNat_lt)
    simp [toFields, hstmt, hdimension]
  | _ =>
    simp [toFields, Labelled.toTree, hlabel, hstmt, hnode, hblock, hstmts, hnodes, hvalue,
      hcontainer]

theorem eq_const_of_constant? {s : Stmt} {c : Constant} (h : s.constant? = some c) :
    s = const c := by
  cases s with
  | const value => exact congrArg const (Option.some.inj h)
  | _ => cases h

theorem writable_toTree (s : Stmt) : s.toTree.Writable := by
  refine Tree.writable_ofFields.mpr (List.forall_mem_cons.mpr ⟨Tree.writable_ofString _, ?_⟩)
  intro field hfield
  cases hconstant : s.constant? with
  | none => exact (plain_toFields (by simp [hconstant]) field hfield).writable
  | some c =>
    obtain rfl := eq_const_of_constant? hconstant
    obtain rfl := List.mem_singleton.mp hfield
    exact c.writable_toTree

-- ---------------------------------------------------------------------------
-- Records
-- ---------------------------------------------------------------------------

theorem splitForm?_ofFields {form : String} {fields : List (String × Tree)}
    (h : "op" ∉ fields.map Prod.fst) :
    splitForm? ((some "op", .ofString form) :: fields.map fun (name, value) => (some name, value)) =
      some (form, fields.map fun (name, value) => (some name, value)) := by
  have hother : ∀ member ∈ fields.map fun (name, value) => (some name, value),
      (member.1 == some "op") = false := by
    intro member hmember
    obtain ⟨field, hfield, rfl⟩ := List.mem_map.mp hmember
    have hname : field.1 ≠ "op" := fun hname => h (List.mem_map.mpr ⟨field, hfield, hname⟩)
    simpa using hname
  generalize fields.map (fun (name, value) => (some name, value)) = members at *
  rw [splitForm?, List.partition_eq_filter_filter, List.filter_cons_of_pos rfl,
    List.filter_cons_of_neg (by simp), List.filter_eq_nil_iff.mpr, List.filter_eq_self.mpr]
  · rfl
  · exact fun member hmember => congrArg not (hother member hmember)
  · exact fun member hmember => ne_true_of_eq_false (hother member hmember)

theorem ofMeaningful?_toTree (s : Stmt) :
    ofMeaningful? s.toTree = ofFields? s.toFields.1 s.toFields.2 := by
  have hfields : Fields.ofMembers? (s.toFields.2.map Prod.fst)
      (s.toFields.2.map fun (name, value) => (some name, value)) = some s.toFields.2 :=
    Json.ofMembers?_eq s.nodup_toFields fun _ h => h
  have htree : s.toTree = .object ((some "op", .ofString s.toFields.1) ::
      s.toFields.2.map fun (name, value) => (some name, value)) := rfl
  rw [htree, ofMeaningful?, splitForm?_ofFields s.op_notMem_toFields]
  simp [fieldNames?_toFields, hfields]

/-- A statement is read back exactly if its constant is. -/
theorem ofTree?_toTree {s : Stmt} {outer : Nat} (houter : outer + 2 ≤ Tree.maxDepth) :
    ofTree? outer s.toTree = some s ↔ ∀ c ∈ s.constant?, c.Lasts := by
  rw [← ofFields?_toFields, ← ofMeaningful?_toTree, ofTree?]
  constructor
  · intro h
    split at h
    · exact h
    · cases h
  · intro h
    have hlasts := s.ofFields?_toFields.mp (s.ofMeaningful?_toTree.symm.trans h)
    have hplain := plain_toFields hlasts
    have hmeaningful : s.toTree.isMeaningful := Tree.isMeaningful_ofFields.mpr
      (List.forall_mem_cons.mpr ⟨rfl, fun field hfield => (hplain field hfield).meaningful⟩)
    have hdepth : s.toTree.depth ≤ 1 + 1 := Tree.depth_ofFields_le
      (List.forall_mem_cons.mpr ⟨Nat.zero_le 1, fun field hfield => (hplain field hfield).shallow⟩)
    rw [if_pos, h]
    rw [hmeaningful, Bool.true_and, decide_eq_true_eq]
    omega

theorem ofTree?_of_constant? {s : Stmt} {c : Constant} (hconstant : s.constant? = some c)
    (h : Constant.ofTree? c.toTree = none) (outer : Nat) : ofTree? outer s.toTree = none := by
  obtain rfl := eq_const_of_constant? hconstant
  have hmeaningful : ofMeaningful? (const c).toTree = none := by
    rw [ofMeaningful?_toTree]
    simp [ofFields?, toFields, h]
  rw [ofTree?, hmeaningful, ite_self]

end Stmt

end UniqueAccess
