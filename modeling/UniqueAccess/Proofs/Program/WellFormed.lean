import UniqueAccess.Proofs.Program.Places

/-!
# Well-formed programs

Validity says what it refuses, check by check. `WellFormed` says what it asks for: a storage tree, a
forest of blocks, and conditions on every statement that can be reached from the root. It mentions
neither walks nor the order in which findings are made, and it decides the same programs
(`isValid_iff_wellFormed`), whatever their blocks and parents look like.
-/

namespace UniqueAccess.Program

open Relation (TransGen)

variable {p : Program}

-- ---------------------------------------------------------------------------
-- Statements
-- ---------------------------------------------------------------------------

/-- A loop with its number of indices. There is none for a struct-for task whose container does not
exist. -/
inductive HasDimensions (p : Program) : Stmt → UInt64 → Prop
  | rangeFor {first last : StmtId} {body : Block} : HasDimensions p (.rangeFor first last body) 1
  | serialTask {container : Option NodeId} {body : Block} :
      HasDimensions p (.task .serial container body) 0
  | rangeForTask {container : Option NodeId} {body : Block} :
      HasDimensions p (.task .rangeFor container body) 1
  | meshForTask {container : Option NodeId} {body : Block} :
      HasDimensions p (.task .meshFor container body) 1
  | structForTask {container : NodeId} {node : StorageNode} {body : Block} :
      p.storage.get? container = some node →
      HasDimensions p (.task .structFor (some container) body) node.dimensions

theorem ownedDimensions?_eq_some {s : Stmt} {dimensions : UInt64} :
    p.ownedDimensions? s = some dimensions ↔ p.HasDimensions s dimensions := by
  constructor
  · intro h
    cases s with
    | rangeFor =>
      obtain rfl := Option.some.inj h
      exact .rangeFor
    | task kind container body =>
      cases kind with
      | serial =>
        obtain rfl := Option.some.inj h
        exact .serialTask
      | rangeFor =>
        obtain rfl := Option.some.inj h
        exact .rangeForTask
      | meshFor =>
        obtain rfl := Option.some.inj h
        exact .meshForTask
      | structFor =>
        obtain ⟨node, rfl, hnode⟩ := Option.bind_eq_some_iff.mp h
        obtain ⟨n, hn, rfl⟩ := Option.map_eq_some_iff.mp hnode
        exact .structForTask hn
    | _ => cases h
  · rintro (_ | _ | _ | _ | hnode)
    · rfl
    · rfl
    · rfl
    · rfl
    · simp [ownedDimensions?, StorageTree.dimensions?, hnode]

def HasIndex (p : Program) (owner : StmtId) (dimension : UInt64) : Prop :=
  ∃ loop, p.stmt? owner = some loop ∧ loop.isLoop ∧
    ∀ dimensions, p.HasDimensions loop dimensions → dimension < dimensions

structure StmtWellFormed (p : Program) (id : StmtId) (s : Stmt) : Prop where
  operands : ∀ operand ∈ s.operands,
    (∃ t, p.stmt? operand = some t) ∧ operand.index < id.index
  nodes : ∀ node ∈ s.nodes, p.storage.contains node
  owner : ∀ owner dimension, s = .loopIndex owner dimension → p.HasIndex owner dimension
  candidates : ∀ indices, s ≠ .globalPtr [] indices
  container : ∀ body, s ≠ .task .structFor none body

theorem loopIndexFlaws_eq_nil {owner : StmtId} {dimension : UInt64} :
    p.loopIndexFlaws owner dimension = [] ↔ p.HasIndex owner dimension := by
  simp only [HasIndex, ← ownedDimensions?_eq_some]
  unfold loopIndexFlaws
  cases p.stmt? owner with
  | none => simp
  | some loop =>
    cases hloop : loop.isLoop with
    | false => simp [hloop]
    | true => cases howned : p.ownedDimensions? loop <;> simp [hloop, howned]

theorem formFlaws_eq_nil {s : Stmt} :
    p.formFlaws s = [] ↔
      (∀ owner dimension, s = .loopIndex owner dimension → p.HasIndex owner dimension) ∧
      (∀ indices, s ≠ .globalPtr [] indices) ∧ ∀ body, s ≠ .task .structFor none body := by
  cases s with
  | loopIndex owner dimension =>
    simp only [formFlaws, loopIndexFlaws_eq_nil, Stmt.loopIndex.injEq]
    constructor
    · intro h
      refine ⟨?_, by simp, by simp⟩
      rintro _ _ ⟨rfl, rfl⟩
      exact h
    · rintro ⟨h, _, _⟩
      exact h owner dimension ⟨rfl, rfl⟩
  | globalPtr candidates indices => cases candidates <;> simp [formFlaws]
  | task kind container body => cases kind <;> cases container <;> simp [formFlaws]
  | _ => simp [formFlaws]

theorem stmtFlaws_eq_nil_iff {id : StmtId} {s : Stmt} :
    p.stmtFlaws id s = [] ↔ p.StmtWellFormed id s := by
  simp only [stmtFlaws_eq_nil, operandFlaws_eq_nil, nodeFlaws_eq_nil, formFlaws_eq_nil,
    Option.isSome_iff_exists]
  constructor
  · rintro ⟨hoperands, hnodes, howner, hcandidates, hcontainer⟩
    exact ⟨hoperands, hnodes, howner, hcandidates, hcontainer⟩
  · rintro ⟨hoperands, hnodes, howner, hcandidates, hcontainer⟩
    exact ⟨hoperands, hnodes, howner, hcandidates, hcontainer⟩

-- ---------------------------------------------------------------------------
-- Programs
-- ---------------------------------------------------------------------------

structure WellFormed (p : Program) : Prop where
  storage : p.storage.WellFormed
  known : ∀ id, p.Reachable id → ∃ s, p.stmt? id = some s
  listedOnce : ∀ id, p.Reachable id → ∃! place, p.ListsAt place id
  stmts : ∀ id s, p.Reachable id → p.stmt? id = some s → p.StmtWellFormed id s

/-- Validity decides exactly whether a program is well formed. -/
theorem isValid_iff_wellFormed : p.isValid ↔ p.WellFormed := by
  rw [isValid_iff, StorageTree.flaws_eq_nil]
  constructor
  · rintro ⟨hstorage, l, hl, hnodup, hadmits⟩
    refine ⟨hstorage, ?_, hl.nodup_iff.mp hnodup, ?_⟩
    · intro id hid
      obtain ⟨s, hs, _⟩ := hadmits id (hl.mem_iff.mpr hid)
      exact ⟨s, hs⟩
    · intro id s hid hs
      obtain ⟨s', hs', hflaws⟩ := hadmits id (hl.mem_iff.mpr hid)
      obtain rfl := Option.some.inj (hs'.symm.trans hs)
      exact stmtFlaws_eq_nil_iff.mp hflaws
  · intro h
    obtain ⟨l, hl⟩ := exists_walked fun id hid => not_owns_itself h.listedOnce hid
    refine ⟨h.storage, l, hl, hl.nodup_iff.mpr h.listedOnce, fun id hid => ?_⟩
    have hreach := hl.mem_iff.mp hid
    obtain ⟨s, hs⟩ := h.known id hreach
    exact ⟨s, hs, stmtFlaws_eq_nil_iff.mpr (h.stmts id s hreach hs)⟩

end UniqueAccess.Program
