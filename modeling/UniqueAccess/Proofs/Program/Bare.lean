import UniqueAccess.Access.Alias
import UniqueAccess.Access.Error
import UniqueAccess.Program.Validity

/-!
# Programs without their blocks

Blocks decide when statements run, and nothing else. How statements are compared, how many indices a
task has and which flaws a statement has of its own can be read off the table with all blocks
emptied, so that programs which only arrange their statements differently agree in all of that.
-/

namespace UniqueAccess

-- ---------------------------------------------------------------------------
-- Statements
-- ---------------------------------------------------------------------------

namespace Stmt

variable {s t : Stmt}

def bare : Stmt → Stmt
  | branch cond _ _ => branch cond [] []
  | rangeFor first last _ => rangeFor first last []
  | task kind container _ => task kind container []
  | s => s

@[simp] theorem operands_bare : s.bare.operands = s.operands := by
  cases s <;> rfl

@[simp] theorem nodes_bare : s.bare.nodes = s.nodes := by
  cases s <;> rfl

@[simp] theorem isLoop_bare : s.bare.isLoop = s.isLoop := by
  cases s <;> rfl

theorem eq_of_bare_eq (ht : t.blocks = []) (h : s.bare = t) : s = t := by
  subst h
  cases s <;> first | rfl | cases ht

end Stmt

namespace Program

variable {p q : Program} {id task : StmtId} {s t : Stmt}

-- ---------------------------------------------------------------------------
-- Tables
-- ---------------------------------------------------------------------------

def bare (p : Program) : Program where
  version := currentVersion
  storage := p.storage
  stmts := p.stmts.map Stmt.bare
  root := []

@[simp] theorem stmt?_bare : p.bare.stmt? id = (p.stmt? id).map Stmt.bare := by
  simp [stmt?, bare]

theorem stmt?_of_bare_eq (h : p.bare = q.bare) (hs : p.stmt? id = some s) :
    ∃ t, q.stmt? id = some t ∧ t.bare = s.bare := by
  have hbare : (p.stmt? id).map Stmt.bare = (q.stmt? id).map Stmt.bare := by
    rw [← stmt?_bare, ← stmt?_bare, h]
  rw [hs] at hbare
  exact Option.map_eq_some_iff.mp hbare.symm

theorem stmt?_eq_of_bare_eq (h : p.bare = q.bare) (hs : p.stmt? id = some s)
    (hblocks : s.blocks = []) : q.stmt? id = some s := by
  obtain ⟨t, ht, hbare⟩ := stmt?_of_bare_eq h hs
  have hself : s.bare = s := by cases s <;> first | rfl | cases hblocks
  rw [ht, Stmt.eq_of_bare_eq hblocks (hbare.trans hself)]

-- ---------------------------------------------------------------------------
-- Comparisons
-- ---------------------------------------------------------------------------

theorem sameForm?_bare (same : StmtId → StmtId → Option Bool) (s t : Stmt) :
    sameForm? same s.bare t.bare = sameForm? same s t := by
  cases s <;> cases t <;> rfl

theorem compare?_bare : p.bare.compare? = p.compare? := by
  funext same a b
  simp only [compare?, stmt?_bare]
  cases p.stmt? a with
  | none => rfl
  | some s =>
    cases p.stmt? b with
    | none => rfl
    | some t => simp only [Option.map_some, sameForm?_bare]

theorem sameValueWithin?_bare (n : Nat) : p.bare.sameValueWithin? n = p.sameValueWithin? n := by
  induction n with
  | zero => rfl
  | succ n ih =>
    funext a b
    rw [sameValueWithin?, sameValueWithin?, ih, compare?_bare]

theorem sameValue_bare : p.bare.sameValue = p.sameValue := by
  funext a b
  simp only [sameValue, sameValue?, sameValueWithin?_bare]

theorem distinctConstants_bare : p.bare.distinctConstants = p.distinctConstants := by
  funext a b
  simp only [distinctConstants, stmt?_bare]
  cases p.stmt? a with
  | none => rfl
  | some s =>
    cases p.stmt? b with
    | none => cases s <;> rfl
    | some t => cases s <;> cases t <;> rfl

theorem aliasPointers_bare : p.bare.aliasPointers = p.aliasPointers := by
  unfold aliasPointers aliasIndices someDiffer
  rw [distinctConstants_bare]

theorem aliasAnswerBy_bare : p.bare.aliasAnswerBy = p.aliasAnswerBy := by
  funext same a b
  simp only [aliasAnswerBy, stmt?_bare, aliasPointers_bare]
  cases p.stmt? a with
  | none => rfl
  | some s =>
    cases p.stmt? b with
    | none => cases s <;> rfl
    | some t => cases s <;> cases t <;> rfl

theorem structuralOracle_bare : p.bare.structuralOracle = p.structuralOracle := by
  simp only [structuralOracle, oracleBy, sameValue_bare, aliasAnswerBy_bare]

-- ---------------------------------------------------------------------------
-- Tasks
-- ---------------------------------------------------------------------------

theorem taskDimensions_bare : p.bare.taskDimensions = p.taskDimensions := by
  funext task
  simp only [taskDimensions, requireStmt, stmt?_bare]
  cases p.stmt? task with
  | none => rfl
  | some s =>
    cases s with
    | task kind container body => cases kind <;> cases container <;> rfl
    | _ => rfl

-- ---------------------------------------------------------------------------
-- Flaws
-- ---------------------------------------------------------------------------

theorem operandFlaws_bare : p.bare.operandFlaws = p.operandFlaws := by
  funext user operand
  simp [operandFlaws]

theorem ownedDimensions?_bare : p.bare.ownedDimensions? s.bare = p.ownedDimensions? s := by
  cases s with
  | task kind container body => cases kind <;> rfl
  | _ => rfl

theorem loopIndexFlaws_bare : p.bare.loopIndexFlaws = p.loopIndexFlaws := by
  funext owner dimension
  simp only [loopIndexFlaws, stmt?_bare]
  cases p.stmt? owner with
  | none => rfl
  | some s => simp only [Option.map_some, Stmt.isLoop_bare, ownedDimensions?_bare]

theorem formFlaws_bare : p.bare.formFlaws s.bare = p.formFlaws s := by
  cases s with
  | loopIndex owner dimension => simp only [Stmt.bare, formFlaws, loopIndexFlaws_bare]
  | task kind container body => cases kind <;> cases container <;> rfl
  | globalPtr candidates indices => cases candidates <;> rfl
  | _ => rfl

theorem stmtFlaws_bare : p.bare.stmtFlaws id s.bare = p.stmtFlaws id s := by
  simp only [stmtFlaws, Stmt.operands_bare, Stmt.nodes_bare, operandFlaws_bare, formFlaws_bare]
  rfl

end Program

end UniqueAccess
