import UniqueAccess.Diagnostic
import UniqueAccess.Program.Basic

/-!
# Validity

What the analyses expect of a program: a storage tree whose nodes stand where their names say and
whose parents lead upward, and blocks that list every statement once, each using only what stands
before it in the table. `findings` lists every violation: first those of the tree, then those of
the statements in the order in which the blocks list them. A program without findings is valid.
-/

namespace UniqueAccess

inductive Flaw where
  | danglingStmt (referenced : StmtId)
  | danglingNode (referenced : NodeId)
  | operandTooLate (operand : StmtId)
  | ownerNotLoop (owner : StmtId)
  | noCandidates
  | noContainer
  | listedTwice
  | dimensionOutOfRange (owner : StmtId) (dimension dimensions : UInt64)
  | nodeMisplaced (position : Nat) (id : NodeId)
  | nodeCycle (node : NodeId)
deriving DecidableEq, Repr

namespace Flaw

def diagnostic : Flaw → Diagnostic
  | danglingStmt _ => .danglingStmt
  | danglingNode _ => .danglingNode
  | operandTooLate _ => .operandTooLate
  | ownerNotLoop _ => .ownerNotLoop
  | noCandidates => .noCandidates
  | noContainer => .noContainer
  | listedTwice => .listedTwice
  | dimensionOutOfRange .. => .dimensionOutOfRange
  | nodeMisplaced .. => .nodeMisplaced
  | nodeCycle _ => .nodeCycle

def message : Flaw → String
  | danglingStmt referenced => "unknown statement " ++ referenced.text
  | danglingNode referenced => "unknown storage node " ++ referenced.text
  | operandTooLate operand => "operand " ++ operand.text ++ " used before its definition"
  | ownerNotLoop owner => "loop index owner " ++ owner.text ++ " is not a loop"
  | noCandidates => "pointer computation has no candidate storage node"
  | noContainer => "struct-for task has no container storage node"
  | listedTwice => "statement appears in more than one block"
  | dimensionOutOfRange owner dimension dimensions =>
    "loop index " ++ toString dimension.toNat ++ " of " ++ owner.text ++ " out of range (" ++
      toString dimensions.toNat ++ " dimensions)"
  | nodeMisplaced position id =>
    "storage node at position " ++ toString position ++ " has id " ++ id.text
  | nodeCycle node => "storage node " ++ node.text ++ " is its own ancestor"

end Flaw

structure Finding where
  stmt : Option StmtId
  flaw : Flaw
deriving DecidableEq, Repr

namespace Finding

def text (f : Finding) : String :=
  let place :=
    match f.stmt with
    | none => ""
    | some id => "in " ++ id.text ++ ": "
  f.flaw.diagnostic.formatted ++ " " ++ place ++ f.flaw.message

end Finding

-- ---------------------------------------------------------------------------
-- Storage trees
-- ---------------------------------------------------------------------------

namespace StorageTree

def nodeFlaws (t : StorageTree) (position : Nat) (node : StorageNode) : List Flaw :=
  (if node.id.index = position then [] else [.nodeMisplaced position node.id]) ++
    match node.parent with
    | none => []
    | some parent => if t.contains parent then [] else [.danglingNode parent]

/-- Whether at most `fuel` links lead from `current` on to `target`, none of them counting. -/
def climbsTo (t : StorageTree) (target : NodeId) : Nat → Option NodeId → Bool
  | 0, _ => false
  | _ + 1, none => false
  | fuel + 1, some id => id == target || climbsTo t target fuel (t.parent? id)

/-- Whether a node is its own ancestor. A cycle is no longer than the tree. -/
def onCycle (t : StorageTree) (id : NodeId) : Bool := t.climbsTo id t.size (t.parent? id)

def flaws (t : StorageTree) : List Flaw :=
  (t.nodes.toList.zipIdx.flatMap fun (node, position) => t.nodeFlaws position node) ++
    (((List.range t.size).map NodeId.ofIndex).filter t.onCycle).map .nodeCycle

end StorageTree

-- ---------------------------------------------------------------------------
-- Statements
-- ---------------------------------------------------------------------------

namespace Program

def operandFlaws (p : Program) (user : StmtId) (operand : StmtId) : List Flaw :=
  if (p.stmt? operand).isNone then [.danglingStmt operand]
  else if user.index ≤ operand.index then [.operandTooLate operand]
  else []

def nodeFlaws (p : Program) (node : NodeId) : List Flaw :=
  if p.storage.contains node then [] else [.danglingNode node]

def ownedDimensions? (p : Program) : Stmt → Option UInt64
  | .rangeFor .. => some 1
  | .task .serial _ _ => some 0
  | .task .rangeFor _ _ => some 1
  | .task .meshFor _ _ => some 1
  | .task .structFor container _ => container.bind p.storage.dimensions?
  | _ => none

def loopIndexFlaws (p : Program) (owner : StmtId) (dimension : UInt64) : List Flaw :=
  match p.stmt? owner with
  | none => [.danglingStmt owner]
  | some s =>
    if s.isLoop then
      match p.ownedDimensions? s with
      | none => []
      | some dimensions =>
        if dimension < dimensions then [] else [.dimensionOutOfRange owner dimension dimensions]
    else [.ownerNotLoop owner]

def formFlaws (p : Program) : Stmt → List Flaw
  | .loopIndex owner dimension => p.loopIndexFlaws owner dimension
  | .globalPtr [] _ => [.noCandidates]
  | .task .structFor none _ => [.noContainer]
  | _ => []

def stmtFlaws (p : Program) (id : StmtId) (s : Stmt) : List Flaw :=
  s.operands.flatMap (p.operandFlaws id) ++ s.nodes.flatMap p.nodeFlaws ++ p.formFlaws s

-- ---------------------------------------------------------------------------
-- Blocks
-- ---------------------------------------------------------------------------

/-- A place in a block: the statement that owns the block, if any, and the name it lists. -/
abbrev Listed := Option StmtId × StmtId

def listedBy (id : StmtId) (s : Stmt) : List Listed := s.blocks.flatten.map (some id, ·)

def unplaced (p : Program) (placed : List StmtId) : Nat :=
  (List.range p.size).countP fun i => !placed.contains (StmtId.ofIndex i)

theorem countP_lt_of_imp {α : Type} {q r : α → Bool} {l : List α} (h : ∀ a, q a → r a)
    {a : α} (ha : a ∈ l) (hr : r a) (hq : ¬ q a) : l.countP q < l.countP r := by
  induction l with
  | nil => cases ha
  | cons b l ih =>
    have hmono : l.countP q ≤ l.countP r := List.countP_mono_left fun x _ => h x
    rcases List.mem_cons.mp ha with rfl | ha
    · simp [hr, hq]
      omega
    · have hlt := ih ha
      by_cases hb : q b
      · simp [hb, h b hb, hlt]
      · rw [List.countP_cons_of_neg hb, List.countP_cons]
        omega

theorem unplaced_cons (p : Program) (placed : List StmtId) (id : StmtId) :
    p.unplaced (id :: placed) ≤ p.unplaced placed := by
  refine List.countP_mono_left fun i _ hi => ?_
  simp only [List.contains_cons, Bool.not_eq_true', Bool.or_eq_false_iff] at hi
  rw [hi.2]
  rfl

theorem unplaced_cons_of_stmt {p : Program} {placed : List StmtId} {id : StmtId} {s : Stmt}
    (hs : p.stmt? id = some s) (hid : id ∉ placed) :
    p.unplaced (id :: placed) < p.unplaced placed := by
  have hindex : StmtId.ofIndex id.index = id := by
    cases id
    simp [StmtId.ofIndex, StmtId.index]
  have hlt : id.index < p.size := (Array.getElem?_eq_some_iff.mp hs).1
  refine countP_lt_of_imp (fun i hi => ?_) (List.mem_range.mpr hlt) ?_ ?_
  · simp only [List.contains_cons, Bool.not_eq_true', Bool.or_eq_false_iff] at hi
    rw [hi.2]
    rfl
  · simp [hindex, hid]
  · simp [hindex]

/-- The findings of the places still to be looked at, when the names in `placed` have been met
already. A statement is looked at where it is met first, its own blocks right after it. -/
def placeFindings (p : Program) (placed : List StmtId) : List Listed → List Finding
  | [] => []
  | (owner, id) :: rest =>
    if id ∈ placed then ⟨some id, .listedTwice⟩ :: placeFindings p placed rest
    else
      match hs : p.stmt? id with
      | none => ⟨owner, .danglingStmt id⟩ :: placeFindings p (id :: placed) rest
      | some s =>
        (p.stmtFlaws id s).map (⟨some id, ·⟩) ++
          placeFindings p (id :: placed) (listedBy id s ++ rest)
termination_by todo => (p.unplaced placed, todo.length)
decreasing_by
  · exact Prod.Lex.right _ (by simp)
  · rcases Nat.lt_or_eq_of_le (p.unplaced_cons placed id) with h | h
    · exact Prod.Lex.left _ _ h
    · rw [h]
      exact Prod.Lex.right _ (by simp)
  · exact Prod.Lex.left _ _ (unplaced_cons_of_stmt hs ‹_›)

def findings (p : Program) : List Finding :=
  p.storage.flaws.map (⟨none, ·⟩) ++ p.placeFindings [] (p.root.map (none, ·))

def isValid (p : Program) : Bool := p.findings.isEmpty

end Program

end UniqueAccess
