import UniqueAccess.Program.Basic

/-!
# Equal values and equal addresses

The analyses put two questions about pairs of statements: do they always have the same value, and do
two pointers always hold the same address? An oracle answers both, and may say yes only when it is
certain. The structural oracle judges by form: equal constants, the same index of the same loop, and
equal operators on operands that are equal in turn.

Operands are compared by following names, which may lead in circles. `sameValue?` has an answer
exactly when the comparison ends, because one that is nested deeper than there are pairs of names
has come back to a pair.
-/

namespace UniqueAccess

structure AliasOracle where
  sameAddress : StmtId → StmtId → Bool
  sameValue : StmtId → StmtId → Bool

inductive AliasAnswer where
  | same
  | different
  | uncertain
deriving DecidableEq, Repr

/-- The conjunction of two questions; the second is put only if the first has the answer yes. -/
def bothHold (a : Option Bool) (b : Unit → Option Bool) : Option Bool := do
  if ← a then b () else return false

def eitherHolds (a : Option Bool) (b : Unit → Option Bool) : Option Bool := do
  if ← a then return true else b ()

def allSame (same : StmtId → StmtId → Bool) (items items' : List StmtId) : Bool :=
  (items.zip items').all fun (i, j) => same i j

namespace Program

-- ---------------------------------------------------------------------------
-- Values
-- ---------------------------------------------------------------------------

def sameForm? (same : StmtId → StmtId → Option Bool) : Stmt → Stmt → Option Bool
  | .const v, .const w => some (v.numericallyEqual w)
  | .unary op x, .unary op' x' => if op = op' then same x x' else some false
  | .binary op l r, .binary op' l' r' =>
    if op = op' then
      eitherHolds (bothHold (same l l') fun _ => same r r') fun _ =>
        if op.isCommutative then bothHold (same l r') fun _ => same r l' else some false
    else some false
  | .loopIndex owner dimension, .loopIndex owner' dimension' =>
    some (owner == owner' && dimension == dimension')
  | .loopUnique x, .loopUnique x' => same x x'
  | _, _ => some false

def compare? (p : Program) (same : StmtId → StmtId → Option Bool) (a b : StmtId) : Option Bool :=
  if a = b then some true
  else
    match p.stmt? a, p.stmt? b with
    | some s, some t => sameForm? same s t
    | _, _ => some false

/-- Compares two statements through at most `fuel` levels of operands. -/
def sameValueWithin? (p : Program) : Nat → StmtId → StmtId → Option Bool
  | 0, _, _ => none
  | fuel + 1, a, b => p.compare? (sameValueWithin? p fuel) a b

/-- One level more than there are pairs of names. -/
def comparisonDepth : Nat := UInt32.size * UInt32.size + 1

def sameValue? (p : Program) (a b : StmtId) : Option Bool :=
  p.sameValueWithin? comparisonDepth a b

def sameValue (p : Program) (a b : StmtId) : Bool := (p.sameValue? a b).getD false

-- ---------------------------------------------------------------------------
-- Addresses
-- ---------------------------------------------------------------------------

def distinctConstants (p : Program) (a b : StmtId) : Bool :=
  match p.stmt? a, p.stmt? b with
  | some (.const v), some (.const w) =>
    match v.asInt?, w.asInt? with
    | some x, some y => x != y
    | _, _ => false
  | _, _ => false

def someDiffer (p : Program) (same : StmtId → StmtId → Bool) (indices indices' : List StmtId) :
    Bool :=
  (indices.zip indices').any fun (i, j) => !same i j && p.distinctConstants i j

def aliasIndices (p : Program) (same : StmtId → StmtId → Bool) (indices indices' : List StmtId) :
    AliasAnswer :=
  if indices.length ≠ indices'.length then .uncertain
  else if p.someDiffer same indices indices' then .different
  else if allSame same indices indices' then .same
  else .uncertain

/-- Compares two pointers. One with several candidates is only ever known to differ. -/
def aliasPointers (p : Program) (same : StmtId → StmtId → Bool) (candidates candidates' : List NodeId)
    (indices indices' : List StmtId) : AliasAnswer :=
  match candidates, candidates' with
  | [node], [node'] => if node = node' then p.aliasIndices same indices indices' else .different
  | _, _ => if candidates.any candidates'.contains then .uncertain else .different

def aliasAnswerBy (p : Program) (same : StmtId → StmtId → Bool) (a b : StmtId) : AliasAnswer :=
  if a = b then .same
  else
    match p.stmt? a, p.stmt? b with
    | some (.globalPtr candidates indices), some (.globalPtr candidates' indices') =>
      p.aliasPointers same candidates candidates' indices indices'
    | _, _ => .uncertain

def aliasAnswer (p : Program) (a b : StmtId) : AliasAnswer := p.aliasAnswerBy p.sameValue a b

def oracleBy (p : Program) (same : StmtId → StmtId → Bool) : AliasOracle where
  sameAddress a b := p.aliasAnswerBy same a b == .same
  sameValue := same

def structuralOracle (p : Program) : AliasOracle := p.oracleBy p.sameValue

end Program

end UniqueAccess
