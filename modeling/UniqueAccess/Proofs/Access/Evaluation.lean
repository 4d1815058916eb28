import UniqueAccess.Proofs.Access.Comparison
import UniqueAccess.Proofs.Access.Valuation
import Mathlib.Algebra.Group.Basic
import Mathlib.Algebra.Group.Int.Defs

/-!
# Evaluated statements

Where every statement uses only what stands before it in the table, the values of all statements
follow from those of constants, loop indices and loads. Every choice of these therefore gives
values that obey the laws of an instance.
-/

namespace UniqueAccess

/-- What statements that read no operands are worth, and those that depend on memory. -/
structure Inputs (ν : Type) where
  constant : Constant → ν
  loopIndex : StmtId → UInt64 → ν
  other : StmtId → ν

def Stmt.valueBy (ops : Operators ν) (inputs : Inputs ν) (a : StmtId) (value : StmtId → ν) :
    Stmt → ν
  | .const v => inputs.constant v
  | .unary op x => ops.unary op (value x)
  | .binary op x y => ops.binary op (value x) (value y)
  | .loopIndex owner k => inputs.loopIndex owner k
  | .loopUnique x => value x
  | _ => inputs.other a

namespace Program

variable {p : Program} {task a x y : StmtId} {dimensions : Nat} {ι ν : Type} {ops : Operators ν}

-- ---------------------------------------------------------------------------
-- One instance
-- ---------------------------------------------------------------------------

def evaluate (h : p.Ordered) (ops : Operators ν) (inputs : Inputs ν) (a : StmtId) : ν :=
  match _hs : p.stmt? a with
  | some (.const v) => inputs.constant v
  | some (.unary op x) => ops.unary op (evaluate h ops inputs x)
  | some (.binary op x y) => ops.binary op (evaluate h ops inputs x) (evaluate h ops inputs y)
  | some (.loopIndex owner k) => inputs.loopIndex owner k
  | some (.loopUnique x) => evaluate h ops inputs x
  | _ => inputs.other a
termination_by a.index
decreasing_by
  all_goals exact h a _ (by assumption) _ (by simp [Stmt.operands])

section
variable (h : p.Ordered) (inputs : Inputs ν)

theorem evaluate_eq {s : Stmt} (hs : p.stmt? a = some s) :
    evaluate h ops inputs a = s.valueBy ops inputs a (evaluate h ops inputs) := by
  rw [evaluate]
  cases s <;> split <;> simp_all [Stmt.valueBy]

theorem evaluate_computes : Computes p ops (evaluate h ops inputs) where
  unary hs := evaluate_eq h inputs hs
  binary hs := evaluate_eq h inputs hs

theorem evaluate_congruent (hsymm : ops.Symmetric)
    (hconst : ∀ v w, v.numericallyEqual w → inputs.constant v = inputs.constant w) :
    Congruent p ops (evaluate h ops inputs) where
  toComputes := evaluate_computes h inputs
  symmetric := hsymm
  const ha hb hvw := by
    rw [evaluate_eq h inputs ha, evaluate_eq h inputs hb]
    exact hconst _ _ hvw
  loopIndex ha hb := by
    rw [evaluate_eq h inputs ha, evaluate_eq h inputs hb]
    rfl
  loopUnique hs := evaluate_eq h inputs hs

end

-- ---------------------------------------------------------------------------
-- All instances
-- ---------------------------------------------------------------------------

/-- Every instance is evaluated from its own inputs. -/
def evaluation (h : p.Ordered) (ops : Operators ν) (iteration : ι → Fin dimensions → ν)
    (inputs : ι → Inputs ν) : Valuation dimensions ι ν where
  iteration := iteration
  value i := evaluate h ops (inputs i)

theorem evaluation_separates (h : p.Ordered) {iteration : ι → Fin dimensions → ν}
    {inputs : ι → Inputs ν} (hinj : ops.Injective)
    (hconst : ∀ i j, (inputs i).constant = (inputs j).constant)
    (hindex : ∀ i k (hk : k.toNat < dimensions),
      (inputs i).loopIndex task k = iteration i ⟨k.toNat, hk⟩)
    (hmarked : ∀ a x, p.stmt? a = some (.loopUnique x) → ∀ i j, iteration i ≠ iteration j →
      evaluate h ops (inputs i) x ≠ evaluate h ops (inputs j) x) :
    (evaluation h ops iteration inputs).Separates p task ops where
  computes i := evaluate_computes h (inputs i)
  injective := hinj
  const hs i j := by
    simp only [evaluation, evaluate_eq h _ hs, Stmt.valueBy, hconst i j]
  loopIndex hs hk i := by
    simp only [evaluation, evaluate_eq h _ hs, Stmt.valueBy, hindex i _ hk]
  loopUnique hs i j hij := by
    simp only [evaluation, evaluate_eq h _ hs, Stmt.valueBy]
    exact hmarked _ _ hs i j hij

end Program

-- ---------------------------------------------------------------------------
-- Integers
-- ---------------------------------------------------------------------------

/-- Negation, differences, and sums in place of all else. -/
def Operators.integers : Operators ℤ where
  unary
    | .neg, x => -x
    | _, x => x
  binary
    | .sub, x, y => x - y
    | _, x, y => x + y

theorem Operators.integers_injective : Operators.integers.Injective where
  neg _ _ h := neg_injective h
  left {op} hop y x x' h := by
    rcases op <;> simp_all [Operators.integers]
  right {op} hop x y y' h := by
    rcases op <;> simp_all [Operators.integers]

theorem Operators.integers_symmetric : Operators.integers.Symmetric := by
  intro op hop x y
  cases op with
  | sub => cases hop
  | _ => exact add_comm x y

/-- Integer constants are their numbers, and what memory holds is zero. -/
def Inputs.integers (loopIndex : StmtId → UInt64 → ℤ) : Inputs ℤ where
  constant v := v.asInt?.getD 0
  loopIndex := loopIndex
  other _ := 0

theorem Constant.asInt?_congr {v w : Constant} (h : v.numericallyEqual w) :
    v.asInt? = w.asInt? := by
  cases v <;> cases w <;> simp_all [Constant.numericallyEqual, Constant.asInt?]

end UniqueAccess
