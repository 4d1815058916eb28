import UniqueAccess.Program.Basic
import Mathlib.Logic.Function.Basic

/-!
# What the statements of a task are worth

A task runs in instances. An instance belongs to an iteration of the task and to whatever else tells
it apart: the passes of the loops inside the task, the state of memory. A valuation gives every
statement a value in every instance. Little is asked of it: constants, operators and markers mean
what they say, and so do loop indices. Loads, and all else that can depend on memory, may have any
value.

The laws are grouped by who relies on them: `Separates` is what makes values differ between
iterations, `Congruent` is what makes statements of one form equal within an instance.
-/

namespace UniqueAccess

structure Operators (ν : Type) where
  unary : UnaryOp → ν → ν
  binary : BinaryOp → ν → ν → ν

namespace Operators

/-- Distinct operands give distinct results, on either side while the other side is fixed. -/
structure Injective (ops : Operators ν) : Prop where
  neg : Function.Injective (ops.unary .neg)
  left : op ∈ [.add, .sub, .bitXor] → ∀ y, Function.Injective fun x => ops.binary op x y
  right : op ∈ [.add, .sub, .bitXor] → ∀ x, Function.Injective fun y => ops.binary op x y

def Symmetric (ops : Operators ν) : Prop :=
  ∀ op, op.isCommutative → ∀ x y, ops.binary op x y = ops.binary op y x

end Operators

/-- The iteration of every instance, as a vector of loop indices, and the value that every statement
has in it. -/
structure Valuation (dimensions : Nat) (ι ν : Type) where
  iteration : ι → Fin dimensions → ν
  value : ι → StmtId → ν

/-- Statements with an operator have the value that it gives for the values of their operands. -/
structure Computes (p : Program) (ops : Operators ν) (value : StmtId → ν) : Prop where
  unary : p.stmt? a = some (.unary op x) → value a = ops.unary op (value x)
  binary : p.stmt? a = some (.binary op x y) → value a = ops.binary op (value x) (value y)

/-- The values of one instance do not tell statements of one form apart. A loop has one value of
each of its indices at a time, and a marker has the value of what it marks. -/
structure Congruent (p : Program) (ops : Operators ν) (value : StmtId → ν) : Prop
    extends Computes p ops value where
  symmetric : ops.Symmetric
  const : p.stmt? a = some (.const v) → p.stmt? b = some (.const w) → v.numericallyEqual w →
    value a = value b
  loopIndex : p.stmt? a = some (.loopIndex owner k) → p.stmt? b = some (.loopIndex owner k) →
    value a = value b
  loopUnique : p.stmt? a = some (.loopUnique x) → value a = value x

namespace Valuation

variable {dimensions : Nat} {ι ν : Type}

/-- Constants do not depend on the instance, the indices of the task are those of the iteration, and
markers differ wherever iterations do. -/
structure Separates (V : Valuation dimensions ι ν) (p : Program) (task : StmtId)
    (ops : Operators ν) : Prop where
  computes : ∀ i, Computes p ops (V.value i)
  injective : ops.Injective
  const : p.stmt? a = some (.const v) → ∀ i j, V.value i a = V.value j a
  loopIndex : p.stmt? a = some (.loopIndex task k) →
    ∀ (h : k.toNat < dimensions) i, V.value i a = V.iteration i ⟨k.toNat, h⟩
  loopUnique : p.stmt? a = some (.loopUnique x) →
    ∀ i j, V.iteration i ≠ V.iteration j → V.value i a ≠ V.value j a

structure Respects (V : Valuation dimensions ι ν) (p : Program) (task : StmtId)
    (ops : Operators ν) : Prop extends V.Separates p task ops where
  congruent : ∀ i, Congruent p ops (V.value i)

def tuple (V : Valuation dimensions ι ν) (i : ι) (statements : List StmtId) : List ν :=
  statements.map (V.value i)

end Valuation

end UniqueAccess
