import UniqueAccess.Json.Record

/-!
# Operators

The operators that statements carry. What an analysis may rely on is stated per operator: whether
distinct operands give distinct results, and whether the operands may be exchanged.
-/

namespace UniqueAccess

inductive UnaryOp where
  | neg
  | abs
  | bitNot
  | logicNot
  | sqrt
  | floor
  | ceil
deriving DecidableEq, Repr

instance : Labelled UnaryOp where
  all := [.neg, .abs, .bitNot, .logicNot, .sqrt, .floor, .ceil]
  label
    | .neg => "neg"
    | .abs => "abs"
    | .bitNot => "bit_not"
    | .logicNot => "logic_not"
    | .sqrt => "sqrt"
    | .floor => "floor"
    | .ceil => "ceil"

namespace UnaryOp

def text (op : UnaryOp) : String := Labelled.label op

/-- Whether distinct operands are known to give distinct results. Only negation is relied on. -/
def isInjective : UnaryOp → Bool
  | .neg => true
  | _ => false

end UnaryOp

inductive BinaryOp where
  | add
  | sub
  | mul
  | div
  | mod
  | floorDiv
  | max
  | min
  | bitAnd
  | bitOr
  | bitXor
  | bitShl
  | bitSar
  | cmpLt
  | cmpLe
  | cmpGt
  | cmpGe
  | cmpEq
  | cmpNe
deriving DecidableEq, Repr

instance : Labelled BinaryOp where
  all := [.add, .sub, .mul, .div, .mod, .floorDiv, .max, .min, .bitAnd, .bitOr, .bitXor, .bitShl,
    .bitSar, .cmpLt, .cmpLe, .cmpGt, .cmpGe, .cmpEq, .cmpNe]
  label
    | .add => "add"
    | .sub => "sub"
    | .mul => "mul"
    | .div => "div"
    | .mod => "mod"
    | .floorDiv => "floor_div"
    | .max => "max"
    | .min => "min"
    | .bitAnd => "bit_and"
    | .bitOr => "bit_or"
    | .bitXor => "bit_xor"
    | .bitShl => "bit_shl"
    | .bitSar => "bit_sar"
    | .cmpLt => "cmp_lt"
    | .cmpLe => "cmp_le"
    | .cmpGt => "cmp_gt"
    | .cmpGe => "cmp_ge"
    | .cmpEq => "cmp_eq"
    | .cmpNe => "cmp_ne"

namespace BinaryOp

/-- The name in listings; the division toward the floor is one word there. -/
def text : BinaryOp → String
  | .floorDiv => "floordiv"
  | op => Labelled.label op

/-- Whether distinct values of one operand give distinct results while the other operand is
fixed, on either side. -/
def isInjectiveInEach : BinaryOp → Bool
  | .add | .sub | .bitXor => true
  | _ => false

def isCommutative : BinaryOp → Bool
  | .add | .mul | .max | .min | .bitAnd | .bitOr | .bitXor | .cmpEq | .cmpNe => true
  | _ => false

end BinaryOp

inductive AtomicOp where
  | add
  | sub
  | max
  | min
  | bitAnd
  | bitOr
  | bitXor
deriving DecidableEq, Repr

instance : Labelled AtomicOp where
  all := [.add, .sub, .max, .min, .bitAnd, .bitOr, .bitXor]
  label
    | .add => "add"
    | .sub => "sub"
    | .max => "max"
    | .min => "min"
    | .bitAnd => "bit_and"
    | .bitOr => "bit_or"
    | .bitXor => "bit_xor"

def AtomicOp.text : AtomicOp → String
  | .add => "Add"
  | .sub => "Sub"
  | .max => "Max"
  | .min => "Min"
  | .bitAnd => "BitAnd"
  | .bitOr => "BitOr"
  | .bitXor => "BitXor"

inductive NodeOp where
  | activate
  | deactivate
  | isActive
  | append
  | length
deriving DecidableEq, Repr

instance : Labelled NodeOp where
  all := [.activate, .deactivate, .isActive, .append, .length]
  label
    | .activate => "activate"
    | .deactivate => "deactivate"
    | .isActive => "is_active"
    | .append => "append"
    | .length => "length"

def NodeOp.text : NodeOp → String
  | .activate => "Activate"
  | .deactivate => "Deactivate"
  | .isActive => "IsActive"
  | .append => "Append"
  | .length => "Length"

inductive TaskKind where
  | serial
  | rangeFor
  | structFor
  | meshFor
deriving DecidableEq, Repr

instance : Labelled TaskKind where
  all := [.serial, .rangeFor, .structFor, .meshFor]
  label
    | .serial => "serial"
    | .rangeFor => "range_for"
    | .structFor => "struct_for"
    | .meshFor => "mesh_for"

namespace TaskKind

def text (kind : TaskKind) : String := Labelled.label kind

def isDataParallel : TaskKind → Bool
  | .serial => false
  | _ => true

end TaskKind

end UniqueAccess
