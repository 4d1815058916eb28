import UniqueAccess.Stmt.Basic

/-!
# Statements in JSON documents

A statement is a record whose field `op` names the form and decides the other fields. In an array
`op` comes first. A statement is read in full before its form is looked at, so that everything in
it has to be meaningful and not nested too deep, also what is passed over in the end.
-/

namespace UniqueAccess

open Json (Tree Fields)

def Block.toTree (b : Block) : Tree := .ofList StmtId.toTree b

def Block.ofTree? (t : Tree) : Option Block := t.list? StmtId.ofTree?

namespace Stmt

def toFields : Stmt → String × List (String × Tree)
  | const value => ("const", [("value", value.toTree)])
  | unary op operand =>
    ("unary_op", [("type", Labelled.toTree op), ("operand", operand.toTree)])
  | binary op lhs rhs =>
    ("binary_op", [("type", Labelled.toTree op), ("lhs", lhs.toTree), ("rhs", rhs.toTree)])
  | loopIndex owner dimension =>
    ("loop_index", [("loop", owner.toTree), ("index", .ofNat dimension.toNat)])
  | loopUnique input => ("loop_unique", [("input", input.toTree)])
  | globalPtr candidates indices =>
    ("global_ptr",
      [("snodes", .ofList NodeId.toTree candidates), ("indices", .ofList StmtId.toTree indices)])
  | globalLoad src => ("global_load", [("src", src.toTree)])
  | globalStore dest value => ("global_store", [("dest", dest.toTree), ("value", value.toTree)])
  | atomic op dest value =>
    ("atomic_op", [("type", Labelled.toTree op), ("dest", dest.toTree), ("value", value.toTree)])
  | nodeOp op node ptr value =>
    ("s_node_op",
      [("type", Labelled.toTree op), ("snode", node.toTree), ("ptr", ptr.toTree),
        ("value", .ofOption StmtId.toTree value)])
  | branch cond onTrue onFalse =>
    ("if",
      [("cond", cond.toTree), ("true_block", Block.toTree onTrue),
        ("false_block", Block.toTree onFalse)])
  | rangeFor first last body =>
    ("range_for", [("begin", first.toTree), ("end", last.toTree), ("body", Block.toTree body)])
  | task kind container body =>
    ("offloaded",
      [("task_type", Labelled.toTree kind), ("snode", .ofOption NodeId.toTree container),
        ("body", Block.toTree body)])

def toTree (s : Stmt) : Tree :=
  let (form, fields) := s.toFields
  .ofFields (("op", .ofString form) :: fields)

def fieldNames? : String → Option (List String)
  | "const" => some ["value"]
  | "unary_op" => some ["type", "operand"]
  | "binary_op" => some ["type", "lhs", "rhs"]
  | "loop_index" => some ["loop", "index"]
  | "loop_unique" => some ["input"]
  | "global_ptr" => some ["snodes", "indices"]
  | "global_load" => some ["src"]
  | "global_store" => some ["dest", "value"]
  | "atomic_op" => some ["type", "dest", "value"]
  | "s_node_op" => some ["type", "snode", "ptr", "value"]
  | "if" => some ["cond", "true_block", "false_block"]
  | "range_for" => some ["begin", "end", "body"]
  | "offloaded" => some ["task_type", "snode", "body"]
  | _ => none

def operator? {α : Type} [Labelled α] : Tree → Option α := Labelled.ofTree? Tree.isNullOrEmpty

def ofFields? (form : String) (f : Fields) : Option Stmt := do
  match form with
  | "const" => return const (← f.required "value" Constant.ofTree?)
  | "unary_op" =>
    return unary (← f.required "type" operator?) (← f.required "operand" StmtId.ofTree?)
  | "binary_op" =>
    return binary (← f.required "type" operator?) (← f.required "lhs" StmtId.ofTree?)
      (← f.required "rhs" StmtId.ofTree?)
  | "loop_index" =>
    return loopIndex (← f.required "loop" StmtId.ofTree?)
      (UInt64.ofNat (← f.required "index" (Tree.nat? UInt64.size)))
  | "loop_unique" => return loopUnique (← f.required "input" StmtId.ofTree?)
  | "global_ptr" =>
    return globalPtr (← f.required "snodes" (Tree.list? NodeId.ofTree?))
      (← f.required "indices" (Tree.list? StmtId.ofTree?))
  | "global_load" => return globalLoad (← f.required "src" StmtId.ofTree?)
  | "global_store" =>
    return globalStore (← f.required "dest" StmtId.ofTree?) (← f.required "value" StmtId.ofTree?)
  | "atomic_op" =>
    return atomic (← f.required "type" operator?) (← f.required "dest" StmtId.ofTree?)
      (← f.required "value" StmtId.ofTree?)
  | "s_node_op" =>
    return nodeOp (← f.required "type" operator?) (← f.required "snode" NodeId.ofTree?)
      (← f.required "ptr" StmtId.ofTree?)
      (← f.defaulted "value" none (Tree.nullable? StmtId.ofTree?))
  | "if" =>
    return branch (← f.required "cond" StmtId.ofTree?) (← f.defaulted "true_block" [] Block.ofTree?)
      (← f.defaulted "false_block" [] Block.ofTree?)
  | "range_for" =>
    return rangeFor (← f.required "begin" StmtId.ofTree?) (← f.required "end" StmtId.ofTree?)
      (← f.required "body" Block.ofTree?)
  | "offloaded" =>
    return task (← f.required "task_type" operator?)
      (← f.defaulted "snode" none (Tree.nullable? NodeId.ofTree?))
      (← f.required "body" Block.ofTree?)
  | _ => none

def splitForm? (members : List (Option String × Tree)) :
    Option (String × List (Option String × Tree)) :=
  match members.partition fun (name, _) => name == some "op" with
  | ([(_, .string (some form))], rest) => some (form, rest)
  | _ => none

def ofMeaningful? : Tree → Option Stmt
  | .object members => do
    let (form, rest) ← splitForm? members
    let names ← fieldNames? form
    ofFields? form (← Fields.ofMembers? names rest)
  | .array (.string (some form) :: items) => do
    let names ← fieldNames? form
    ofFields? form (← Fields.ofItems? names items)
  | _ => none

def ofTree? (outer : Nat) (t : Tree) : Option Stmt :=
  if t.isMeaningful && outer + t.depth ≤ Tree.maxDepth then ofMeaningful? t else none

end Stmt

end UniqueAccess
