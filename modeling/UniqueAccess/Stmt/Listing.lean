import UniqueAccess.Stmt.Basic

/-!
# The line of a statement in listings

A statement with a value is written with `=`, one without with `:`. The line of a statement that
owns blocks ends in an open brace.
-/

namespace UniqueAccess

def commaSeparated (items : List String) : String := String.intercalate ", " items

namespace Stmt

def openBrace : String := " \x7b"

def description : Stmt → String
  | const value => " = const " ++ value.text
  | unary op operand => " = " ++ op.text ++ " " ++ operand.text
  | binary op lhs rhs => " = " ++ op.text ++ " " ++ commaSeparated [lhs.text, rhs.text]
  | loopIndex owner dimension =>
    " = loop " ++ owner.text ++ " index " ++ toString dimension.toNat
  | loopUnique input => " = loop_unique " ++ input.text
  | globalPtr candidates indices =>
    " = global ptr [" ++ commaSeparated (candidates.map NodeId.text) ++ "], index [" ++
      commaSeparated (indices.map StmtId.text) ++ "]"
  | globalLoad src => " = global load " ++ src.text
  | globalStore dest value => " : global store [" ++ dest.text ++ " <- " ++ value.text ++ "]"
  | atomic op dest value =>
    " = atomic " ++ op.text ++ "(" ++ commaSeparated [dest.text, value.text] ++ ")"
  | nodeOp op node ptr value =>
    " = " ++ op.text ++ " " ++
      commaSeparated (node.text :: ptr.text :: value.toList.map StmtId.text)
  | branch cond _ _ => " : if " ++ cond.text ++ openBrace
  | rangeFor first last _ =>
    " : for in range(" ++ commaSeparated [first.text, last.text] ++ ")" ++ openBrace
  | task kind none _ => " = offloaded " ++ kind.text ++ openBrace
  | task kind (some node) _ =>
    " = offloaded " ++ kind.text ++ " over " ++ node.text ++ openBrace

def line (s : Stmt) (id : StmtId) : String := id.text ++ s.description

end Stmt

end UniqueAccess
