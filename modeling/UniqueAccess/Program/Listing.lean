import UniqueAccess.Program.Basic
import UniqueAccess.Stmt.Listing
import UniqueAccess.Storage.Listing

/-!
# Program listings

A listing shows the storage tree and then every statement on a line of its own, inside the braces of
the statement that owns its block. A second branch is shown only if there is something in it.
-/

namespace UniqueAccess

inductive ListingItem where
  | header (id : StmtId) (stmt : Stmt)
  | unknown (id : StmtId)
  /-- The line between two branches. -/
  | alternative
  | closing
deriving DecidableEq, Repr

structure ListingLine where
  level : Nat
  item : ListingItem
deriving DecidableEq, Repr

namespace ListingItem

def text : ListingItem → String
  | header id stmt => stmt.line id
  | unknown id => id.text ++ " = <unknown>"
  | alternative => "\x7d else \x7b"
  | closing => "\x7d"

end ListingItem

def ListingLine.text (l : ListingLine) : String := indentation l.level ++ l.item.text ++ "\n"

namespace Program

def ownedLines? (lines? : Block → Option (List ListingLine)) (level : Nat) :
    Stmt → Option (List ListingLine)
  | .branch _ onTrue onFalse => do
    let first ← lines? onTrue
    if onFalse.isEmpty then return first ++ [⟨level, .closing⟩]
    else
      let second ← lines? onFalse
      return first ++ ⟨level, .alternative⟩ :: second ++ [⟨level, .closing⟩]
  | .rangeFor _ _ body => (lines? body).map (· ++ [⟨level, .closing⟩])
  | .task _ _ body => (lines? body).map (· ++ [⟨level, .closing⟩])
  | _ => some []

def linesWithin? (p : Program) : Nat → Nat → Block → Option (List ListingLine)
  | 0, _, b => if b.isEmpty then some [] else none
  | fuel + 1, level, b =>
    List.flatten <$> b.mapM fun id =>
      match p.stmt? id with
      | none => some [⟨level, .unknown id⟩]
      | some s =>
        (ownedLines? (linesWithin? p fuel (level + 1)) level s).map (⟨level, .header id s⟩ :: ·)

/-- The lines of the top-level block; they end exactly when the walk through it ends. -/
def lines? (p : Program) : Option (List ListingLine) := p.linesWithin? (p.size + 1) 0 p.root

def listing (p : Program) : String :=
  "; IR version " ++ toString p.version.toNat ++ "\n; Statements: " ++ toString p.size ++ "\n" ++
    p.storage.listing ++ "\n" ++ String.join ((p.lines?.getD []).map ListingLine.text)

end Program

end UniqueAccess
