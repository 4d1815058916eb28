/-!
# Files

The files that a command reads, as a tree of directories, and why a path may have no text. A path is
followed from a directory one part at a time, so that the first part that does not fit decides how
reading fails.
-/

namespace UniqueAccess

inductive ReadFailure where
  | missing
  | denied
  | notADirectory
  | isADirectory
  | nameTooLong
  | notText
  | other (reason : String)
deriving DecidableEq, Repr

def ReadFailure.message : ReadFailure → String
  | missing => "No such file or directory (os error 2)"
  | denied => "Permission denied (os error 13)"
  | notADirectory => "Not a directory (os error 20)"
  | isADirectory => "Is a directory (os error 21)"
  | nameTooLong => "File name too long (os error 36)"
  | notText => "stream did not contain valid UTF-8"
  | other reason => reason

inductive FileTree where
  /-- A file, without a text if its bytes are none. -/
  | file (text : Option String)
  | directory (entries : List (String × FileTree))

namespace FileTree

abbrev Entries := List (String × FileTree)

def maxPathBytes : Nat := 4095

def maxNameBytes : Nat := 255

def stays (part : String) : Bool := part == "" || part == "."

-- ---------------------------------------------------------------------------
-- Building
-- ---------------------------------------------------------------------------

/-- Puts a tree at the end of a path; directories on the way are made, and what was there gives
way. -/
def insert (tree : FileTree) : List String → Entries → Entries
  | [], entries => entries
  | [name], entries => (name, tree) :: entries.filter (·.1 ≠ name)
  | name :: path, entries =>
    let inner :=
      match entries.lookup name with
      | some (directory inner) => inner
      | _ => []
    (name, directory (insert tree path inner)) :: entries.filter (·.1 ≠ name)

def ofFiles (files : List (String × Option String)) : Entries :=
  files.foldl
    (fun entries (path, text) =>
      insert (file text) ((path.splitOn "/").filter (! stays ·)) entries)
    []

-- ---------------------------------------------------------------------------
-- Reading
-- ---------------------------------------------------------------------------

/-- A directory in a tree: its entries, and those of the directories above it, the nearest first. -/
structure Place where
  entries : Entries
  above : List Entries := []

namespace Place

/-- The directory above; the topmost one is above itself. -/
def parent (p : Place) : Place :=
  match p.above with
  | [] => p
  | entries :: above => ⟨entries, above⟩

def top (p : Place) : Place := ⟨p.above.getLast?.getD p.entries, []⟩

def follow (p : Place) : List String → Except ReadFailure FileTree
  | [] => .ok (directory p.entries)
  | part :: rest =>
    if stays part then follow p rest
    else if part = ".." then follow p.parent rest
    else if part.utf8ByteSize > maxNameBytes then .error .nameTooLong
    else
      match p.entries.lookup part with
      | none => .error .missing
      | some (directory inner) => follow ⟨inner, p.entries :: p.above⟩ rest
      | some (file text) => if rest.isEmpty then .ok (file text) else .error .notADirectory

/-- The text at a path. One that starts with a slash starts at the topmost directory. -/
def read (p : Place) (path : String) : Except ReadFailure String := do
  if path.utf8ByteSize > maxPathBytes then throw .nameTooLong
  let start := if path.startsWith "/" then p.top else p
  match ← start.follow (path.splitOn "/") with
  | directory _ => throw .isADirectory
  | file none => throw .notText
  | file (some text) => return text

end Place

end FileTree

end UniqueAccess
