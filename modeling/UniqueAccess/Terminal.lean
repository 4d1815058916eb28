/-!
# Terminal control sequences

A terminal takes some characters as commands: an escape character and what belongs to it, and the
other control characters. `plainText` is what a text says without them. It follows the states that a
terminal passes through in a control sequence. Line breaks and tabs are shown, inside the simple
sequences too; what is shown there breaks into the sequence, and the characters that follow it are
shown as well, until the next one that is not visible.
-/

namespace UniqueAccess.Terminal

inductive State where
  | ground
  | escape
  /-- After an escape character and marks that need one more character. -/
  | escapeMarks
  | control
  | command
  /-- After `ESC P`: the head of a device string, its parameters, its marks. -/
  | deviceHead
  | deviceParameters
  | deviceMarks
  | payload
deriving DecidableEq, Repr

def isBlank (c : Char) : Bool := c == '\t' || c == '\n' || c == '\x0c' || c == '\r'

def isVisible (c : Char) : Bool := isBlank c || (0x20 ≤ c.toNat && c.toNat ≠ 0x7F)

def isBetween (first last c : Char) : Bool := first ≤ c && c ≤ last

namespace State

def shows : State → Char → Bool
  | ground, c => isVisible c
  | escape, c => isBlank c
  | escapeMarks, c => isBlank c
  | control, c => isBlank c
  | _, _ => false

def advance (state : State) (c : Char) : State :=
  let isMark := isBetween ' ' '/' c
  match state with
  | ground => ground
  | escape =>
    if c = '[' then control
    else if c = ']' then command
    else if c = 'P' then deviceHead
    else if c = 'X' || c = '^' || c = '_' then payload
    else if isMark then escapeMarks
    else if isBetween '0' '~' c then ground
    else escape
  | escapeMarks => if isBetween '0' '~' c then ground else escapeMarks
  | control => if isBetween '@' '~' c then ground else control
  | command => if c = '\x07' then ground else command
  | deviceHead =>
    if isMark then deviceMarks
    else if isBetween '0' '?' c then deviceParameters
    else if isBetween '@' '~' c then payload
    else deviceHead
  | deviceParameters =>
    if isMark then deviceMarks
    else if isBetween '<' '~' c then payload
    else deviceParameters
  | deviceMarks => if isBetween '0' '~' c then payload else deviceMarks
  | payload => if (String.utf8EncodeChar c).contains 0x9C then ground else payload

/-- The state after a character. An escape character opens a sequence anywhere, and two control
characters cancel any sequence. -/
def next (state : State) (c : Char) : State :=
  if c = '\x1b' then escape
  else if c = '\x18' || c = '\x1a' then ground
  else state.advance c

end State

def shown (state : State) (lastShown : Bool) : List Char → List Char
  | [] => []
  | c :: rest =>
    if if lastShown then isVisible c else state.shows c then
      c :: shown (if c.toNat < 0x80 then state else .ground) true rest
    else shown (state.next c) false rest

def plainText (s : String) : String := String.ofList (shown .ground false s.toList)

end UniqueAccess.Terminal
