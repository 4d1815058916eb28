import UniqueAccess.Toml.Scalar

/-!
# Reading TOML

The grammar of TOML documents, over lists of characters. The readers of values carry two bounds: one
on the length of the text, which no text reaches, and one on the nesting of arrays and inline
tables, which is part of the format that is read here.
-/

namespace UniqueAccess.Toml

/-- The deepest nesting of values, and the most parts of a dotted key. -/
def maxDepth : Nat := 79

-- ---------------------------------------------------------------------------
-- Blanks and comments
-- ---------------------------------------------------------------------------

def isSpace (c : Char) : Bool := c == ' ' || c == '\t'

def skipSpace (s : List Char) : List Char := s.dropWhile isSpace

def isPrintable (c : Char) : Bool := c == '\t' || (0x20 ≤ c.toNat && c.toNat ≠ 0x7F)

/-- The rest of a line that has nothing left to say, up to the next line. -/
def endLine (inComment : Bool) : List Char → Option (List Char)
  | [] => some []
  | '\n' :: rest => some rest
  | '\r' :: '\n' :: rest => some rest
  | c :: rest =>
    if inComment then if isPrintable c then endLine true rest else none
    else if isSpace c then endLine false rest
    else if c = '#' then endLine true rest
    else none

def skipTrivia (inComment : Bool) : List Char → Option (List Char)
  | [] => some []
  | '\n' :: rest => skipTrivia false rest
  | '\r' :: '\n' :: rest => skipTrivia false rest
  | c :: rest =>
    if inComment then if isPrintable c then skipTrivia true rest else none
    else if isSpace c then skipTrivia false rest
    else if c = '#' then skipTrivia true rest
    else some (c :: rest)

-- ---------------------------------------------------------------------------
-- Strings
-- ---------------------------------------------------------------------------

def charOfCode? (n : Nat) : Option Char := if n.isValidChar then some (Char.ofNat n) else none

def shortEscape? : Char → Option Char
  | 'b' => some '\x08'
  | 't' => some '\t'
  | 'n' => some '\n'
  | 'f' => some '\x0c'
  | 'r' => some '\r'
  | '"' => some '"'
  | '\\' => some '\\'
  | _ => none

def longEscape? (a b c d e f g h : Char) : Option Char := do
  charOfCode? ((← Hex.unit? a b c d) * UInt16.size + (← Hex.unit? e f g h))

def readBasic : List Char → Option (List Char × List Char)
  | [] => none
  | '"' :: rest => some ([], rest)
  | '\\' :: 'u' :: a :: b :: c :: d :: rest => do
    let c ← charOfCode? (← Hex.unit? a b c d)
    let (cs, rest) ← readBasic rest
    return (c :: cs, rest)
  | '\\' :: 'U' :: a :: b :: c :: d :: e :: f :: g :: h :: rest => do
    let c ← longEscape? a b c d e f g h
    let (cs, rest) ← readBasic rest
    return (c :: cs, rest)
  | '\\' :: e :: rest => do
    let c ← shortEscape? e
    let (cs, rest) ← readBasic rest
    return (c :: cs, rest)
  | c :: rest =>
    if isPrintable c && c != '\\' then do
      let (cs, rest) ← readBasic rest
      return (c :: cs, rest)
    else none

def readLiteral : List Char → Option (List Char × List Char)
  | [] => none
  | '\'' :: rest => some ([], rest)
  | c :: rest =>
    if isPrintable c then do
      let (cs, rest) ← readLiteral rest
      return (c :: cs, rest)
    else none

inductive LineState where
  | text
  /-- After a backslash that escapes the end of its line. -/
  | escapedEnd
  /-- In the blanks that an escaped end takes with it. -/
  | trimming
deriving DecidableEq

/-- A string of several lines in double quotes. Up to two quotes may stand before the closing
ones. -/
def readBasicLines : LineState → List Char → Option (List Char × List Char)
  | _, [] => none
  | .escapedEnd, '\n' :: rest => readBasicLines .trimming rest
  | .escapedEnd, '\r' :: '\n' :: rest => readBasicLines .trimming rest
  | .escapedEnd, c :: rest => if isSpace c then readBasicLines .escapedEnd rest else none
  | state, '\n' :: rest =>
    if state = .trimming then readBasicLines .trimming rest
    else do
      let (cs, rest) ← readBasicLines .text rest
      return ('\n' :: cs, rest)
  | state, '\r' :: '\n' :: rest =>
    if state = .trimming then readBasicLines .trimming rest
    else do
      let (cs, rest) ← readBasicLines .text rest
      return ('\n' :: cs, rest)
  | _, '"' :: '"' :: '"' :: '"' :: '"' :: rest => some (['"', '"'], rest)
  | _, '"' :: '"' :: '"' :: '"' :: rest => some (['"'], rest)
  | _, '"' :: '"' :: '"' :: rest => some ([], rest)
  | _, '\\' :: 'u' :: a :: b :: c :: d :: rest => do
    let c ← charOfCode? (← Hex.unit? a b c d)
    let (cs, rest) ← readBasicLines .text rest
    return (c :: cs, rest)
  | _, '\\' :: 'U' :: a :: b :: c :: d :: e :: f :: g :: h :: rest => do
    let c ← longEscape? a b c d e f g h
    let (cs, rest) ← readBasicLines .text rest
    return (c :: cs, rest)
  | _, '\\' :: '\n' :: rest => readBasicLines .trimming rest
  | _, '\\' :: '\r' :: '\n' :: rest => readBasicLines .trimming rest
  | _, '\\' :: e :: rest =>
    if isSpace e then readBasicLines .escapedEnd rest
    else do
      let c ← shortEscape? e
      let (cs, rest) ← readBasicLines .text rest
      return (c :: cs, rest)
  | state, c :: rest =>
    if state = .trimming && isSpace c then readBasicLines .trimming rest
    else if isPrintable c && c != '\\' then do
      let (cs, rest) ← readBasicLines .text rest
      return (c :: cs, rest)
    else none

def readLiteralLines : List Char → Option (List Char × List Char)
  | [] => none
  | '\'' :: '\'' :: '\'' :: '\'' :: '\'' :: rest => some (['\'', '\''], rest)
  | '\'' :: '\'' :: '\'' :: '\'' :: rest => some (['\''], rest)
  | '\'' :: '\'' :: '\'' :: rest => some ([], rest)
  | '\n' :: rest => do
    let (cs, rest) ← readLiteralLines rest
    return ('\n' :: cs, rest)
  | '\r' :: '\n' :: rest => do
    let (cs, rest) ← readLiteralLines rest
    return ('\n' :: cs, rest)
  | c :: rest =>
    if isPrintable c then do
      let (cs, rest) ← readLiteralLines rest
      return (c :: cs, rest)
    else none

/-- A line break right after opening quotes does not belong to the string. -/
def skipFirstBreak : List Char → List Char
  | '\n' :: rest => rest
  | '\r' :: '\n' :: rest => rest
  | s => s

-- ---------------------------------------------------------------------------
-- Keys
-- ---------------------------------------------------------------------------

def isBareKeyChar (c : Char) : Bool := c.isAlphanum || c == '_' || c == '-'

def readSimpleKey (s : List Char) : Option (String × List Char) :=
  match s with
  | '"' :: rest => (readBasic rest).map fun (cs, rest) => (String.ofList cs, rest)
  | '\'' :: rest => (readLiteral rest).map fun (cs, rest) => (String.ofList cs, rest)
  | _ =>
    let bare := s.takeWhile isBareKeyChar
    if bare.isEmpty then none else some (String.ofList bare, s.dropWhile isBareKeyChar)

def readKey : Nat → List Char → Option (List String × String × List Char)
  | 0, _ => none
  | bound + 1, s => do
    let (key, rest) ← readSimpleKey (skipSpace s)
    match skipSpace rest with
    | '.' :: rest =>
      let (path, last, rest) ← readKey bound rest
      return (key :: path, last, rest)
    | rest => return ([], key, rest)

-- ---------------------------------------------------------------------------
-- Values
-- ---------------------------------------------------------------------------

def stringValue : List Char × List Char → Value × List Char :=
  fun (cs, rest) => (.string (String.ofList cs), rest)

mutual

def readValue : Nat → Nat → List Char → Option (Value × List Char)
  | 0, _, _ => none
  | bound + 1, depth, s =>
    match s with
    | '"' :: '"' :: '"' :: rest => (readBasicLines .text (skipFirstBreak rest)).map stringValue
    | '\'' :: '\'' :: '\'' :: rest => (readLiteralLines (skipFirstBreak rest)).map stringValue
    | '"' :: rest => (readBasic rest).map stringValue
    | '\'' :: rest => (readLiteral rest).map stringValue
    | '[' :: rest =>
      if depth = 0 then none
      else (readItems bound (depth - 1) rest).map fun (items, rest) => (.array items, rest)
    | '\x7b' :: rest =>
      if depth = 0 then none
      else
        match skipSpace rest with
        | '\x7d' :: rest => some (.table .inline [], rest)
        | rest =>
          (readPairs bound (depth - 1) [] rest).map fun (entries, rest) =>
            (.table .inline entries, rest)
    | s => readWord s

/-- The items of an array up to the closing bracket; a comma may follow the last. -/
def readItems : Nat → Nat → List Char → Option (List Value × List Char)
  | 0, _, _ => none
  | bound + 1, depth, s => do
    match ← skipTrivia false s with
    | ']' :: rest => return ([], rest)
    | s =>
      let (item, rest) ← readValue bound depth s
      match ← skipTrivia false rest with
      | ',' :: rest =>
        let (items, rest) ← readItems bound depth rest
        return (item :: items, rest)
      | ']' :: rest => return ([item], rest)
      | _ => none

def readPairs : Nat → Nat → Entries → List Char → Option (Entries × List Char)
  | 0, _, _, _ => none
  | bound + 1, depth, entries, s => do
    let (path, key, rest) ← readKey maxDepth s
    match rest with
    | '=' :: rest =>
      let (value, rest) ← readValue bound depth (skipSpace rest)
      let entries ← Entries.addDotted? entries path key value
      match skipSpace rest with
      | ',' :: rest => readPairs bound depth entries rest
      | '\x7d' :: rest => return (entries, rest)
      | _ => none
    | _ => none

end

-- ---------------------------------------------------------------------------
-- Documents
-- ---------------------------------------------------------------------------

inductive Line where
  | pair (path : List String) (key : String) (value : Value)
  | header (path : List String) (key : String)
  | nextHeader (path : List String) (key : String)

def readHeader (s : List Char) : Option (Line × List Char) := do
  let (path, key, rest) ← readKey maxDepth s
  match rest with
  | ']' :: rest => return (.header path key, rest)
  | _ => none

def readNextHeader (s : List Char) : Option (Line × List Char) := do
  let (path, key, rest) ← readKey maxDepth s
  match rest with
  | ']' :: ']' :: rest => return (.nextHeader path key, rest)
  | _ => none

def readPair (s : List Char) : Option (Line × List Char) := do
  let (path, key, rest) ← readKey maxDepth s
  match rest with
  | '=' :: rest =>
    let (value, rest) ← readValue (s.length + 1) maxDepth (skipSpace rest)
    return (.pair path key value, rest)
  | _ => none

def readLine : List Char → Option (Line × List Char)
  | '[' :: '[' :: rest => readNextHeader rest
  | '[' :: rest => readHeader rest
  | s => readPair s

def readLines : Nat → List Char → Option (List Line)
  | 0, _ => none
  | bound + 1, s => do
    match ← skipTrivia false s with
    | [] => return []
    | s =>
      let (line, rest) ← readLine s
      return line :: (← readLines bound (← endLine false rest))

def addPairs? (entries : Entries) : List Line → Option Entries
  | .pair path key value :: rest => do
    addPairs? (← Entries.addDotted? entries path key value) rest
  | _ => some entries

def addTables? (entries : Entries) : List Line → Option Entries
  | [] => some entries
  | .pair .. :: rest => addTables? entries rest
  | .header path key :: rest => do
    let open? := Entries.openTable? key (addPairs? · rest)
    addTables? (← Entries.extend? .implied open? path .header entries) rest
  | .nextHeader path key :: rest => do
    let open? := Entries.openNext? key (addPairs? · rest)
    addTables? (← Entries.extend? .implied open? path .header entries) rest

/-- The entries of a document, which may start with a byte order mark. -/
def Entries.ofString? (text : String) : Option Entries := do
  let s :=
    match text.toList with
    | '\uFEFF' :: rest => rest
    | s => s
  let lines ← readLines (s.length + 1) s
  addTables? (← addPairs? [] lines) lines

end UniqueAccess.Toml
