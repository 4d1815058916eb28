import UniqueAccess.Json.Writer
import UniqueAccess.Proofs.Number.Numeral
import Mathlib.Data.List.DropRight

/-!
# Documents that are read back

Both layouts of a document are texts of the grammar that differ in blanks only. A document in which
every string has a text and every number is a numeral of the grammar is read back from either of
them (`ofString?_compact`, `ofString?_indented`): the reader never needs more depth than the text is
long, and no number runs into what follows it.
-/

namespace UniqueAccess.Json

open Numeral (Ends)

variable {s s' blank rest : List Char} {bound level : Nat}

-- ---------------------------------------------------------------------------
-- Strings
-- ---------------------------------------------------------------------------

theorem unit?_control {n : Nat} (h : n < 0x20) :
    Hex.unit? '0' '0' (Hex.toChar (n / 16)) (Hex.toChar (n % 16)) = some n := by
  revert n
  decide

theorem readCodes_simple {e c : Char} (h : simpleEscape? e = some c) :
    readCodes ('\\' :: e :: s) =
      (readCodes s).map fun (codes, rest) => (c.toNat :: codes, rest) := by
  rw [readCodes.eq_3, h]
  · cases readCodes s <;> rfl
  · rintro a b c d rest rfl
    cases h

theorem readCodes_raw {c : Char} (hquote : c ≠ '"') (hslash : c ≠ '\\') (hlow : ¬ c.toNat < 0x20) :
    readCodes (c :: s) = (readCodes s).map fun (codes, rest) => (c.toNat :: codes, rest) := by
  rw [readCodes.eq_4 c s hquote (fun _ _ _ _ _ h => absurd h hslash) (fun _ _ h => absurd h hslash),
    if_neg hlow]
  cases readCodes s <;> rfl

/-- A character has an escape of its own, is written by its number, or stands for itself. -/
theorem escape_cases (c : Char) :
    (∃ e, escape c = ['\\', e] ∧ simpleEscape? e = some c) ∨
      (escape c = ['\\', 'u', '0', '0', Hex.toChar (c.toNat / 16), Hex.toChar (c.toNat % 16)] ∧
        c.toNat < 0x20) ∨
      (escape c = [c] ∧ c ≠ '"' ∧ c ≠ '\\' ∧ ¬ c.toNat < 0x20) := by
  unfold escape
  split_ifs with hquote hslash h h h h h hlow
  · exact .inl ⟨'"', rfl, by rw [hquote]; rfl⟩
  · exact .inl ⟨'\\', rfl, by rw [hslash]; rfl⟩
  · exact .inl ⟨'b', rfl, h ▸ rfl⟩
  · exact .inl ⟨'f', rfl, h ▸ rfl⟩
  · exact .inl ⟨'n', rfl, h ▸ rfl⟩
  · exact .inl ⟨'r', rfl, h ▸ rfl⟩
  · exact .inl ⟨'t', rfl, h ▸ rfl⟩
  · exact .inr (.inl ⟨rfl, hlow⟩)
  · exact .inr (.inr ⟨rfl, hquote, hslash, hlow⟩)

theorem readCodes_escape (c : Char) (s : List Char) :
    readCodes (escape c ++ s) =
      (readCodes s).map fun (codes, rest) => (c.toNat :: codes, rest) := by
  rcases escape_cases c with ⟨e, heq, he⟩ | ⟨heq, hlow⟩ | ⟨heq, hquote, hslash, hlow⟩
  · rw [heq]
    exact readCodes_simple he
  · simp only [heq, List.cons_append, List.nil_append, readCodes.eq_2, unit?_control hlow]
    cases readCodes s <;> rfl
  · rw [heq]
    exact readCodes_raw hquote hslash hlow

theorem readCodes_quoted (cs rest : List Char) :
    readCodes (cs.flatMap escape ++ '"' :: rest) = some (cs.map Char.toNat, rest) := by
  induction cs with
  | nil => rfl
  | cons c cs ih => simp [readCodes_escape, ih]

theorem not_surrogate (c : Char) :
    isHighSurrogate c.toNat = false ∧ isLowSurrogate c.toNat = false := by
  have hvalid : c.toNat < 0xD800 ∨ (0xDFFF < c.toNat ∧ c.toNat < 0x110000) := c.valid
  simp only [isHighSurrogate, isLowSurrogate, Bool.and_eq_false_iff, decide_eq_false_iff_not]
  omega

theorem charsOfCodes_map (cs : List Char) : charsOfCodes (cs.map Char.toNat) = some cs := by
  induction cs with
  | nil => rfl
  | cons c cs ih =>
    obtain ⟨hhigh, hlow⟩ := not_surrogate c
    cases cs with
    | nil => simp [charsOfCodes, hhigh, hlow]
    | cons d ds =>
      rw [List.map_cons] at ih ⊢
      simp [charsOfCodes, hhigh, hlow, ih]

theorem readString_quoted (s : String) (rest : List Char) :
    readString (s.toList.flatMap escape ++ '"' :: rest) = some (some s, rest) := by
  simp [readString, readCodes_quoted, charsOfCodes_map]

-- ---------------------------------------------------------------------------
-- Documents
-- ---------------------------------------------------------------------------

mutual
/-- Every string has a text, and every number is one of the grammar. -/
def Tree.Writable : Tree → Prop
  | .number n => n.Proper
  | .string text => text ≠ none
  | .array items => ItemsWritable items
  | .object members => MembersWritable members
  | _ => True
def ItemsWritable : List Tree → Prop
  | [] => True
  | item :: items => item.Writable ∧ ItemsWritable items
def MembersWritable : List (Option String × Tree) → Prop
  | [] => True
  | (name, value) :: members => name ≠ none ∧ value.Writable ∧ MembersWritable members
end

theorem itemsWritable_iff {items : List Tree} :
    ItemsWritable items ↔ ∀ item ∈ items, item.Writable := by
  induction items with
  | nil => simp [ItemsWritable]
  | cons item items ih => simp [ItemsWritable, ih]

/-- Where lines are broken, by level, and what stands after a colon. -/
structure Layout where
  lineBreak : Nat → List Char
  gap : List Char

namespace Layout

def compact : Layout := ⟨fun _ => [], []⟩

def indented : Layout := ⟨newLine, [' ']⟩

structure IsBlank (l : Layout) : Prop where
  lineBreak : ∀ level, ∀ c ∈ l.lineBreak level, isBlank c
  gap : ∀ c ∈ l.gap, isBlank c

theorem isBlank_compact : compact.IsBlank := ⟨nofun, nofun⟩

theorem isBlank_indented : indented.IsBlank where
  lineBreak level c hc := by
    rcases List.mem_cons.mp hc with rfl | hc
    · rfl
    · rw [List.eq_of_mem_replicate hc]
      rfl
  gap c hc := by
    rw [List.mem_singleton.mp hc]
    rfl

end Layout

mutual
def Tree.laidOut (l : Layout) (level : Nat) : Tree → List Char
  | .null => ['n', 'u', 'l', 'l']
  | .boolean b => writeBoolean b
  | .number n => n.text
  | .string text => quoteText text
  | .array [] => ['[', ']']
  | .array (item :: items) =>
    '[' :: l.lineBreak (level + 1) ++ item.laidOut l (level + 1) ++ itemsLaidOut l level items
  | .object [] => ['\x7b', '\x7d']
  | .object ((name, value) :: members) =>
    '\x7b' :: l.lineBreak (level + 1) ++ quoteText name ++ ':' :: l.gap ++
      value.laidOut l (level + 1) ++ membersLaidOut l level members
def itemsLaidOut (l : Layout) (level : Nat) : List Tree → List Char
  | [] => l.lineBreak level ++ [']']
  | item :: items =>
    ',' :: l.lineBreak (level + 1) ++ item.laidOut l (level + 1) ++ itemsLaidOut l level items
def membersLaidOut (l : Layout) (level : Nat) : List (Option String × Tree) → List Char
  | [] => l.lineBreak level ++ ['\x7d']
  | (name, value) :: members =>
    ',' :: l.lineBreak (level + 1) ++ quoteText name ++ ':' :: l.gap ++
      value.laidOut l (level + 1) ++ membersLaidOut l level members
end

mutual
theorem compactChars_eq : ∀ (t : Tree) (level : Nat), t.compactChars = t.laidOut .compact level
  | .null, _ => rfl
  | .boolean _, _ => rfl
  | .number _, _ => rfl
  | .string _, _ => rfl
  | .array [], _ => rfl
  | .array (item :: items), level => by
    simp [Tree.compactChars, Tree.laidOut, Layout.compact, compactChars_eq item (level + 1),
      compactItems_eq items level]
  | .object [], _ => rfl
  | .object ((name, value) :: members), level => by
    simp [Tree.compactChars, Tree.laidOut, Layout.compact, compactChars_eq value (level + 1),
      compactMembers_eq members level]
theorem compactItems_eq : ∀ (items : List Tree) (level : Nat),
    compactItems items = itemsLaidOut .compact level items
  | [], _ => rfl
  | item :: items, level => by
    simp [compactItems, itemsLaidOut, Layout.compact, compactChars_eq item (level + 1),
      compactItems_eq items level]
theorem compactMembers_eq : ∀ (members : List (Option String × Tree)) (level : Nat),
    compactMembers members = membersLaidOut .compact level members
  | [], _ => rfl
  | (name, value) :: members, level => by
    simp [compactMembers, membersLaidOut, Layout.compact, compactChars_eq value (level + 1),
      compactMembers_eq members level]
end

mutual
theorem indentedChars_eq : ∀ (t : Tree) (level : Nat),
    t.indentedChars level = t.laidOut .indented level
  | .null, _ => rfl
  | .boolean _, _ => rfl
  | .number _, _ => rfl
  | .string _, _ => rfl
  | .array [], _ => rfl
  | .array (item :: items), level => by
    simp [Tree.indentedChars, Tree.laidOut, Layout.indented, indentedChars_eq item (level + 1),
      indentedItems_eq items level]
  | .object [], _ => rfl
  | .object ((name, value) :: members), level => by
    simp [Tree.indentedChars, Tree.laidOut, Layout.indented, indentedChars_eq value (level + 1),
      indentedMembers_eq members level]
theorem indentedItems_eq : ∀ (items : List Tree) (level : Nat),
    indentedItems level items = itemsLaidOut .indented level items
  | [], _ => rfl
  | item :: items, level => by
    simp [indentedItems, itemsLaidOut, Layout.indented, indentedChars_eq item (level + 1),
      indentedItems_eq items level]
theorem indentedMembers_eq : ∀ (members : List (Option String × Tree)) (level : Nat),
    indentedMembers level members = membersLaidOut .indented level members
  | [], _ => rfl
  | (name, value) :: members, level => by
    simp [indentedMembers, membersLaidOut, Layout.indented, indentedChars_eq value (level + 1),
      indentedMembers_eq members level]
end

-- ---------------------------------------------------------------------------
-- Blanks
-- ---------------------------------------------------------------------------

theorem skipBlank_append (h : ∀ c ∈ blank, isBlank c) : skipBlank (blank ++ s) = skipBlank s :=
  List.dropWhile_append_of_pos h

theorem skipBlank_cons {c : Char} (h : isBlank c = false) : skipBlank (c :: s) = c :: s := by
  simp [skipBlank, h]

theorem skipBlank_skipBlank (s : List Char) : skipBlank (skipBlank s) = skipBlank s :=
  List.dropWhile_idempotent _ _

theorem readValue_congr (h : skipBlank s = skipBlank s') :
    readValue bound s = readValue bound s' := by
  cases bound with
  | zero => rfl
  | succ bound => rw [readValue, readValue, h]

theorem readItems_congr (h : skipBlank s = skipBlank s') :
    readItems bound s = readItems bound s' := by
  cases bound with
  | zero => rfl
  | succ bound => rw [readItems, readItems, readValue_congr h]

theorem readMembers_congr (h : skipBlank s = skipBlank s') :
    readMembers bound s = readMembers bound s' := by
  cases bound with
  | zero => rfl
  | succ bound => rw [readMembers, readMembers, h]

theorem ends_append (hblank : ∀ c ∈ blank, isBlank c) (h : Ends rest) : Ends (blank ++ rest) := by
  cases blank with
  | nil => exact h
  | cons c blank =>
    have hc : isBlank c := hblank c List.mem_cons_self
    simp only [isBlank, Bool.or_eq_true, beq_iff_eq] at hc
    rintro _ ⟨⟩
    rcases hc with ((rfl | rfl) | rfl) | rfl <;> exact ⟨rfl, by decide⟩

-- ---------------------------------------------------------------------------
-- Steps of the reader
-- ---------------------------------------------------------------------------

variable {item value : Tree} {items : List Tree} {member : Option String × Tree}
  {members : List (Option String × Tree)} {s₁ s₂ : List Char}

theorem readItems_close : readItems bound (']' :: rest) = none := by
  cases bound with
  | zero => rfl
  | succ bound => cases bound <;> rfl

theorem readMembers_close : readMembers bound ('\x7d' :: rest) = none := by
  cases bound <;> rfl

theorem readValue_array (h : readItems bound s = some (items, rest)) :
    readValue (bound + 1) ('[' :: s) = some (.array items, rest) := by
  have hskip : readItems bound (skipBlank s) = readItems bound s :=
    readItems_congr (skipBlank_skipBlank s)
  rw [readValue, skipBlank_cons rfl]
  simp only
  split
  · next heq => simp [heq, h, readItems_close] at hskip
  · simp [hskip, h]

theorem readValue_object (h : readMembers bound s = some (members, rest)) :
    readValue (bound + 1) ('\x7b' :: s) = some (.object members, rest) := by
  have hskip : readMembers bound (skipBlank s) = readMembers bound s :=
    readMembers_congr (skipBlank_skipBlank s)
  rw [readValue, skipBlank_cons rfl]
  simp only
  split
  · next heq => simp [heq, h, readMembers_close] at hskip
  · simp [hskip, h]

theorem readItems_last (hvalue : readValue bound s = some (item, s₁))
    (hnext : skipBlank s₁ = ']' :: rest) : readItems (bound + 1) s = some ([item], rest) := by
  simp [readItems, hvalue, hnext]

theorem readItems_more (hvalue : readValue bound s = some (item, s₁))
    (hnext : skipBlank s₁ = ',' :: s₂) (hitems : readItems bound s₂ = some (items, rest)) :
    readItems (bound + 1) s = some (item :: items, rest) := by
  simp [readItems, hvalue, hnext, hitems]

/-- A name, a colon and a value stand at the front of a text. -/
def StartsMember (bound : Nat) (s : List Char) (member : Option String × Tree)
    (rest : List Char) : Prop :=
  ∃ s₁ s₂ s₃, skipBlank s = '"' :: s₁ ∧ readString s₁ = some (member.1, s₂) ∧
    skipBlank s₂ = ':' :: s₃ ∧ readValue bound s₃ = some (member.2, rest)

theorem readMembers_last (hmember : StartsMember bound s member s₁)
    (hnext : skipBlank s₁ = '\x7d' :: rest) :
    readMembers (bound + 1) s = some ([member], rest) := by
  obtain ⟨_, _, _, hstart, hname, hcolon, hvalue⟩ := hmember
  simp [readMembers, hstart, hname, hcolon, hvalue, hnext]

theorem readMembers_more (hmember : StartsMember bound s member s₁)
    (hnext : skipBlank s₁ = ',' :: s₂) (hmembers : readMembers bound s₂ = some (members, rest)) :
    readMembers (bound + 1) s = some (member :: members, rest) := by
  obtain ⟨_, _, _, hstart, hname, hcolon, hvalue⟩ := hmember
  simp [readMembers, hstart, hname, hcolon, hvalue, hnext, hmembers]

theorem readValue_string (text : String) :
    readValue (bound + 1) (quote text ++ rest) = some (.string (some text), rest) := by
  have hread := readString_quoted text rest
  rw [readValue, quote, List.cons_append, List.cons_append, skipBlank_cons rfl]
  simp [hread]

theorem readValue_number {n : Numeral} (hn : n.Proper) (h : Ends rest) :
    readValue (bound + 1) (n.text ++ rest) = some (.number n, rest) := by
  have hread := Numeral.readNumber_text hn h
  obtain ⟨c, text, htext, hc⟩ := hn.text_eq_cons
  have hne : ∀ c', Digit.ofChar? c' = none → c' ≠ '-' → c ≠ c' := by
    rintro c' hc' hsign rfl
    rcases hc with hc | ⟨d, hd⟩
    · exact hsign hc
    · exact Digit.toChar_ne hc' hd.symm
  have hblank : isBlank c = false := by
    simp [isBlank, hne ' ' rfl (by decide), hne '\t' rfl (by decide), hne '\n' rfl (by decide),
      hne '\r' rfl (by decide)]
  rw [htext, List.cons_append] at hread ⊢
  rw [readValue, skipBlank_cons hblank]
  split
  · next heq => exact absurd (List.cons.inj heq).1 (hne _ rfl (by decide))
  · next heq => exact absurd (List.cons.inj heq).1 (hne _ rfl (by decide))
  · next heq => exact absurd (List.cons.inj heq).1 (hne _ rfl (by decide))
  · next heq => exact absurd (List.cons.inj heq).1 (hne _ rfl (by decide))
  · next heq => exact absurd (List.cons.inj heq).1 (hne _ rfl (by decide))
  · next heq => exact absurd (List.cons.inj heq).1 (hne _ rfl (by decide))
  · rw [hread]
    rfl

-- ---------------------------------------------------------------------------
-- Reading
-- ---------------------------------------------------------------------------

variable {l : Layout}

theorem ends_itemsLaidOut (hl : l.IsBlank) (level : Nat) (items : List Tree) (rest : List Char) :
    Ends (itemsLaidOut l level items ++ rest) := by
  cases items with
  | nil =>
    rw [itemsLaidOut, List.append_assoc]
    refine ends_append (hl.lineBreak level) ?_
    rintro _ ⟨⟩
    exact ⟨rfl, by decide⟩
  | cons item items =>
    rintro _ ⟨⟩
    exact ⟨rfl, by decide⟩

theorem ends_membersLaidOut (hl : l.IsBlank) (level : Nat)
    (members : List (Option String × Tree)) (rest : List Char) :
    Ends (membersLaidOut l level members ++ rest) := by
  cases members with
  | nil =>
    rw [membersLaidOut, List.append_assoc]
    refine ends_append (hl.lineBreak level) ?_
    rintro _ ⟨⟩
    exact ⟨rfl, by decide⟩
  | cons member members =>
    rintro _ ⟨⟩
    exact ⟨rfl, by decide⟩

theorem length_itemsLaidOut_pos (l : Layout) (level : Nat) (items : List Tree) :
    0 < (itemsLaidOut l level items).length := by
  cases items <;> simp [itemsLaidOut]

theorem length_membersLaidOut_pos (l : Layout) (level : Nat)
    (members : List (Option String × Tree)) :
    0 < (membersLaidOut l level members).length := by
  cases members <;> simp [membersLaidOut]

theorem startsMember (hl : l.IsBlank) (name : String)
    (hvalue : readValue bound s = some (value, rest)) :
    StartsMember bound (l.lineBreak level ++ (quoteText (some name) ++ ':' :: (l.gap ++ s)))
      (some name, value) rest := by
  refine ⟨name.toList.flatMap escape ++ '"' :: ':' :: (l.gap ++ s), ':' :: (l.gap ++ s), l.gap ++ s,
    ?_, readString_quoted name _, rfl, ?_⟩
  · rw [skipBlank_append (hl.lineBreak level)]
    simp [quoteText, quote, skipBlank, isBlank]
  · rw [readValue_congr (skipBlank_append hl.gap), hvalue]

mutual
/-- A value is read back if the bound is larger than its text is long. -/
theorem readValue_laidOut (hl : l.IsBlank) : ∀ (t : Tree) {level bound : Nat} {rest : List Char},
    t.Writable → Ends rest → (t.laidOut l level).length < bound →
      readValue bound (t.laidOut l level ++ rest) = some (t, rest)
  | .null, _, bound + 1, _, _, _, _ => rfl
  | .boolean true, _, bound + 1, _, _, _, _ => rfl
  | .boolean false, _, bound + 1, _, _, _, _ => rfl
  | .number n, _, bound + 1, _, hn, hrest, _ => readValue_number hn hrest
  | .string (some text), _, bound + 1, _, _, _, _ => readValue_string text
  | .string none, _, _, _, hnone, _, _ => absurd rfl hnone
  | .array [], _, bound + 1, _, _, _, _ => rfl
  | .array (item :: items), level, bound + 2, rest, ⟨hitem, hitems⟩, _, hbound => by
    have htail := length_itemsLaidOut_pos l level items
    simp only [Tree.laidOut, List.length_append, List.length_cons] at hbound
    have hread := readValue_laidOut hl item hitem (ends_itemsLaidOut hl level items rest)
      (show (item.laidOut l (level + 1)).length < bound by omega)
    rw [← readValue_congr (skipBlank_append (hl.lineBreak (level + 1)))] at hread
    simp only [Tree.laidOut, List.cons_append, List.append_assoc]
    exact readValue_array (readItems_laidOut hl items hitems (by omega) hread)
  | .object [], _, bound + 1, _, _, _, _ => rfl
  | .object ((some name, value) :: members), level, bound + 2, rest, ⟨_, hvalue, hmembers⟩, _,
      hbound => by
    have htail := length_membersLaidOut_pos l level members
    simp only [Tree.laidOut, List.length_append, List.length_cons] at hbound
    have hread := readValue_laidOut hl value hvalue (ends_membersLaidOut hl level members rest)
      (show (value.laidOut l (level + 1)).length < bound by omega)
    simp only [Tree.laidOut, List.cons_append, List.append_assoc]
    exact readValue_object
      (readMembers_laidOut hl members hmembers (by omega) (startsMember hl name hread))
  | .object ((none, _) :: _), _, _, _, ⟨hnone, _⟩, _, _ => absurd rfl hnone
theorem readItems_laidOut (hl : l.IsBlank) : ∀ (items : List Tree) {level bound : Nat}
    {s rest : List Char} {item : Tree}, ItemsWritable items →
      (itemsLaidOut l level items).length ≤ bound →
      readValue bound s = some (item, itemsLaidOut l level items ++ rest) →
      readItems (bound + 1) s = some (item :: items, rest)
  | [], level, bound, s, rest, item, _, _, hvalue => by
    refine readItems_last hvalue ?_
    rw [itemsLaidOut, List.append_assoc, skipBlank_append (hl.lineBreak level)]
    rfl
  | next :: items, level, bound + 1, s, rest, item, ⟨hnext, hitems⟩, hbound, hvalue => by
    have htail := length_itemsLaidOut_pos l level items
    simp only [itemsLaidOut, List.length_append, List.length_cons] at hbound
    have hread := readValue_laidOut hl next hnext (ends_itemsLaidOut hl level items rest)
      (show (next.laidOut l (level + 1)).length < bound by omega)
    rw [← readValue_congr (skipBlank_append (hl.lineBreak (level + 1)))] at hread
    simp only [itemsLaidOut, List.cons_append, List.append_assoc] at hvalue
    exact readItems_more hvalue (skipBlank_cons rfl)
      (readItems_laidOut hl items hitems (by omega) hread)
  | _ :: _, _, 0, _, _, _, _, hbound, _ => nomatch hbound
theorem readMembers_laidOut (hl : l.IsBlank) : ∀ (members : List (Option String × Tree))
    {level bound : Nat} {s rest : List Char} {member : Option String × Tree},
      MembersWritable members → (membersLaidOut l level members).length ≤ bound →
      StartsMember bound s member (membersLaidOut l level members ++ rest) →
      readMembers (bound + 1) s = some (member :: members, rest)
  | [], level, bound, s, rest, member, _, _, hmember => by
    refine readMembers_last hmember ?_
    rw [membersLaidOut, List.append_assoc, skipBlank_append (hl.lineBreak level)]
    rfl
  | (some name, value) :: members, level, bound + 1, s, rest, member, ⟨_, hvalue, hmembers⟩,
      hbound, hmember => by
    have htail := length_membersLaidOut_pos l level members
    simp only [membersLaidOut, List.length_append, List.length_cons] at hbound
    have hread := readValue_laidOut hl value hvalue (ends_membersLaidOut hl level members rest)
      (show (value.laidOut l (level + 1)).length < bound by omega)
    simp only [membersLaidOut, List.cons_append, List.append_assoc] at hmember
    exact readMembers_more hmember (skipBlank_cons rfl)
      (readMembers_laidOut hl members hmembers (by omega) (startsMember hl name hread))
  | (some _, _) :: _, _, 0, _, _, _, _, hbound, _ => nomatch hbound
  | (none, _) :: _, _, _, _, _, _, ⟨hnone, _⟩, _, _ => absurd rfl hnone
end

theorem ofChars?_laidOut (hl : l.IsBlank) {t : Tree} (h : t.Writable) :
    Tree.ofChars? (t.laidOut l level) = some t := by
  have hend : Ends [] := nofun
  have hread := readValue_laidOut hl t h hend (Nat.lt_add_one (t.laidOut l level).length)
  rw [List.append_nil] at hread
  rw [Tree.ofChars?, hread]
  rfl

theorem Tree.ofString?_compact {t : Tree} (h : t.Writable) : Tree.ofString? t.compact = some t := by
  rw [Tree.ofString?, Tree.compact, compactChars_eq t 0, String.toList_ofList]
  exact ofChars?_laidOut Layout.isBlank_compact h

theorem Tree.ofString?_indented {t : Tree} (h : t.Writable) :
    Tree.ofString? t.indented = some t := by
  rw [Tree.ofString?, Tree.indented, indentedChars_eq t 0, String.toList_ofList]
  exact ofChars?_laidOut Layout.isBlank_indented h

end UniqueAccess.Json
