import UniqueAccess.Proofs.Program.Lines
import UniqueAccess.Proofs.Program.Places
import UniqueAccess.Proofs.Stmt.Listing

/-!
# Listings follow walks

The text below the storage tree can be cut into its lines again. The lines that show names are what
the walk through everything meets, in order and indented by the owners around it, and the braces
match: each header with blocks has one line that closes it, and each closing line one header
(`listing_follows_walk`).
-/

namespace UniqueAccess

open Relation (TransGen)

-- ---------------------------------------------------------------------------
-- Text
-- ---------------------------------------------------------------------------

namespace ListingLine

def shown (l : ListingLine) : String := indentation l.level ++ l.item.text

theorem shown_eq (l : ListingLine) :
    l.shown = String.ofList (List.replicate (2 * l.level) ' ') ++
      match l.item with
      | .header id s => s.line id
      | .unknown id => id.text ++ " = <unknown>"
      | .alternative => "\x7d else \x7b"
      | .closing => "\x7d" := by
  obtain ⟨level, item⟩ := l
  cases item <;> rfl

theorem oneLine_shown (l : ListingLine) : OneLine l.shown := by
  refine oneLine_append.mpr ⟨?_, ?_⟩
  · simp [OneLine, indentation]
  · cases l.item with
    | header id s => exact s.oneLine_line id
    | unknown id => exact oneLine_append.mpr ⟨id.oneLine_text, by decide⟩
    | alternative => decide
    | closing => decide

theorem toList_join_text (lines : List ListingLine) :
    (String.join (lines.map text)).toList =
      ['\n'].intercalate (lines.map (·.shown.toList) ++ [[]]) := by
  induction lines with
  | nil => rfl
  | cons l rest ih =>
    rw [List.map_cons, String.join_cons, String.toList_append, ih]
    cases rest <;> simp [text, shown, List.intercalate_cons_cons]

theorem splitOn_join_text (lines : List ListingLine) :
    (String.join (lines.map text)).toList.splitOn '\n' = lines.map (·.shown.toList) ++ [[]] := by
  rw [toList_join_text]
  refine List.splitOn_intercalate _ (fun line hline => ?_) (by simp)
  rcases List.mem_append.mp hline with hline | hline
  · obtain ⟨l, _, rfl⟩ := List.mem_map.mp hline
    exact l.oneLine_shown
  · obtain rfl := List.mem_singleton.mp hline
    exact List.not_mem_nil

end ListingLine

-- ---------------------------------------------------------------------------
-- Braces
-- ---------------------------------------------------------------------------

def ListingItem.opens : ListingItem → Bool
  | header _ s => !s.blocks.isEmpty
  | _ => false

/-- Further in than the level, or between two branches that are. -/
def ListingLine.IsInside (level : Nat) (l : ListingLine) : Prop :=
  level < l.level ∨ l = ⟨level, .alternative⟩

/-- Lists are cut in one way at the first element that is not like those before. -/
theorem append_cons_inj {α : Type} {q : α → Prop} {first first' second second' : List α} {a a' : α}
    (hfirst : ∀ x ∈ first, q x) (hfirst' : ∀ x ∈ first', q x) (ha : ¬ q a) (ha' : ¬ q a')
    (h : first ++ a :: second = first' ++ a' :: second') : first = first' := by
  induction first generalizing first' with
  | nil =>
    cases first' with
    | nil => rfl
    | cons x rest => exact absurd ((List.cons.inj h).1 ▸ hfirst' x List.mem_cons_self) ha
  | cons x rest ih =>
    rw [List.forall_mem_cons] at hfirst
    cases first' with
    | nil => exact absurd ((List.cons.inj h).1 ▸ hfirst.1) ha'
    | cons x' rest' =>
      rw [List.forall_mem_cons] at hfirst'
      obtain ⟨rfl, htail⟩ := List.cons.inj h
      rw [ih hfirst.2 hfirst'.2 htail]

namespace Program

variable {p : Program} {level i j i' j' : Nat} {id : StmtId} {s : Stmt} {b : Block}
  {lines lines' inside : List ListingLine}

/-- The line at position `j` closes what the header at position `i` opens: both are on one level,
everything between them is further in, and it shows what the walk meets in the blocks of the
statement. -/
def Closes (p : Program) (lines : List ListingLine) (i j : Nat) : Prop :=
  ∃ level id s before inside after,
    lines = before ++ ⟨level, .header id s⟩ :: (inside ++ ⟨level, .closing⟩ :: after) ∧
    i = before.length ∧ j = before.length + inside.length + 1 ∧
    s.blocks ≠ [] ∧ (∀ l ∈ inside, l.IsInside level) ∧
    p.Walked .everything s.blocks.flatten (inside.filterMap (·.item.name?))

theorem not_isInside_header : ¬ ListingLine.IsInside level ⟨level, .header id s⟩ := by
  simp [ListingLine.IsInside]

theorem not_isInside_closing : ¬ ListingLine.IsInside level ⟨level, .closing⟩ := by
  simp [ListingLine.IsInside]

theorem Closes.unique_closing (h : p.Closes lines i j) (h' : p.Closes lines i j') : j = j' := by
  obtain ⟨level, id, s, before, inside, after, rfl, rfl, rfl, _, hinside, _⟩ := h
  obtain ⟨level', id', s', before', inside', after', heq, hi, rfl, _, hinside', _⟩ := h'
  obtain ⟨rfl, hrest⟩ := List.append_inj heq hi
  obtain ⟨hheader, htail⟩ := List.cons.inj hrest
  cases hheader
  rw [append_cons_inj hinside hinside' not_isInside_closing not_isInside_closing htail]

theorem Closes.unique_opening (h : p.Closes lines i j) (h' : p.Closes lines i' j) : i = i' := by
  obtain ⟨level, id, s, before, inside, after, rfl, rfl, rfl, _, hinside, _⟩ := h
  obtain ⟨level', id', s', before', inside', after', heq, rfl, hj, _, hinside', _⟩ := h'
  simp only [← List.cons_append, ← List.append_assoc] at heq
  obtain ⟨hopening, hclosing⟩ := List.append_inj heq (by simp; omega)
  cases (List.cons.inj hclosing).1
  -- Backwards, the header is the first line that is not inside.
  have hreverse := congrArg List.reverse hopening
  simp only [List.reverse_append, List.reverse_cons, List.append_assoc, List.singleton_append]
    at hreverse
  have hlength := congrArg List.length <| append_cons_inj
    (fun l hl => hinside l (List.mem_reverse.mp hl))
    (fun l hl => hinside' l (List.mem_reverse.mp hl))
    not_isInside_header not_isInside_header hreverse
  simp only [List.length_reverse] at hlength
  omega

theorem Closes.append (h : p.Closes lines i j) (lines' : List ListingLine) :
    p.Closes (lines ++ lines') i j := by
  obtain ⟨level, id, s, before, inside, after, rfl, hi, hj, h⟩ := h
  exact ⟨level, id, s, before, inside, after ++ lines', by simp, hi, hj, h⟩

theorem Closes.prepend (h : p.Closes lines i j) (lines' : List ListingLine) :
    p.Closes (lines' ++ lines) (lines'.length + i) (lines'.length + j) := by
  obtain ⟨level, id, s, before, inside, after, rfl, rfl, rfl, h⟩ := h
  exact ⟨level, id, s, lines' ++ before, inside, after, by simp, by simp, by simp; omega, h⟩

def Paired (p : Program) (lines : List ListingLine) (k : Nat) (item : ListingItem) : Prop :=
  (item.opens → ∃ j, p.Closes lines k j) ∧ (item = .closing → ∃ i, p.Closes lines i k)

theorem Paired.append {k : Nat} {item : ListingItem} (h : p.Paired lines k item)
    (lines' : List ListingLine) : p.Paired (lines ++ lines') k item :=
  ⟨fun hopens => (h.1 hopens).imp fun _ hj => hj.append lines',
    fun hclosing => (h.2 hclosing).imp fun _ hi => hi.append lines'⟩

theorem Paired.prepend {k : Nat} {item : ListingItem} (h : p.Paired lines k item)
    (lines' : List ListingLine) : p.Paired (lines' ++ lines) (lines'.length + k) item := by
  refine ⟨fun hopens => ?_, fun hclosing => ?_⟩
  · obtain ⟨j, hj⟩ := h.1 hopens
    exact ⟨_, hj.prepend lines'⟩
  · obtain ⟨i, hi⟩ := h.2 hclosing
    exact ⟨_, hi.prepend lines'⟩

def Balanced (p : Program) (lines : List ListingLine) : Prop :=
  ∀ k l, lines[k]? = some l → p.Paired lines k l.item

theorem balanced_nil : p.Balanced [] := by
  intro k l hl
  cases hl

theorem balanced_singleton {item : ListingItem} (hopens : item.opens = false)
    (hclosing : item ≠ .closing) : p.Balanced [⟨level, item⟩] := by
  intro k l hl
  obtain rfl := List.mem_singleton.mp (List.mem_of_getElem? hl)
  exact ⟨fun h => absurd h (by simp [hopens]), fun h => absurd h hclosing⟩

theorem Balanced.append (h : p.Balanced lines) (h' : p.Balanced lines') :
    p.Balanced (lines ++ lines') := by
  intro k l hl
  by_cases hk : k < lines.length
  · rw [List.getElem?_append_left hk] at hl
    exact (h k l hl).append lines'
  · obtain ⟨k, rfl⟩ := Nat.exists_eq_add_of_le (Nat.le_of_not_lt hk)
    rw [List.getElem?_append_right (Nat.le_add_right ..), Nat.add_sub_cancel_left] at hl
    exact (h' k l hl).prepend lines

theorem Balanced.enclose (h : p.Balanced inside) (level : Nat) (id : StmtId) (s : Stmt)
    (hblocks : s.blocks ≠ [])
    (hinside : ∀ l ∈ inside, l.IsInside level)
    (hwalked : p.Walked .everything s.blocks.flatten (inside.filterMap (·.item.name?))) :
    p.Balanced (⟨level, .header id s⟩ :: (inside ++ [⟨level, .closing⟩])) := by
  have hcloses : p.Closes (⟨level, .header id s⟩ :: (inside ++ [⟨level, .closing⟩])) 0
      (inside.length + 1) :=
    ⟨level, id, s, [], inside, [], rfl, rfl, by simp, hblocks, hinside, hwalked⟩
  intro k l hl
  cases k with
  | zero =>
    obtain rfl := Option.some.inj hl
    exact ⟨fun _ => ⟨_, hcloses⟩, nofun⟩
  | succ k =>
    rw [List.getElem?_cons_succ] at hl
    rcases Nat.lt_trichotomy k inside.length with hk | rfl | hk
    · rw [List.getElem?_append_left hk] at hl
      have hpaired := ((h k l hl).append [⟨level, .closing⟩]).prepend [⟨level, .header id s⟩]
      rwa [List.length_singleton, Nat.add_comm] at hpaired
    · obtain rfl : ⟨level, .closing⟩ = l := by simpa using hl
      exact ⟨nofun, fun _ => ⟨0, hcloses⟩⟩
    · rw [List.getElem?_eq_none (by simp; omega)] at hl
      cases hl

theorem eq_of_mem_separator {second : Block} {l : ListingLine} (h : l ∈ separator level second) :
    l = ⟨level, .alternative⟩ := by
  unfold separator at h
  split at h
  · cases h
  · exact List.mem_singleton.mp h

theorem balanced_separator (level : Nat) (second : Block) :
    p.Balanced (separator level second) := by
  unfold separator
  split
  · exact balanced_nil
  · exact balanced_singleton rfl nofun

theorem Shows.level_le (h : p.Shows level b lines) : ∀ l ∈ lines, level ≤ l.level := by
  induction h with
  | nil => exact nofun
  | unknown _ _ ih => exact List.forall_mem_cons.mpr ⟨Nat.le_refl _, ih⟩
  | leaf _ _ _ ih => exact List.forall_mem_cons.mpr ⟨Nat.le_refl _, ih⟩
  | body _ _ _ _ ihinside ih =>
    simp only [List.forall_mem_cons, List.forall_mem_append]
    exact ⟨Nat.le_refl _, fun l hl => Nat.le_of_succ_le (ihinside l hl), Nat.le_refl _, ih⟩
  | branches _ _ _ _ _ ihfirst ihsecond ih =>
    simp only [List.forall_mem_cons, List.forall_mem_append]
    exact ⟨Nat.le_refl _, ⟨fun l hl => Nat.le_of_succ_le (ihfirst l hl),
      fun l hl => eq_of_mem_separator hl ▸ Nat.le_refl _,
      fun l hl => Nat.le_of_succ_le (ihsecond l hl)⟩, Nat.le_refl _, ih⟩

theorem Shows.balanced (h : p.Shows level b lines) : p.Balanced lines := by
  induction h with
  | nil => exact balanced_nil
  | @unknown level id _ _ _ _ ih =>
    have hline : p.Balanced [⟨level, .unknown id⟩] := balanced_singleton rfl nofun
    exact hline.append ih
  | @leaf level id s _ _ _ hblocks _ ih =>
    have hline : p.Balanced [⟨level, .header id s⟩] :=
      balanced_singleton (by simp [ListingItem.opens, hblocks]) nofun
    exact hline.append ih
  | @body level id s _ _ _ _ _ hblocks hinside _ ihinside ih =>
    have henclosed := ihinside.enclose level id s (by simp [hblocks])
      (fun l hl => .inl (hinside.level_le l hl)) (by simpa [hblocks] using hinside.walked)
    simpa using henclosed.append ih
  | @branches level id s _ b' _ first second _ _ hblocks hfirst hsecond _ ihfirst ihsecond ih =>
    have hinside : ∀ l ∈ first ++ (separator level b' ++ second), l.IsInside level := by
      simp only [List.forall_mem_append]
      exact ⟨fun l hl => .inl (hfirst.level_le l hl), fun l hl => .inr (eq_of_mem_separator hl),
        fun l hl => .inl (hsecond.level_le l hl)⟩
    have hwalked : p.Walked .everything s.blocks.flatten
        ((first ++ (separator level b' ++ second)).filterMap (·.item.name?)) := by
      have hseparator : (separator level b').filterMap (·.item.name?) = [] := by
        rw [← filterMap_name?, placeLines_separator, List.filterMap_nil]
      simpa [hblocks, hseparator] using
        walked_append.mpr ⟨_, _, hfirst.walked, hsecond.walked, rfl⟩
    have hbalanced := ihfirst.append ((balanced_separator level b').append ihsecond)
    have henclosed := hbalanced.enclose level id s (by simp [hblocks]) hinside hwalked
    simpa using henclosed.append ih

-- ---------------------------------------------------------------------------
-- Listings
-- ---------------------------------------------------------------------------

def heading (p : Program) : String :=
  "; IR version " ++ toString p.version.toNat ++ "\n; Statements: " ++ toString p.size ++ "\n" ++
    p.storage.listing ++ "\n"

theorem listing_eq (h : p.lines? = some lines) :
    p.listing = p.heading ++ String.join (lines.map ListingLine.text) := by
  unfold listing heading
  rw [h, Option.getD_some]

/-- Let no statement be inside itself. Then the listing consists of its heading and lines, which can
be told apart again, each indented by two spaces for its level. The lines that show names are those
of the places where the walk through everything meets them, in order, on the level that is the
number of owners around the place, and the headers among them are those of the statements that the
walk visits. Every header with blocks is closed by one line, and every closing line closes one
header. -/
theorem listing_follows_walk
    (h : ∀ id, p.Reachable id → ¬ TransGen (p.Owns .everything) id id) :
    ∃ lines tour, p.lines? = some lines ∧
      p.listing = p.heading ++ String.join (lines.map ListingLine.text) ∧
      (String.join (lines.map ListingLine.text)).toList.splitOn '\n' =
        lines.map (·.shown.toList) ++ [[]] ∧
      (∀ l ∈ lines, l.shown = String.ofList (List.replicate (2 * l.level) ' ') ++
        match l.item with
        | .header id s => s.line id
        | .unknown id => id.text ++ " = <unknown>"
        | .alternative => "\x7d else \x7b"
        | .closing => "\x7d") ∧
      p.Toured .everything [] p.root tour ∧
      (∀ v ∈ tour, p.Route .everything p.root (v.2 :: v.1)) ∧
      tour.map Prod.snd = p.trail .everything p.root ∧
      placeLines lines = tour.map p.placeLine ∧
      lines.filterMap (·.item.header?) = p.visits .everything p.root ∧
      (∀ i l, lines[i]? = some l → l.item.opens → ∃! j, p.Closes lines i j) ∧
      ∀ j l, lines[j]? = some l → l.item = .closing → ∃! i, p.Closes lines i j := by
  obtain ⟨_, htrail⟩ := exists_trail?_iff.mpr h
  obtain ⟨lines, hlines, hshows⟩ := exists_shows htrail
  obtain ⟨tour, htour, hplaces⟩ := hshows.exists_toured [] rfl
  have hnames : tour.map Prod.snd = p.trail .everything p.root := htour.walked.trail_eq.symm
  have hvisits : lines.filterMap (·.item.header?) = p.visits .everything p.root := by
    rw [← filterMap_header?, hplaces, filterMap_header?_placeLine, hnames, visits]
  have hbalanced := hshows.balanced
  refine ⟨lines, tour, hlines, listing_eq hlines, ListingLine.splitOn_join_text lines,
    fun l _ => l.shown_eq, htour, htour.routes, hnames, hplaces, hvisits,
    fun i l hl hopens => ?_, fun j l hl hclosing => ?_⟩
  · obtain ⟨j, hj⟩ := (hbalanced i l hl).1 hopens
    exact ⟨j, hj, fun j' hj' => hj'.unique_closing hj⟩
  · obtain ⟨i, hi⟩ := (hbalanced j l hl).2 hclosing
    exact ⟨i, hi, fun i' hi' => hi'.unique_opening hi⟩

/-- A constant at three depths of a task, and a name without a statement inside and after it. -/
def nestedProgram : Program where
  version := currentVersion
  storage := ⟨#[]⟩
  stmts := #[
    .task .serial none [⟨1⟩, ⟨2⟩, ⟨4⟩, ⟨9⟩],
    .const (.i32 7),
    .rangeFor ⟨1⟩ ⟨1⟩ [⟨1⟩, ⟨3⟩],
    .branch ⟨1⟩ [] [⟨1⟩, ⟨9⟩],
    .branch ⟨1⟩ [⟨1⟩] []]
  root := [⟨0⟩, ⟨9⟩]

def nestedLines : List ListingLine :=
  [⟨0, .header ⟨0⟩ (.task .serial none [⟨1⟩, ⟨2⟩, ⟨4⟩, ⟨9⟩])⟩,
    ⟨1, .header ⟨1⟩ (.const (.i32 7))⟩,
    ⟨1, .header ⟨2⟩ (.rangeFor ⟨1⟩ ⟨1⟩ [⟨1⟩, ⟨3⟩])⟩,
      ⟨2, .header ⟨1⟩ (.const (.i32 7))⟩,
      ⟨2, .header ⟨3⟩ (.branch ⟨1⟩ [] [⟨1⟩, ⟨9⟩])⟩,
      ⟨2, .alternative⟩,
        ⟨3, .header ⟨1⟩ (.const (.i32 7))⟩,
        ⟨3, .unknown ⟨9⟩⟩,
      ⟨2, .closing⟩,
    ⟨1, .closing⟩,
    ⟨1, .header ⟨4⟩ (.branch ⟨1⟩ [⟨1⟩] [])⟩,
      ⟨2, .header ⟨1⟩ (.const (.i32 7))⟩,
    ⟨1, .closing⟩,
    ⟨1, .unknown ⟨9⟩⟩,
  ⟨0, .closing⟩,
  ⟨0, .unknown ⟨9⟩⟩]

def nestedText : List String :=
  ["$0 = offloaded serial \x7b",
    "  $1 = const 7i32",
    "  $2 : for in range($1, $1) \x7b",
    "    $1 = const 7i32",
    "    $3 : if $1 \x7b",
    "    \x7d else \x7b",
    "      $1 = const 7i32",
    "      $9 = <unknown>",
    "    \x7d",
    "  \x7d",
    "  $4 : if $1 \x7b",
    "    $1 = const 7i32",
    "  \x7d",
    "  $9 = <unknown>",
    "\x7d",
    "$9 = <unknown>"]

/-- The loop has the third line, and the last line but one closes the task. -/
theorem nestedLines_follow_walk :
    (∀ id, nestedProgram.Reachable id → ¬ TransGen (nestedProgram.Owns .everything) id id) ∧
      nestedProgram.listing = "; IR version 1\n; Statements: 5\n\n" ++
        String.join (nestedLines.map ListingLine.text) ∧
      (String.join (nestedLines.map ListingLine.text)).toList.splitOn '\n' =
        nestedText.map String.toList ++ [[]] ∧
      nestedLines.filterMap (·.item.header?) =
        nestedProgram.visits .everything nestedProgram.root ∧
      (∃! j, nestedProgram.Closes nestedLines 2 j) ∧
      ∃! i, nestedProgram.Closes nestedLines i 14 := by
  have hacyclic : ∀ id, nestedProgram.Reachable id →
      ¬ TransGen (nestedProgram.Owns .everything) id id :=
    exists_trail?_iff.mp (Option.isSome_iff_exists.mp (by decide +kernel))
  obtain ⟨lines, _, hlines, hlisting, hcut, _, _, _, _, _, hvisits, hopening, hclosing⟩ :=
    listing_follows_walk hacyclic
  have hnested : nestedProgram.lines? = some nestedLines := by decide +kernel
  obtain rfl : nestedLines = lines := Option.some.inj (hnested.symm.trans hlines)
  have hheading : nestedProgram.heading = "; IR version 1\n; Statements: 5\n\n" := by
    decide +kernel
  have hshown : nestedLines.map (·.shown.toList) = nestedText.map String.toList := by
    decide +kernel
  rw [hheading] at hlisting
  rw [hshown] at hcut
  exact ⟨hacyclic, hlisting, hcut, hvisits, hopening 2 _ rfl rfl, hclosing 14 _ rfl rfl⟩

end Program

end UniqueAccess
