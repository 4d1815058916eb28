import UniqueAccess.Program.Listing
import UniqueAccess.Proofs.Program.Tour
import UniqueAccess.Proofs.Program.Validity

/-!
# The lines of a block

A listing and the walk through everything are two recursions over the same blocks. `Shows` says what
lines a block has without counting how deep it is nested. A program has lines wherever the walk ends
(`exists_shows`), and those that show names are the places of a tour, in order
(`Shows.exists_toured`).
-/

namespace UniqueAccess

namespace ListingItem

def name? : ListingItem → Option StmtId
  | header id _ => some id
  | unknown id => some id
  | _ => none

def header? : ListingItem → Option (StmtId × Stmt)
  | header id s => some (id, s)
  | _ => none

end ListingItem

namespace Program

variable {p : Program} {level n : Nat} {id : StmtId} {s : Stmt} {b b' rest : Block}
  {lines lines' l inside owned : List ListingLine}

-- ---------------------------------------------------------------------------
-- The lines of a block
-- ---------------------------------------------------------------------------

/-- The line between two branches; there is none before a second branch that is empty. -/
def separator (level : Nat) (second : Block) : List ListingLine :=
  if second.isEmpty then [] else [⟨level, .alternative⟩]

/-- These are the lines of a block at this level. -/
inductive Shows (p : Program) : Nat → Block → List ListingLine → Prop
  | nil {level : Nat} : Shows p level [] []
  | unknown {level : Nat} {id : StmtId} {rest : Block} {l : List ListingLine} :
      p.stmt? id = none → Shows p level rest l →
      Shows p level (id :: rest) (⟨level, .unknown id⟩ :: l)
  | leaf {level : Nat} {id : StmtId} {s : Stmt} {rest : Block} {l : List ListingLine} :
      p.stmt? id = some s → s.blocks = [] → Shows p level rest l →
      Shows p level (id :: rest) (⟨level, .header id s⟩ :: l)
  | body {level : Nat} {id : StmtId} {s : Stmt} {b rest : Block} {inside l : List ListingLine} :
      p.stmt? id = some s → s.blocks = [b] → Shows p (level + 1) b inside →
      Shows p level rest l →
      Shows p level (id :: rest) (⟨level, .header id s⟩ :: (inside ++ ⟨level, .closing⟩ :: l))
  | branches {level : Nat} {id : StmtId} {s : Stmt} {b b' rest : Block}
      {first second l : List ListingLine} :
      p.stmt? id = some s → s.blocks = [b, b'] → Shows p (level + 1) b first →
      Shows p (level + 1) b' second → Shows p level rest l →
      Shows p level (id :: rest) (⟨level, .header id s⟩ ::
        ((first ++ (separator level b' ++ second)) ++ ⟨level, .closing⟩ :: l))

def itemLines? (p : Program) (n level : Nat) (id : StmtId) : Option (List ListingLine) :=
  match p.stmt? id with
  | none => some [⟨level, .unknown id⟩]
  | some s => (ownedLines? (p.linesWithin? n (level + 1)) level s).map (⟨level, .header id s⟩ :: ·)

theorem linesWithin?_nil : p.linesWithin? n level [] = some [] := by
  cases n <;> rfl

theorem linesWithin?_cons :
    p.linesWithin? (n + 1) level (id :: rest) =
      (p.itemLines? n level id).bind fun first =>
        (p.linesWithin? (n + 1) level rest).map (first ++ ·) :=
  flatten_mapM_cons _ id rest

theorem linesWithin?_cons_eq_some :
    p.linesWithin? (n + 1) level (id :: rest) = some lines ↔
      ∃ first l, p.itemLines? n level id = some first ∧
        p.linesWithin? (n + 1) level rest = some l ∧ first ++ l = lines := by
  simp only [linesWithin?_cons, Option.bind_eq_some_iff, Option.map_eq_some_iff, exists_and_left]

theorem ownedLines?_eq_some {lines? : Block → Option (List ListingLine)}
    (h : ownedLines? lines? level s = some owned) :
    (s.blocks = [] ∧ owned = []) ∨
    (∃ b inside, s.blocks = [b] ∧ lines? b = some inside ∧ owned = inside ++ [⟨level, .closing⟩]) ∨
    ∃ b b' first second, s.blocks = [b, b'] ∧ lines? b = some first ∧
      (b' = [] ∧ second = [] ∨ lines? b' = some second) ∧
      owned = (first ++ (separator level b' ++ second)) ++ [⟨level, .closing⟩] := by
  cases s with
  | branch cond onTrue onFalse =>
    refine .inr (.inr ?_)
    obtain ⟨first, hfirst, h⟩ := Option.bind_eq_some_iff.mp h
    split at h
    · next hempty =>
      obtain rfl := Option.some.inj h
      refine ⟨onTrue, onFalse, first, [], rfl, hfirst, .inl ⟨?_, rfl⟩, ?_⟩
      · exact List.isEmpty_iff.mp hempty
      · simp [separator, hempty]
    · next hempty =>
      obtain ⟨second, hsecond, h⟩ := Option.bind_eq_some_iff.mp h
      obtain rfl := Option.some.inj h
      exact ⟨onTrue, onFalse, first, second, rfl, hfirst, .inr hsecond, by simp [separator, hempty]⟩
  | rangeFor first last body =>
    obtain ⟨inside, hinside, rfl⟩ := Option.map_eq_some_iff.mp h
    exact .inr (.inl ⟨body, inside, rfl, hinside, rfl⟩)
  | task kind container body =>
    obtain ⟨inside, hinside, rfl⟩ := Option.map_eq_some_iff.mp h
    exact .inr (.inl ⟨body, inside, rfl, hinside, rfl⟩)
  | _ => exact .inl ⟨rfl, (Option.some.inj h).symm⟩

theorem exists_ownedLines? {lines? : Block → Option (List ListingLine)}
    (h : ∀ b ∈ s.blocks, ∃ l, lines? b = some l) (level : Nat) :
    ∃ owned, ownedLines? lines? level s = some owned := by
  cases s with
  | branch cond onTrue onFalse =>
    obtain ⟨first, hfirst⟩ := h onTrue (by simp [Stmt.blocks])
    obtain ⟨second, hsecond⟩ := h onFalse (by simp [Stmt.blocks])
    by_cases hempty : onFalse.isEmpty <;> simp [ownedLines?, hfirst, hsecond, hempty]
  | rangeFor first last body =>
    obtain ⟨inside, hinside⟩ := h body (by simp [Stmt.blocks])
    exact ⟨_, by rw [ownedLines?, hinside]; rfl⟩
  | task kind container body =>
    obtain ⟨inside, hinside⟩ := h body (by simp [Stmt.blocks])
    exact ⟨_, by rw [ownedLines?, hinside]; rfl⟩
  | _ => exact ⟨[], rfl⟩

theorem exists_itemLines? (h : ∀ s, p.stmt? id = some s → ∀ b ∈ s.blocks,
    ∃ l, p.linesWithin? n (level + 1) b = some l) : ∃ l, p.itemLines? n level id = some l := by
  unfold itemLines?
  cases hs : p.stmt? id with
  | none => exact ⟨_, rfl⟩
  | some s =>
    obtain ⟨owned, howned⟩ := exists_ownedLines? (h s hs) level
    exact ⟨⟨level, .header id s⟩ :: owned, by simp [howned]⟩

theorem shows_of_linesWithin? (h : p.linesWithin? n level b = some lines) :
    p.Shows level b lines := by
  induction n generalizing level b lines with
  | zero =>
    cases b with
    | nil => cases h; exact .nil
    | cons id rest => simp [linesWithin?] at h
  | succ n ih =>
    induction b generalizing lines with
    | nil => cases h; exact .nil
    | cons id rest ihb =>
      obtain ⟨first, l, hfirst, hl, rfl⟩ := linesWithin?_cons_eq_some.mp h
      unfold itemLines? at hfirst
      split at hfirst
      · next hs => cases hfirst; exact .unknown hs (ihb hl)
      · next s hs =>
        obtain ⟨owned, howned, rfl⟩ := Option.map_eq_some_iff.mp hfirst
        rcases ownedLines?_eq_some howned with ⟨hblocks, rfl⟩ | ⟨b, inside, hblocks, hinside, rfl⟩ |
          ⟨b, b', first, second, hblocks, hb, hsecond, rfl⟩
        · exact .leaf hs hblocks (ihb hl)
        · simpa using Shows.body hs hblocks (ih hinside) (ihb hl)
        · have hsecond : p.Shows (level + 1) b' second := by
            rcases hsecond with ⟨rfl, rfl⟩ | hsecond
            · exact .nil
            · exact ih hsecond
          simpa using Shows.branches hs hblocks (ih hb) hsecond (ihb hl)

theorem exists_trailWithin?_of_append {scope : WalkScope} {t : List StmtId}
    (h : p.trailWithin? scope n (b ++ b') = some t) :
    (∃ t, p.trailWithin? scope n b = some t) ∧ ∃ t, p.trailWithin? scope n b' = some t := by
  cases n with
  | zero =>
    obtain ⟨rfl, rfl⟩ : b = [] ∧ b' = [] := by
      cases b <;> cases b' <;> simp [trailWithin?] at h ⊢
    exact ⟨⟨[], rfl⟩, [], rfl⟩
  | succ n =>
    induction b generalizing t with
    | nil => exact ⟨⟨[], rfl⟩, t, h⟩
    | cons id rest ih =>
      obtain ⟨inner, t', hinner, ht', rfl⟩ := trailWithin?_cons_eq_some.mp h
      obtain ⟨⟨t'', ht''⟩, hb'⟩ := ih ht'
      exact ⟨⟨_, trailWithin?_cons_eq_some.mpr ⟨inner, t'', hinner, ht'', rfl⟩⟩, hb'⟩

theorem exists_trailWithin?_of_mem {scope : WalkScope} {blocks : List Block} {t : List StmtId}
    (h : p.trailWithin? scope n blocks.flatten = some t) :
    ∀ b ∈ blocks, ∃ t, p.trailWithin? scope n b = some t := by
  induction blocks generalizing t with
  | nil => exact nofun
  | cons first rest ih =>
    obtain ⟨hfirst, _, hrest⟩ := exists_trailWithin?_of_append h
    exact List.forall_mem_cons.mpr ⟨hfirst, ih hrest⟩

/-- The listing needs no more depth than the walk. -/
theorem exists_linesWithin? {t : List StmtId} (h : p.trailWithin? .everything n b = some t)
    (level : Nat) : ∃ lines, p.linesWithin? n level b = some lines := by
  induction n generalizing level b t with
  | zero =>
    cases b with
    | nil => exact ⟨[], rfl⟩
    | cons id rest => simp [trailWithin?] at h
  | succ n ih =>
    induction b generalizing t with
    | nil => exact ⟨[], linesWithin?_nil⟩
    | cons id rest ihb =>
      obtain ⟨inner, t', hinner, ht', rfl⟩ := trailWithin?_cons_eq_some.mp h
      obtain ⟨l, hl⟩ := ihb ht'
      obtain ⟨first, hfirst⟩ : ∃ first, p.itemLines? n level id = some first := by
        refine exists_itemLines? fun s hs b hb => ?_
        simp only [inside?, hs, nested_everything] at hinner
        obtain ⟨_, ht⟩ := exists_trailWithin?_of_mem hinner b hb
        exact ih ht (level + 1)
      exact ⟨_, linesWithin?_cons_eq_some.mpr ⟨first, l, hfirst, hl, rfl⟩⟩

theorem exists_shows {t : List StmtId} (h : p.trail? .everything p.root = some t) :
    ∃ lines, p.lines? = some lines ∧ p.Shows 0 p.root lines := by
  obtain ⟨lines, hlines⟩ := exists_linesWithin? h 0
  exact ⟨lines, hlines, shows_of_linesWithin? hlines⟩

-- ---------------------------------------------------------------------------
-- The names in the lines
-- ---------------------------------------------------------------------------

/-- The line of a name that is met inside the blocks of these owners. -/
def placeLine (p : Program) (v : List StmtId × StmtId) : ListingLine where
  level := v.1.length
  item :=
    match p.stmt? v.2 with
    | none => .unknown v.2
    | some s => .header v.2 s

theorem placeLine_of_none {owners : List StmtId} (hs : p.stmt? id = none) :
    p.placeLine (owners, id) = ⟨owners.length, .unknown id⟩ := by
  simp [placeLine, hs]

theorem placeLine_of_some {owners : List StmtId} (hs : p.stmt? id = some s) :
    p.placeLine (owners, id) = ⟨owners.length, .header id s⟩ := by
  simp [placeLine, hs]

def placeLines (lines : List ListingLine) : List ListingLine :=
  lines.filter fun l => l.item.name?.isSome

/-- What is read off lines that show names is not there on other lines. -/
theorem filterMap_placeLines {α : Type} {f : ListingItem → Option α}
    (hf : ∀ item : ListingItem, item.name? = none → f item = none) :
    (placeLines lines).filterMap (f ·.item) = lines.filterMap (f ·.item) := by
  rw [placeLines, List.filterMap_filter]
  refine List.filterMap_congr fun l _ => ?_
  cases hname : l.item.name? with
  | none => simp [hf _ hname]
  | some id => simp

theorem filterMap_name? :
    (placeLines lines).filterMap (·.item.name?) = lines.filterMap (·.item.name?) :=
  filterMap_placeLines fun _ => id

theorem filterMap_header? :
    (placeLines lines).filterMap (·.item.header?) = lines.filterMap (·.item.header?) :=
  filterMap_placeLines fun item hname => by
    cases item with
    | header id s => cases hname
    | _ => rfl

@[simp] theorem placeLines_append :
    placeLines (lines ++ lines') = placeLines lines ++ placeLines lines' :=
  List.filter_append ..

@[simp] theorem placeLines_unknown :
    placeLines (⟨level, .unknown id⟩ :: l) = ⟨level, .unknown id⟩ :: placeLines l := rfl

@[simp] theorem placeLines_header :
    placeLines (⟨level, .header id s⟩ :: l) = ⟨level, .header id s⟩ :: placeLines l := rfl

@[simp] theorem placeLines_closing : placeLines (⟨level, .closing⟩ :: l) = placeLines l := rfl

@[simp] theorem placeLines_separator : placeLines (separator level b) = [] := by
  unfold separator
  split <;> rfl

theorem Shows.exists_toured (h : p.Shows level b lines) :
    ∀ owners : List StmtId, owners.length = level →
      ∃ tour, p.Toured .everything owners b tour ∧ placeLines lines = tour.map p.placeLine := by
  induction h with
  | nil => exact fun owners _ => ⟨[], .nil, rfl⟩
  | unknown hs _ ih =>
    intro owners hlevel
    obtain ⟨tour, htour, hlines⟩ := ih owners hlevel
    refine ⟨_, .unknown hs htour, ?_⟩
    rw [placeLines_unknown, hlines, List.map_cons, placeLine_of_none hs, hlevel]
  | @leaf _ id s _ _ hs hblocks _ ih =>
    intro owners hlevel
    obtain ⟨tour, htour, hlines⟩ := ih owners hlevel
    have hinner : p.Toured .everything (id :: owners) (nested .everything s) [] := by
      simpa [hblocks] using .nil
    refine ⟨_, .known hs hinner htour, ?_⟩
    rw [placeLines_header, hlines, List.nil_append, List.map_cons, placeLine_of_some hs, hlevel]
  | @body _ id s _ _ _ _ hs hblocks _ _ ihinside ih =>
    intro owners hlevel
    obtain ⟨tour, htour, hlines⟩ := ih owners hlevel
    obtain ⟨inner, hinner, hinside⟩ := ihinside (id :: owners) (by simp [hlevel])
    have hinner : p.Toured .everything (id :: owners) (nested .everything s) inner := by
      simpa [hblocks] using hinner
    refine ⟨_, .known hs hinner htour, ?_⟩
    simp [hlines, hinside, placeLine_of_some hs, hlevel]
  | @branches _ id s _ _ _ _ _ _ hs hblocks _ _ _ ihfirst ihsecond ih =>
    intro owners hlevel
    obtain ⟨tour, htour, hlines⟩ := ih owners hlevel
    obtain ⟨inner, hinner, hfirst⟩ := ihfirst (id :: owners) (by simp [hlevel])
    obtain ⟨inner', hinner', hsecond⟩ := ihsecond (id :: owners) (by simp [hlevel])
    have hboth : p.Toured .everything (id :: owners) (nested .everything s) (inner ++ inner') := by
      simpa [hblocks] using hinner.append hinner'
    refine ⟨_, .known hs hboth htour, ?_⟩
    simp [hlines, hfirst, hsecond, placeLine_of_some hs, hlevel]

theorem filterMap_header?_placeLine (tour : List (List StmtId × StmtId)) :
    (tour.map p.placeLine).filterMap (·.item.header?) =
      (tour.map Prod.snd).filterMap p.visit? := by
  rw [List.filterMap_map, List.filterMap_map]
  refine List.filterMap_congr fun v _ => ?_
  cases hs : p.stmt? v.2 <;> simp [placeLine, visit?, hs, ListingItem.header?]

theorem Shows.walked (h : p.Shows level b lines) :
    p.Walked .everything b (lines.filterMap (·.item.name?)) := by
  obtain ⟨tour, htour, hlines⟩ :=
    h.exists_toured (List.replicate level default) List.length_replicate
  have hnames : lines.filterMap (·.item.name?) = tour.map Prod.snd := by
    rw [← filterMap_name?, hlines, List.filterMap_map, ← List.filterMap_eq_map]
    refine List.filterMap_congr fun v _ => ?_
    cases hs : p.stmt? v.2 <;> simp [placeLine, hs, ListingItem.name?]
  exact hnames ▸ htour.walked

end Program

end UniqueAccess
