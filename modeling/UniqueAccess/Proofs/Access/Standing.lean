import UniqueAccess.Id

/-!
# The representative that stands

Pointers into a node, and fields of a container, are judged in the same way: what comes first may
bring a representative, what comes later can only agree with it or refute it for good.
-/

namespace UniqueAccess

variable {α : Type} {brings : α → Option StmtId} {agrees : StmtId → α → Bool}

/-- The representative after all of a list: the one that its first item brings, unless a later item
does not agree. -/
def standing (brings : α → Option StmtId) (agrees : StmtId → α → Bool) : List α → Option StmtId
  | [] => none
  | first :: later => (brings first).filter fun r => later.all (agrees r)

def entryOf (brings : α → Option StmtId) (agrees : StmtId → α → Bool) :
    List α → Option (Option StmtId)
  | [] => none
  | items => some (standing brings agrees items)

def nextEntry (brings : α → Option StmtId) (agrees : StmtId → α → Bool) (item : α) :
    Option (Option StmtId) → Option StmtId
  | none => brings item
  | some representative => representative.filter (agrees · item)

theorem entryOf_append_singleton (items : List α) (item : α) :
    entryOf brings agrees (items ++ [item]) =
      some (nextEntry brings agrees item (entryOf brings agrees items)) := by
  cases items with
  | nil => cases h : brings item <;> simp [entryOf, standing, nextEntry, h]
  | cons first later =>
    cases hfirst : brings first with
    | none => simp [entryOf, standing, nextEntry, hfirst]
    | some r =>
      by_cases hlater : later.all (agrees r) <;> by_cases hitem : agrees r item <;>
        simp_all [entryOf, standing, nextEntry]

theorem exists_entryOf_iff {items : List α} :
    (∃ entry, entryOf brings agrees items = some entry) ↔ ∃ item, item ∈ items := by
  cases items with
  | nil => simp [entryOf]
  | cons first later => exact ⟨fun _ => ⟨first, List.mem_cons_self⟩, fun _ => ⟨_, rfl⟩⟩

theorem entryOf_eq_some {items : List α} {r : StmtId} :
    entryOf brings agrees items = some (some r) ↔
      ∃ first later, items = first :: later ∧ brings first = some r ∧
        ∀ item ∈ later, agrees r item := by
  cases items with
  | nil => simp [entryOf]
  | cons first later =>
    simp only [entryOf, standing, Option.some.injEq, Option.filter_eq_some_iff, List.all_eq_true]
    constructor
    · exact fun ⟨hfirst, hlater⟩ => ⟨first, later, rfl, hfirst, hlater⟩
    · rintro ⟨_, _, hitems, hfirst, hlater⟩
      obtain ⟨rfl, rfl⟩ := List.cons.inj hitems
      exact ⟨hfirst, hlater⟩

-- ---------------------------------------------------------------------------
-- Other orders
-- ---------------------------------------------------------------------------

theorem entryOf_congr {brings' : α → Option StmtId} {items : List α}
    (h : ∀ item ∈ items, brings item = brings' item) :
    entryOf brings agrees items = entryOf brings' agrees items := by
  cases items with
  | nil => rfl
  | cons first later => simp only [entryOf, standing, h first List.mem_cons_self]

/-- Items bring themselves, and those that agree bring themselves together or not at all. -/
structure Interchangeable (brings : StmtId → Option StmtId) (agrees : StmtId → StmtId → Bool)
    (items : List StmtId) : Prop where
  self : ∀ a ∈ items, ∀ r, brings a = some r → r = a
  brings : ∀ a ∈ items, ∀ b ∈ items, agrees a b → brings a = some a → brings b = some b
  refl : ∀ a ∈ items, agrees a a
  symm : ∀ a ∈ items, ∀ b ∈ items, agrees a b → agrees b a
  trans : ∀ a ∈ items, ∀ b ∈ items, ∀ c ∈ items, agrees a b → agrees b c → agrees a c

variable {brings : StmtId → Option StmtId} {agrees : StmtId → StmtId → Bool}
  {items items' : List StmtId}

/-- Whichever item comes first, a representative stands, and it agrees with the one that would
stand if another came first. -/
theorem Interchangeable.exists_entryOf (h : Interchangeable brings agrees items)
    (hmem : ∀ a, a ∈ items ↔ a ∈ items') {r : StmtId}
    (hr : entryOf brings agrees items = some (some r)) :
    ∃ r', entryOf brings agrees items' = some (some r') ∧ agrees r r' := by
  obtain ⟨first, later, hitems, hfirst, hlater⟩ := entryOf_eq_some.mp hr
  have hr : r ∈ items := h.self first (hitems ▸ List.mem_cons_self) r hfirst ▸
    hitems ▸ List.mem_cons_self
  obtain rfl := h.self first (hitems ▸ List.mem_cons_self) r hfirst
  have hall : ∀ a ∈ items, agrees r a := by
    intro a ha
    rw [hitems] at ha
    rcases List.mem_cons.mp ha with rfl | ha
    · exact h.refl a hr
    · exact hlater a ha
  cases hitems' : items' with
  | nil => exact absurd ((hmem r).mp hr) (by simp [hitems'])
  | cons first' later' =>
    have hfirst' : first' ∈ items := (hmem first').mpr (hitems' ▸ List.mem_cons_self)
    have hsame := hall first' hfirst'
    refine ⟨first', entryOf_eq_some.mpr ⟨first', later', rfl, ?_, fun a ha => ?_⟩, hsame⟩
    · exact h.brings r hr first' hfirst' hsame hfirst
    · have ha : a ∈ items := (hmem a).mpr (hitems' ▸ List.mem_cons_of_mem _ ha)
      exact h.trans first' hfirst' r hr a ha (h.symm r hr first' hfirst' hsame) (hall a ha)

end UniqueAccess
