import UniqueAccess.Proofs.Program.Validity
import Mathlib.Data.List.Pairwise

/-!
# Places

A place is a position in the root block or in the blocks of a statement that can be reached from the
root. If every name that can be reached has one place only, then blocks lead nowhere back, and a
walk through the root ends and meets no name twice. The converse holds as well (`nodup_iff`): what a
walk meets is, up to order, the names at all places.
-/

namespace UniqueAccess

namespace Program

open Relation (ReflTransGen TransGen)

variable {p : Program} {scope : WalkScope}

def ownedBy (p : Program) (scope : WalkScope) (owner : StmtId) : Block :=
  match p.stmt? owner with
  | none => []
  | some s => nested scope s

theorem ownedBy_eq {owner : StmtId} {s : Stmt} (hs : p.stmt? owner = some s) :
    p.ownedBy scope owner = nested scope s := by
  simp [ownedBy, hs]

theorem mem_ownedBy {owner id : StmtId} : id ∈ p.ownedBy scope owner ↔ p.Owns scope owner id := by
  unfold ownedBy Owns
  cases p.stmt? owner with
  | none => simp
  | some s => simp

abbrev Reachable (p : Program) (id : StmtId) : Prop := p.Under .everything p.root id

def listedUnder (p : Program) : Option StmtId → Block
  | none => p.root
  | some owner => p.ownedBy .everything owner

/-- A name stands at a position in what the root block or a reachable statement lists. -/
def ListsAt (p : Program) (place : Option StmtId × Nat) (id : StmtId) : Prop :=
  (∀ owner, place.1 = some owner → p.Reachable owner) ∧
    (p.listedUnder place.1)[place.2]? = some id

theorem ListsAt.of_root {i : Nat} {id : StmtId} (h : p.root[i]? = some id) :
    p.ListsAt (none, i) id :=
  ⟨nofun, h⟩

theorem ListsAt.of_owner {owner id : StmtId} {i : Nat} (howner : p.Reachable owner)
    (h : (p.ownedBy .everything owner)[i]? = some id) : p.ListsAt (some owner, i) id :=
  ⟨fun _ h => Option.some.inj h ▸ howner, h⟩

theorem exists_listsAt_root {id : StmtId} (h : id ∈ p.root) : ∃ i, p.ListsAt (none, i) id := by
  obtain ⟨i, hi⟩ := List.mem_iff_getElem?.mp h
  exact ⟨i, .of_root hi⟩

theorem exists_listsAt_owner {owner id : StmtId} (howner : p.Reachable owner)
    (h : p.Owns .everything owner id) : ∃ i, p.ListsAt (some owner, i) id := by
  obtain ⟨i, hi⟩ := List.mem_iff_getElem?.mp (mem_ownedBy.mpr h)
  exact ⟨i, .of_owner howner hi⟩

theorem reachable_iff {id : StmtId} : p.Reachable id ↔ ∃ place, p.ListsAt place id := by
  constructor
  · rintro ⟨top, htop, hencl⟩
    rcases ReflTransGen.cases_tail hencl with rfl | ⟨owner, howner, howns⟩
    · obtain ⟨i, hi⟩ := exists_listsAt_root htop
      exact ⟨_, hi⟩
    · obtain ⟨i, hi⟩ := exists_listsAt_owner ⟨top, htop, howner⟩ howns
      exact ⟨_, hi⟩
  · rintro ⟨⟨none | owner, i⟩, howner, hi⟩
    · exact ⟨id, List.mem_of_getElem? hi, .refl⟩
    · obtain ⟨top, htop, hencl⟩ := howner owner rfl
      exact ⟨top, htop, hencl.tail (mem_ownedBy.mp (List.mem_of_getElem? hi))⟩

-- ---------------------------------------------------------------------------
-- Walks that end
-- ---------------------------------------------------------------------------

theorem exists_walked_of_mem {b : Block}
    (h : ∀ id ∈ b, ∀ s, p.stmt? id = some s → ∃ inner, p.Walked scope (nested scope s) inner) :
    ∃ l, p.Walked scope b l := by
  induction b with
  | nil => exact ⟨[], .nil⟩
  | cons id rest ih =>
    obtain ⟨l, hl⟩ := ih fun id' hid' => h id' (List.mem_cons_of_mem _ hid')
    cases hs : p.stmt? id with
    | none => exact ⟨id :: l, .unknown hs hl⟩
    | some s =>
      obtain ⟨inner, hinner⟩ := h id List.mem_cons_self s hs
      exact ⟨id :: (inner ++ l), .known hs hinner hl⟩

theorem exists_walked {b : Block}
    (h : ∀ id, p.Under scope b id → ¬ TransGen (p.Owns scope) id id) :
    ∃ l, p.Walked scope b l := by
  let below (outer inner : { id // p.Under scope b id }) : Prop := p.Owns scope outer inner
  have hacyclic : ∀ id, ¬ TransGen below id id := fun id hcycle =>
    h id id.2 (hcycle.lift Subtype.val fun _ _ howns => howns)
  have hinner : ∀ id : { id // p.Under scope b id }, ∀ s, p.stmt? id = some s →
      ∃ inner, p.Walked scope (nested scope s) inner := by
    intro id
    induction id using (wellFounded_of_acyclic hacyclic).induction with
    | _ id ih =>
      intro s hs
      refine exists_walked_of_mem fun inner hmem => ?_
      have hunder : p.Under scope b inner := by
        obtain ⟨top, htop, hencl⟩ := id.2
        exact ⟨top, htop, hencl.tail ⟨s, hs, hmem⟩⟩
      exact ih ⟨inner, hunder⟩ (.single ⟨s, hs, hmem⟩)
  exact exists_walked_of_mem fun id hid => hinner ⟨id, id, hid, .refl⟩

theorem Walked.not_owns_itself {b : Block} {l : List StmtId} {id : StmtId}
    (h : p.Walked scope b l) (hid : id ∈ l) : ¬ TransGen (p.Owns scope) id id := by
  intro hcycle
  obtain ⟨next, ⟨s, hs, hnext⟩, hencl⟩ := TransGen.head'_iff.mp hcycle
  obtain ⟨inner, hinner, _⟩ := h.exists_inner hid hs
  -- The walk through what the statement owns would be a part of itself that leaves out its start.
  have hinside : id ∈ inner := hinner.mem_iff.mpr ⟨next, hnext, hencl⟩
  obtain ⟨inner', hinner', hpart⟩ := hinner.exists_inner hinside hs
  obtain rfl : inner' = inner := hinner'.trail_eq.symm.trans hinner.trail_eq
  exact absurd hpart.length_le (by simp)

theorem exists_trail?_iff {b : Block} :
    (∃ l, p.trail? scope b = some l) ↔
      ∀ id, p.Under scope b id → ¬ TransGen (p.Owns scope) id id := by
  simp only [trail?_eq_some]
  exact ⟨fun ⟨_, hl⟩ id hid => hl.not_owns_itself (hl.mem_iff.mpr hid), exists_walked⟩

theorem not_owns_itself (honce : ∀ id, p.Reachable id → ∃! place, p.ListsAt place id)
    {id : StmtId} (hid : p.Reachable id) : ¬ TransGen (p.Owns .everything) id id := by
  obtain ⟨top, htop, hencl⟩ := hid
  -- The way from the root to a circle would have to enter it at a second place.
  induction hencl with
  | refl =>
    intro hcycle
    obtain ⟨owner, hreach, howns⟩ := TransGen.tail'_iff.mp hcycle
    obtain ⟨i, hi⟩ := exists_listsAt_root htop
    obtain ⟨j, hj⟩ := exists_listsAt_owner ⟨top, htop, hreach⟩ howns
    exact nomatch (honce top ⟨top, htop, .refl⟩).unique hi hj
  | @tail owner id howner howns ih =>
    intro hcycle
    obtain ⟨owner', hreach, howns'⟩ := TransGen.tail'_iff.mp hcycle
    have hid : p.Reachable id := ⟨top, htop, howner.tail howns⟩
    obtain ⟨i, hi⟩ := exists_listsAt_owner ⟨top, htop, howner⟩ howns
    obtain ⟨j, hj⟩ := exists_listsAt_owner ⟨top, htop, (howner.tail howns).trans hreach⟩ howns'
    have heq := congrArg Prod.fst ((honce id hid).unique hi hj)
    obtain rfl := Option.some.inj heq
    exact ih (TransGen.head' howns hreach)

-- ---------------------------------------------------------------------------
-- Walks that meet no name twice
-- ---------------------------------------------------------------------------

/-- What a walk meets is what its block lists and what the statements that it meets own. -/
theorem Walked.perm {b : Block} {l : List StmtId} (h : p.Walked scope b l) :
    l.Perm (b ++ l.flatMap (p.ownedBy scope)) := by
  rw [List.perm_iff_count]
  intro a
  induction h with
  | nil => rfl
  | unknown hs _ ih =>
    simp only [List.flatMap_cons, List.cons_append, List.count_cons, List.count_append] at ih ⊢
    simp only [ownedBy, hs, List.count_nil]
    omega
  | known hs _ _ ihinner ih =>
    simp only [List.flatMap_cons, List.flatMap_append, List.cons_append, List.count_cons,
      List.count_append, ownedBy_eq hs] at ihinner ih ⊢
    omega

section
variable {α β : Type} [DecidableEq α] [DecidableEq β]

theorem count_eq_one {l : List α} {a : α} {i : Nat} (h : l[i]? = some a)
    (hunique : ∀ j, l[j]? = some a → j = i) : l.count a = 1 := by
  induction l generalizing i with
  | nil => simp at h
  | cons b rest ih =>
    cases i with
    | zero =>
      obtain rfl : b = a := by simpa using h
      have hrest : b ∉ rest := by
        intro hmem
        obtain ⟨j, hj⟩ := List.mem_iff_getElem?.mp hmem
        exact nomatch hunique (j + 1) (by simpa using hj)
      rw [List.count_cons_self, List.count_eq_zero_of_not_mem hrest]
    | succ i =>
      have hne : b ≠ a := by
        rintro rfl
        exact nomatch hunique 0 rfl
      rw [List.count_cons_of_ne hne]
      exact ih (by simpa using h) fun j hj => Nat.succ.inj (hunique (j + 1) (by simpa using hj))

theorem count_flatMap_of_only {l : List α} {f : α → List β} {a : α} {b : β}
    (h : ∀ x ∈ l, b ∈ f x → x = a) : (l.flatMap f).count b = l.count a * (f a).count b := by
  induction l with
  | nil => simp
  | cons x rest ih =>
    rw [List.flatMap_cons, List.count_append, ih fun y hy => h y (List.mem_cons_of_mem _ hy)]
    by_cases hx : x = a
    · subst hx
      rw [List.count_cons_self, Nat.succ_mul, Nat.add_comm]
    · have hnot : b ∉ f x := fun hmem => hx (h x List.mem_cons_self hmem)
      rw [List.count_cons_of_ne hx, List.count_eq_zero_of_not_mem hnot, Nat.zero_add]

end

theorem Walked.count_eq_one {l : List StmtId} (h : p.Walked .everything p.root l)
    (honce : ∀ id, p.Reachable id → ∃! place, p.ListsAt place id) {id : StmtId}
    (hid : p.Reachable id) : l.count id = 1 := by
  obtain ⟨top, htop, hencl⟩ := hid
  -- One place lists the name, and its owner is met once.
  induction hencl with
  | refl =>
    obtain ⟨i, hi⟩ := exists_listsAt_root htop
    have hunique : ∀ place, p.ListsAt place top → (none, i) = place :=
      fun place => (honce top ⟨top, htop, .refl⟩).unique hi
    have howned : top ∉ l.flatMap (p.ownedBy .everything) := by
      intro hmem
      obtain ⟨owner, howner, htop'⟩ := List.mem_flatMap.mp hmem
      obtain ⟨j, hj⟩ := exists_listsAt_owner (h.mem_iff.mp howner) (mem_ownedBy.mp htop')
      exact nomatch hunique _ hj
    rw [h.perm.count_eq, List.count_append, List.count_eq_zero_of_not_mem howned, Nat.add_zero]
    exact Program.count_eq_one hi.2 fun j hj =>
      (congrArg Prod.snd (hunique _ (.of_root hj))).symm
  | @tail owner id howner howns ih =>
    have hreach : p.Reachable owner := ⟨top, htop, howner⟩
    obtain ⟨i, hi⟩ := exists_listsAt_owner hreach howns
    have hunique : ∀ place, p.ListsAt place id → (some owner, i) = place :=
      fun place => (honce id ⟨top, htop, howner.tail howns⟩).unique hi
    have hroot : id ∉ p.root := by
      intro hmem
      obtain ⟨j, hj⟩ := exists_listsAt_root hmem
      exact nomatch hunique _ hj
    have honly : ∀ x ∈ l, id ∈ p.ownedBy .everything x → x = owner := by
      intro x hx hmem
      obtain ⟨j, hj⟩ := exists_listsAt_owner (h.mem_iff.mp hx) (mem_ownedBy.mp hmem)
      exact (Option.some.inj (congrArg Prod.fst (hunique _ hj))).symm
    have hone : (p.ownedBy .everything owner).count id = 1 :=
      Program.count_eq_one hi.2 fun j hj =>
        (congrArg Prod.snd (hunique _ (.of_owner hreach hj))).symm
    rw [h.perm.count_eq, List.count_append, List.count_eq_zero_of_not_mem hroot,
      count_flatMap_of_only honly, ih, hone]

theorem Walked.listsAt_unique {l : List StmtId} (h : p.Walked .everything p.root l)
    (hnodup : l.Nodup) {place place' : Option StmtId × Nat} {id : StmtId}
    (hplace : p.ListsAt place id) (hplace' : p.ListsAt place' id) : place = place' := by
  obtain ⟨hroot, howned, hdisjoint⟩ := List.nodup_append.mp (h.perm.nodup_iff.mp hnodup)
  obtain ⟨hblocks, howners⟩ := List.nodup_flatMap.mp howned
  have hmem : ∀ {owner i}, p.ListsAt (some owner, i) id →
      owner ∈ l ∧ id ∈ p.ownedBy .everything owner := fun hlists =>
    ⟨h.mem_iff.mpr (hlists.1 _ rfl), List.mem_of_getElem? hlists.2⟩
  have happart : ∀ {i owner j}, p.ListsAt (none, i) id → ¬ p.ListsAt (some owner, j) id := by
    intro i owner j hlists hlists'
    obtain ⟨howner, hid⟩ := hmem hlists'
    exact hdisjoint id (List.mem_of_getElem? hlists.2) id
      (List.mem_flatMap.mpr ⟨owner, howner, hid⟩) rfl
  have hposition : ∀ owner {i j : Nat}, (p.listedUnder owner).Nodup → p.ListsAt (owner, i) id →
      p.ListsAt (owner, j) id → i = j := by
    intro owner i j hnodup hlists hlists'
    obtain ⟨hlt, _⟩ := List.getElem?_eq_some_iff.mp hlists.2
    exact (List.getElem?_inj hlt hnodup).mp (hlists.2.trans hlists'.2.symm)
  rcases place with ⟨_ | owner, i⟩ <;> rcases place' with ⟨_ | owner', j⟩
  · rw [hposition none hroot hplace hplace']
  · exact absurd hplace' (happart hplace)
  · exact absurd hplace (happart hplace')
  · obtain ⟨howner, hid⟩ := hmem hplace
    obtain ⟨howner', hid'⟩ := hmem hplace'
    obtain rfl : owner = owner' := by
      by_contra hne
      have : Std.Symm (Function.onFun List.Disjoint (p.ownedBy .everything)) :=
        ⟨fun _ _ h => h.symm⟩
      exact howners.forall howner howner' hne hid hid'
    rw [hposition (some owner) (hblocks owner howner) hplace hplace']

theorem Walked.nodup_iff {l : List StmtId} (h : p.Walked .everything p.root l) :
    l.Nodup ↔ ∀ id, p.Reachable id → ∃! place, p.ListsAt place id := by
  constructor
  · intro hnodup id hid
    obtain ⟨place, hplace⟩ := reachable_iff.mp hid
    exact ⟨place, hplace, fun place' hplace' => h.listsAt_unique hnodup hplace' hplace⟩
  · intro honce
    refine List.nodup_iff_count_eq_one.mpr fun id hid => ?_
    exact h.count_eq_one honce (h.mem_iff.mp hid)

end Program

end UniqueAccess
