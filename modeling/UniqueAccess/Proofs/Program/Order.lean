import UniqueAccess.Proofs.Program.Validity

/-!
# The order of a walk

A walk meets a statement before all that it owns, and all that is under one name of a list before
all that is under a later one; in no other case does it meet one statement before another. The order
of the blocks decides, and validity does not look at it: it has operands stand before their users
in the table.
-/

namespace UniqueAccess.Program

open List (Sublist)
open Relation (TransGen)

variable {p : Program} {scope : WalkScope}

-- ---------------------------------------------------------------------------
-- Two of a list
-- ---------------------------------------------------------------------------

section
variable {α : Type} {a b : α} {l : List α}

theorem pair_sublist_iff : Sublist [a, b] l ↔ ∃ l₁ l₂, l = l₁ ++ l₂ ∧ a ∈ l₁ ∧ b ∈ l₂ := by
  rw [List.cons_sublist_iff]
  simp only [List.singleton_sublist]

theorem pair_sublist_cons {c : α} :
    Sublist [a, b] (c :: l) ↔ Sublist [a, b] l ∨ (a = c ∧ b ∈ l) := by
  rw [List.sublist_cons_iff]
  refine or_congr_right ⟨?_, fun ⟨ha, hb⟩ => ⟨[b], by rw [ha], List.singleton_sublist.mpr hb⟩⟩
  rintro ⟨_, hpair, hrest⟩
  obtain ⟨rfl, rfl⟩ := List.cons.inj hpair
  exact ⟨rfl, List.singleton_sublist.mp hrest⟩

theorem pair_sublist_append {l₁ l₂ : List α} :
    Sublist [a, b] (l₁ ++ l₂) ↔
      Sublist [a, b] l₁ ∨ (a ∈ l₁ ∧ b ∈ l₂) ∨ Sublist [a, b] l₂ := by
  constructor
  · intro h
    obtain ⟨first, second, hpair, hfirst, hsecond⟩ := List.sublist_append_iff.mp h
    rcases first with _ | ⟨_, _ | ⟨_, rest⟩⟩
    · exact .inr (.inr (by rwa [hpair]))
    · obtain ⟨rfl, rfl⟩ := List.cons.inj hpair
      exact .inr (.inl ⟨List.singleton_sublist.mp hfirst, List.singleton_sublist.mp hsecond⟩)
    · simp only [List.cons_append, List.cons.injEq, List.nil_eq, List.append_eq_nil_iff] at hpair
      obtain ⟨rfl, rfl, rfl, rfl⟩ := hpair
      exact .inl hfirst
  · rintro (h | ⟨ha, hb⟩ | h)
    · exact h.trans (List.sublist_append_left _ _)
    · exact (List.singleton_sublist.mpr ha).append (List.singleton_sublist.mpr hb)
    · exact h.trans (List.sublist_append_right _ _)

theorem pair_sublist_or (ha : a ∈ l) (hb : b ∈ l) (hne : a ≠ b) :
    Sublist [a, b] l ∨ Sublist [b, a] l := by
  obtain ⟨l₁, l₂, rfl⟩ := List.append_of_mem ha
  rcases List.mem_append.mp hb with hb | hb
  · exact .inr (pair_sublist_append.mpr (.inr (.inl ⟨hb, List.mem_cons_self⟩)))
  · rcases List.mem_cons.mp hb with rfl | hb
    · exact absurd rfl hne
    · exact .inl (pair_sublist_append.mpr (.inr (.inr (pair_sublist_cons.mpr (.inr ⟨rfl, hb⟩)))))

theorem not_pair_sublist_swap (hl : l.Nodup) (h : Sublist [a, b] l) : ¬ Sublist [b, a] l := by
  obtain ⟨l₁, l₂, rfl, ha, hb⟩ := pair_sublist_iff.mp h
  obtain ⟨_, _, hdisjoint⟩ := List.nodup_append.mp hl
  intro hswap
  rcases pair_sublist_append.mp hswap with h | ⟨hb', _⟩ | h
  · exact hdisjoint b (h.subset List.mem_cons_self) b hb rfl
  · exact hdisjoint b hb' b hb rfl
  · exact hdisjoint a ha a (h.subset (List.mem_cons_of_mem _ List.mem_cons_self)) rfl

end

-- ---------------------------------------------------------------------------
-- Places
-- ---------------------------------------------------------------------------

/-- The names that follow one another somewhere in a walk: those of the block, and those that a
statement under it owns. -/
def Lists (p : Program) (scope : WalkScope) (b l : Block) : Prop :=
  l = b ∨ ∃ owner s, p.Under scope b owner ∧ p.stmt? owner = some s ∧ l = nested scope s

/-- One statement owns the other at some depth, or they are under two names of one list. -/
def Precedes (p : Program) (scope : WalkScope) (b : Block) (first second : StmtId) : Prop :=
  (p.Under scope b first ∧ TransGen (p.Owns scope) first second) ∨
    ∃ l x y, p.Lists scope b l ∧ Sublist [x, y] l ∧ p.Encloses scope x first ∧
      p.Encloses scope y second

theorem Under.of_sublist {b b' : Block} {id : StmtId} (h : p.Under scope b id)
    (hb : Sublist b b') : p.Under scope b' id := by
  obtain ⟨top, htop, hencl⟩ := h
  exact ⟨top, hb.subset htop, hencl⟩

theorem Under.of_nested {b : Block} {owner id : StmtId} {s : Stmt}
    (h : p.Under scope (nested scope s) id) (hs : p.stmt? owner = some s)
    (howner : p.Under scope b owner) : p.Under scope b id := by
  obtain ⟨inner, hinner, hencl⟩ := h
  obtain ⟨top, htop, hencl'⟩ := howner
  exact ⟨top, htop, (hencl'.tail ⟨s, hs, hinner⟩).trans hencl⟩

theorem Precedes.of_sublist {b b' : Block} {first second : StmtId}
    (h : p.Precedes scope b first second) (hb : Sublist b b') :
    p.Precedes scope b' first second := by
  rcases h with ⟨hunder, howns⟩ | ⟨l, x, y, hlists, hxy, hx, hy⟩
  · exact .inl ⟨hunder.of_sublist hb, howns⟩
  · rcases hlists with rfl | ⟨owner, s, howner, hs, rfl⟩
    · exact .inr ⟨b', x, y, .inl rfl, hxy.trans hb, hx, hy⟩
    · exact .inr ⟨_, x, y, .inr ⟨owner, s, howner.of_sublist hb, hs, rfl⟩, hxy, hx, hy⟩

theorem Precedes.of_nested {b : Block} {owner first second : StmtId} {s : Stmt}
    (h : p.Precedes scope (nested scope s) first second) (hs : p.stmt? owner = some s)
    (howner : p.Under scope b owner) : p.Precedes scope b first second := by
  rcases h with ⟨hunder, howns⟩ | ⟨l, x, y, hlists, hxy, hx, hy⟩
  · exact .inl ⟨hunder.of_nested hs howner, howns⟩
  · rcases hlists with rfl | ⟨owner', s', howner', hs', rfl⟩
    · exact .inr ⟨_, x, y, .inr ⟨owner, s, howner, hs, rfl⟩, hxy, hx, hy⟩
    · exact .inr ⟨_, x, y, .inr ⟨owner', s', howner'.of_nested hs howner, hs', rfl⟩, hxy, hx, hy⟩

theorem Precedes.of_siblings {b : Block} {x first second : StmtId} {rest : Block}
    (hb : b = x :: rest) (hx : p.Encloses scope x first) (hrest : p.Under scope rest second) :
    p.Precedes scope b first second := by
  obtain ⟨y, hy, hencl⟩ := hrest
  subst hb
  exact .inr ⟨_, x, y, .inl rfl, (List.singleton_sublist.mpr hy).cons_cons x, hx, hencl⟩

-- ---------------------------------------------------------------------------
-- Walks
-- ---------------------------------------------------------------------------

theorem Walked.precedes {b : Block} {l : List StmtId} {first second : StmtId}
    (h : p.Walked scope b l) (hpair : Sublist [first, second] l) :
    p.Precedes scope b first second := by
  -- The two are in one part of the walk, or in two parts under one list, or the first is the owner.
  induction h with
  | nil => cases hpair
  | @unknown rest l id hs hrest ih =>
    rcases pair_sublist_cons.mp hpair with hpair | ⟨rfl, hsecond⟩
    · exact (ih hpair).of_sublist (List.sublist_cons_self _ _)
    · exact .of_siblings rfl .refl (hrest.mem_iff.mp hsecond)
  | @known s inner rest l id hs hinner hrest ihinner ih =>
    have hid : p.Under scope (id :: rest) id := ⟨id, List.mem_cons_self, .refl⟩
    rcases pair_sublist_cons.mp hpair with hpair | ⟨rfl, hsecond⟩
    · rcases pair_sublist_append.mp hpair with hpair | ⟨hfirst, hsecond⟩ | hpair
      · exact (ihinner hpair).of_nested hs hid
      · obtain ⟨x, hx, hencl⟩ := hinner.mem_iff.mp hfirst
        exact .of_siblings rfl (hencl.head ⟨s, hs, hx⟩) (hrest.mem_iff.mp hsecond)
      · exact (ih hpair).of_sublist (List.sublist_cons_self _ _)
    · rcases List.mem_append.mp hsecond with hsecond | hsecond
      · obtain ⟨x, hx, hencl⟩ := hinner.mem_iff.mp hsecond
        exact .inl ⟨hid, .head' ⟨s, hs, hx⟩ hencl⟩
      · exact .of_siblings rfl .refl (hrest.mem_iff.mp hsecond)

theorem Walked.sublist_of_siblings {b : Block} {l : List StmtId} {x y first second : StmtId}
    (h : p.Walked scope b l) (hxy : Sublist [x, y] b) (hx : p.Encloses scope x first)
    (hy : p.Encloses scope y second) : Sublist [first, second] l := by
  obtain ⟨b₁, b₂, rfl, hx', hy'⟩ := pair_sublist_iff.mp hxy
  obtain ⟨l₁, l₂, hl₁, hl₂, rfl⟩ := walked_append.mp h
  exact pair_sublist_append.mpr (.inr (.inl ⟨hl₁.mem_iff.mpr ⟨x, hx', hx⟩,
    hl₂.mem_iff.mpr ⟨y, hy', hy⟩⟩))

theorem Walked.sublist_iff {b : Block} {l : List StmtId} {first second : StmtId}
    (h : p.Walked scope b l) :
    Sublist [first, second] l ↔ p.Precedes scope b first second := by
  refine ⟨h.precedes, ?_⟩
  rintro (⟨hfirst, howns⟩ | ⟨_, x, y, rfl | ⟨owner, s, howner, hs, rfl⟩, hxy, hx, hy⟩)
  · obtain ⟨x, ⟨s, hs, hx⟩, hencl⟩ := TransGen.head'_iff.mp howns
    obtain ⟨inner, hinner, hpart⟩ := h.exists_inner (h.mem_iff.mpr hfirst) hs
    have hsecond := hinner.mem_iff.mpr ⟨x, hx, hencl⟩
    exact ((List.singleton_sublist.mpr hsecond).cons_cons first).trans hpart.sublist
  · exact h.sublist_of_siblings hxy hx hy
  · obtain ⟨inner, hinner, hpart⟩ := h.exists_inner (h.mem_iff.mpr howner) hs
    exact ((hinner.sublist_of_siblings hxy hx hy).trans (List.sublist_cons_self _ _)).trans
      hpart.sublist

-- ---------------------------------------------------------------------------
-- Operands
-- ---------------------------------------------------------------------------

/-- The walk through everything in a valid program meets all operands before their users, exactly if
all of them are under the root and none is where its user precedes it. -/
theorem operands_first_iff (hp : p.isValid) :
    ∃ l, p.trail? .everything p.root = some l ∧ l.Nodup ∧
      (∀ first second, Sublist [first, second] l ↔
        p.Precedes .everything p.root first second) ∧
      ((∀ user ∈ l, ∀ s, p.stmt? user = some s →
          ∀ operand ∈ s.operands, Sublist [operand, user] l) ↔
        ∀ user, p.Under .everything p.root user → ∀ s, p.stmt? user = some s →
          ∀ operand ∈ s.operands, p.Under .everything p.root operand ∧
            ¬ p.Precedes .everything p.root user operand) := by
  obtain ⟨hl, hnodup, _⟩ := walked_of_isValid hp
  refine ⟨_, trail?_eq_some.mpr hl, hnodup, fun _ _ => hl.sublist_iff, ?_⟩
  simp only [← hl.mem_iff, ← hl.sublist_iff]
  constructor
  · intro hall user huser s hs operand hoperand
    have hpair := hall user huser s hs operand hoperand
    exact ⟨hpair.subset List.mem_cons_self, not_pair_sublist_swap hnodup hpair⟩
  · intro hall user huser s hs operand hoperand
    obtain ⟨hmem, hnot⟩ := hall user huser s hs operand hoperand
    -- Both are met and they differ, so that one order or the other is that of the walk.
    have hlt := operand_index_lt hp huser hs hoperand
    have hne : operand ≠ user := fun h => Nat.ne_of_lt hlt (congrArg StmtId.index h)
    exact (pair_sublist_or hmem huser hne).resolve_right hnot

/-- A loop in the block after the constant that its body negates. -/
def loopProgram : Program where
  version := currentVersion
  storage := ⟨#[]⟩
  stmts := #[.const (.i32 1), .rangeFor ⟨0⟩ ⟨0⟩ [⟨2⟩], .unary .neg ⟨0⟩]
  root := [⟨0⟩, ⟨1⟩]

/-- The constant is met before its negation, because it is met before the loop. -/
theorem loopProgram_constant_first : ∃ l,
    loopProgram.trail? .everything loopProgram.root = some l ∧ Sublist [⟨0⟩, ⟨2⟩] l := by
  have hvalid : loopProgram.isValid :=
    isValid_iff.mpr ⟨by decide, [⟨0⟩, ⟨1⟩, ⟨2⟩], trail?_eq_some.mp (by decide +kernel),
      by decide, by decide⟩
  obtain ⟨l, hl, _, horder, _⟩ := operands_first_iff hvalid
  have hloop : loopProgram.Encloses .everything ⟨1⟩ ⟨2⟩ := .single ⟨_, rfl, by decide⟩
  exact ⟨l, hl, (horder ⟨0⟩ ⟨2⟩).mpr (.of_siblings rfl .refl ⟨⟨1⟩, List.mem_cons_self, hloop⟩)⟩

/-- A negation in the block before the constant that it negates. -/
def lateProgram : Program where
  version := currentVersion
  storage := ⟨#[]⟩
  stmts := #[.const (.i32 1), .unary .neg ⟨0⟩]
  root := [⟨1⟩, ⟨0⟩]

theorem lateProgram_operand_last :
    lateProgram.isValid ∧ lateProgram.trail? .everything lateProgram.root = some [⟨1⟩, ⟨0⟩] ∧
      ¬ ∀ user s, (user, s) ∈ lateProgram.visits .everything lateProgram.root →
        ∀ operand ∈ s.operands,
          Sublist [operand, user] (lateProgram.trail .everything lateProgram.root) := by
  have hwalked : lateProgram.Walked .everything lateProgram.root [⟨1⟩, ⟨0⟩] :=
    trail?_eq_some.mp (by decide +kernel)
  refine ⟨isValid_iff.mpr ⟨by decide, _, hwalked, by decide, by decide⟩,
    trail?_eq_some.mpr hwalked, fun hall => ?_⟩
  have hvisited : (⟨1⟩, .unary .neg ⟨0⟩) ∈ lateProgram.visits .everything lateProgram.root :=
    mem_visits.mpr ⟨hwalked.trail_eq ▸ List.mem_cons_self, rfl⟩
  have hpair := hall _ _ hvisited ⟨0⟩ List.mem_cons_self
  rw [hwalked.trail_eq] at hpair
  exact not_pair_sublist_swap (by decide) hpair (List.Sublist.refl _)

end UniqueAccess.Program
