import UniqueAccess.Program.Basic
import UniqueAccess.Proofs.Rounds
import Mathlib.Logic.Relation

/-!
# Walks that end

`Walked` says what a walk meets without counting how deep it is nested. `trail?_eq_some` shows that
the fuel of `trail?` never cuts off a walk that ends. The rest is what walks keep: the walk through
what a statement owns is a contiguous part of every walk that meets the statement, and the
task-local walk leaves out some of what the other one meets.
-/

namespace UniqueAccess.Program

/-- The walk through a block ends, and meets these names in this order. -/
inductive Walked (p : Program) (scope : WalkScope) : Block → List StmtId → Prop
  | nil : Walked p scope [] []
  | unknown {rest : Block} {l : List StmtId} {id : StmtId} : p.stmt? id = none →
      Walked p scope rest l → Walked p scope (id :: rest) (id :: l)
  | known {s : Stmt} {inner : List StmtId} {rest : Block} {l : List StmtId} {id : StmtId} :
      p.stmt? id = some s → Walked p scope (nested scope s) inner → Walked p scope rest l →
      Walked p scope (id :: rest) (id :: (inner ++ l))

variable {p : Program} {scope : WalkScope}

-- ---------------------------------------------------------------------------
-- Fuel
-- ---------------------------------------------------------------------------

def inside? (p : Program) (scope : WalkScope) (fuel : Nat) (id : StmtId) : Option (List StmtId) :=
  match p.stmt? id with
  | none => some []
  | some s => p.trailWithin? scope fuel (nested scope s)

theorem flatten_mapM_cons {α β : Type} (f : α → Option (List β)) (a : α) (l : List α) :
    List.flatten <$> (a :: l).mapM f =
      (f a).bind fun first => (List.flatten <$> l.mapM f).map (first ++ ·) := by
  rw [List.mapM_cons]
  cases f a with
  | none => rfl
  | some first => cases l.mapM f <;> rfl

theorem trailWithin?_cons (n : Nat) (id : StmtId) (rest : Block) :
    p.trailWithin? scope (n + 1) (id :: rest) =
      (p.inside? scope n id).bind fun inner =>
        (p.trailWithin? scope (n + 1) rest).map fun l => id :: (inner ++ l) := by
  simp only [trailWithin?, flatten_mapM_cons, inside?]
  cases p.stmt? id with
  | none => rfl
  | some s =>
    dsimp only
    cases p.trailWithin? scope n (nested scope s) <;> rfl

theorem trailWithin?_cons_eq_some {n : Nat} {id : StmtId} {rest : Block} {l : List StmtId} :
    p.trailWithin? scope (n + 1) (id :: rest) = some l ↔
      ∃ inner l', p.inside? scope n id = some inner ∧
        p.trailWithin? scope (n + 1) rest = some l' ∧ id :: (inner ++ l') = l := by
  simp only [trailWithin?_cons, Option.bind_eq_some_iff, Option.map_eq_some_iff]
  grind

theorem trailWithin?_succ {n : Nat} {b : Block} {l : List StmtId}
    (h : p.trailWithin? scope n b = some l) : p.trailWithin? scope (n + 1) b = some l := by
  induction n generalizing b l with
  | zero =>
    cases b with
    | nil => exact h
    | cons id rest => simp [trailWithin?] at h
  | succ n ih =>
    induction b generalizing l with
    | nil => exact h
    | cons id rest ihb =>
      obtain ⟨inner, l', hinner, hl', rfl⟩ := trailWithin?_cons_eq_some.mp h
      refine trailWithin?_cons_eq_some.mpr ⟨inner, l', ?_, ihb hl', rfl⟩
      unfold inside? at hinner ⊢
      split at hinner
      · exact hinner
      · exact ih hinner

theorem trailWithin?_le {m n : Nat} {b : Block} {l : List StmtId} (hle : m ≤ n)
    (h : p.trailWithin? scope m b = some l) : p.trailWithin? scope n b = some l := by
  induction hle with
  | refl => exact h
  | step _ ih => exact trailWithin?_succ ih

theorem inside?_succ {n : Nat} {id : StmtId} {l : List StmtId}
    (h : p.inside? scope n id = some l) : p.inside? scope (n + 1) id = some l := by
  unfold inside? at h ⊢
  split at h
  · exact h
  · exact trailWithin?_succ h

theorem trailWithin?_congr {m n : Nat} (h : p.inside? scope m = p.inside? scope n) (b : Block) :
    p.trailWithin? scope (m + 1) b = p.trailWithin? scope (n + 1) b := by
  induction b with
  | nil => rfl
  | cons id rest ih => rw [trailWithin?_cons, trailWithin?_cons, h, ih]

def ids (p : Program) : List StmtId := (List.range p.size).map StmtId.ofIndex

@[simp] theorem length_ids : p.ids.length = p.size := by
  simp [ids]

theorem ofIndex_index (id : StmtId) : StmtId.ofIndex id.index = id := by
  cases id
  simp [StmtId.ofIndex, StmtId.index]

theorem index_ofIndex {i : Nat} (h : i < UInt32.size) : (StmtId.ofIndex i).index = i := by
  simp [StmtId.ofIndex, StmtId.index, Nat.mod_eq_of_lt h]

theorem ids_nodup (h : p.size ≤ UInt32.size) : p.ids.Nodup := by
  have hlt : ∀ i ∈ List.range p.size, i < UInt32.size := fun i hi =>
    Nat.lt_of_lt_of_le (List.mem_range.mp hi) h
  refine List.pairwise_map.mpr (List.nodup_range.imp_of_mem fun hi hj hne heq => hne ?_)
  rw [← index_ofIndex (hlt _ hi), ← index_ofIndex (hlt _ hj), heq]

theorem mem_ids {id : StmtId} {s : Stmt} (h : p.stmt? id = some s) : id ∈ p.ids :=
  List.mem_map.mpr
    ⟨id.index, List.mem_range.mpr (Array.getElem?_eq_some_iff.mp h).1, ofIndex_index id⟩

def insideRounds (p : Program) (scope : WalkScope) : Rounds StmtId (List StmtId) where
  answer := p.inside? scope
  grows := inside?_succ
  determined {m n} h := by
    funext id
    unfold inside?
    split
    · rfl
    · exact trailWithin?_congr h _

theorem inside?_eq {n : Nat} (h : p.size ≤ n) : p.inside? scope n = p.inside? scope p.size := by
  have houtside : ∀ n id, id ∉ p.ids → p.inside? scope n id = p.inside? scope 0 id := by
    intro n id hid
    cases hs : p.stmt? id with
    | none => simp [inside?, hs]
    | some s => exact absurd (mem_ids hs) hid
  have hrounds := (p.insideRounds scope).answer_eq houtside (by simpa using h)
  rwa [length_ids] at hrounds

-- ---------------------------------------------------------------------------
-- The walk that ends
-- ---------------------------------------------------------------------------

theorem walked_of_trailWithin? {n : Nat} {b : Block} {l : List StmtId}
    (h : p.trailWithin? scope n b = some l) : p.Walked scope b l := by
  induction n generalizing b l with
  | zero =>
    cases b with
    | nil => cases h; exact .nil
    | cons id rest => simp [trailWithin?] at h
  | succ n ih =>
    induction b generalizing l with
    | nil => cases h; exact .nil
    | cons id rest ihb =>
      obtain ⟨inner, l', hinner, hl', rfl⟩ := trailWithin?_cons_eq_some.mp h
      unfold inside? at hinner
      split at hinner
      · next hs => cases hinner; exact .unknown hs (ihb hl')
      · next s hs => exact .known hs (ih hinner) (ihb hl')

theorem Walked.exists_trailWithin? {b : Block} {l : List StmtId} (h : p.Walked scope b l) :
    ∃ n, p.trailWithin? scope (n + 1) b = some l := by
  induction h with
  | nil => exact ⟨0, rfl⟩
  | unknown hs _ ih =>
    obtain ⟨n, hn⟩ := ih
    exact ⟨n, trailWithin?_cons_eq_some.mpr ⟨[], _, by simp [inside?, hs], hn, rfl⟩⟩
  | known hs _ _ ihinner ih =>
    obtain ⟨m, hm⟩ := ihinner
    obtain ⟨n, hn⟩ := ih
    refine ⟨max (m + 1) n, trailWithin?_cons_eq_some.mpr ⟨_, _, ?_, ?_, rfl⟩⟩
    · simp only [inside?, hs]
      exact trailWithin?_le (Nat.le_max_left ..) hm
    · exact trailWithin?_le (by omega) hn

/-- A walk has a trail exactly if it ends. -/
theorem trail?_eq_some {b : Block} {l : List StmtId} :
    p.trail? scope b = some l ↔ p.Walked scope b l := by
  refine ⟨walked_of_trailWithin?, fun h => ?_⟩
  obtain ⟨n, hn⟩ := h.exists_trailWithin?
  rw [trail?, ← trailWithin?_congr (inside?_eq (Nat.le_max_right n p.size)) b]
  exact trailWithin?_le (by omega) hn

theorem Walked.trail_eq {b : Block} {l : List StmtId} (h : p.Walked scope b l) :
    p.trail scope b = l := by
  simp [trail, trail?_eq_some.mpr h]

theorem Walked.congr_nested {q : Program} {b : Block} {l : List StmtId} (h : p.Walked scope b l)
    (hnested : ∀ id ∈ l, (q.stmt? id).map (nested scope) = (p.stmt? id).map (nested scope)) :
    q.Walked scope b l := by
  induction h with
  | nil => exact .nil
  | unknown hs _ ih =>
    rw [List.forall_mem_cons, hs, Option.map_none, Option.map_eq_none_iff] at hnested
    exact .unknown hnested.1 (ih hnested.2)
  | known hs _ _ ihinner ih =>
    rw [List.forall_mem_cons, List.forall_mem_append, hs, Option.map_some,
      Option.map_eq_some_iff] at hnested
    obtain ⟨⟨t, ht, heq⟩, hinner, hrest⟩ := hnested
    exact .known ht (heq ▸ ihinner hinner) (ih hrest)

theorem Walked.congr {q : Program} {b : Block} {l : List StmtId} (h : p.Walked scope b l)
    (hstmts : ∀ id ∈ l, q.stmt? id = p.stmt? id) : q.Walked scope b l :=
  h.congr_nested fun id hid => by rw [hstmts id hid]

-- ---------------------------------------------------------------------------
-- Parts of a walk
-- ---------------------------------------------------------------------------

theorem walked_append {b b' : Block} {l : List StmtId} :
    p.Walked scope (b ++ b') l ↔
      ∃ first second, p.Walked scope b first ∧ p.Walked scope b' second ∧ first ++ second = l := by
  constructor
  · intro h
    induction b generalizing l with
    | nil => exact ⟨[], l, .nil, h, rfl⟩
    | cons id rest ih =>
      cases h with
      | unknown hs hrest =>
        obtain ⟨first, second, hfirst, hsecond, rfl⟩ := ih hrest
        exact ⟨id :: first, second, .unknown hs hfirst, hsecond, rfl⟩
      | known hs hinner hrest =>
        obtain ⟨first, second, hfirst, hsecond, rfl⟩ := ih hrest
        exact ⟨_, second, .known hs hinner hfirst, hsecond, by simp⟩
  · rintro ⟨first, second, hfirst, hsecond, rfl⟩
    induction hfirst with
    | nil => exact hsecond
    | unknown hs _ ih => exact .unknown hs ih
    | known hs hinner _ _ ih =>
      simp only [List.cons_append, List.append_assoc]
      exact .known hs hinner ih

theorem Walked.mem_of_mem {b : Block} {l : List StmtId} {id : StmtId} (h : p.Walked scope b l)
    (hid : id ∈ b) : id ∈ l := by
  induction h with
  | nil => exact hid
  | unknown _ _ ih =>
    rcases List.mem_cons.mp hid with rfl | hid
    · exact List.mem_cons_self
    · exact List.mem_cons_of_mem _ (ih hid)
  | known _ _ _ _ ih =>
    rcases List.mem_cons.mp hid with rfl | hid
    · exact List.mem_cons_self
    · exact List.mem_cons_of_mem _ (List.mem_append_right _ (ih hid))

/-- Right after a statement a walk meets all that the walk through its blocks meets. -/
theorem Walked.exists_inner {b : Block} {l : List StmtId} {id : StmtId} {s : Stmt}
    (h : p.Walked scope b l) (hid : id ∈ l) (hs : p.stmt? id = some s) :
    ∃ inner, p.Walked scope (nested scope s) inner ∧ id :: inner <:+: l := by
  induction h with
  | nil => cases hid
  | @unknown _ _ id' hs' _ ih =>
    rcases List.mem_cons.mp hid with rfl | hid
    · exact absurd (hs'.symm.trans hs) nofun
    · obtain ⟨inner, hinner, hpart⟩ := ih hid
      exact ⟨inner, hinner, hpart.trans (List.suffix_cons _ _).isInfix⟩
  | @known s' inner' _ _ id' hs' hinner' _ ihinner ih =>
    rcases List.mem_cons.mp hid with rfl | hid
    · obtain rfl : s' = s := Option.some.inj (hs'.symm.trans hs)
      exact ⟨inner', hinner', (List.prefix_append (id :: inner') _).isInfix⟩
    · rcases List.mem_append.mp hid with hid | hid
      · obtain ⟨inner, hinner, hpart⟩ := ihinner hid
        exact ⟨inner, hinner, (hpart.trans (List.prefix_append _ _).isInfix).trans
          (List.suffix_cons _ _).isInfix⟩
      · obtain ⟨inner, hinner, hpart⟩ := ih hid
        exact ⟨inner, hinner, (hpart.trans (List.suffix_append _ _).isInfix).trans
          (List.suffix_cons _ _).isInfix⟩

def Owns (p : Program) (scope : WalkScope) (outer inner : StmtId) : Prop :=
  ∃ s, p.stmt? outer = some s ∧ inner ∈ nested scope s

/-- A statement is, or owns, or owns the owner of, the other one. -/
abbrev Encloses (p : Program) (scope : WalkScope) : StmtId → StmtId → Prop :=
  Relation.ReflTransGen (p.Owns scope)

def Under (p : Program) (scope : WalkScope) (b : Block) (id : StmtId) : Prop :=
  ∃ top ∈ b, p.Encloses scope top id

theorem Walked.mem_of_owns {b : Block} {l : List StmtId} {outer inner : StmtId}
    (h : p.Walked scope b l) (houter : outer ∈ l) (howns : p.Owns scope outer inner) :
    inner ∈ l := by
  obtain ⟨s, hs, hinner⟩ := howns
  obtain ⟨l', hl', hpart⟩ := h.exists_inner houter hs
  exact hpart.subset (List.mem_cons_of_mem _ (hl'.mem_of_mem hinner))

/-- A walk meets what its block lists and what is owned by what it meets. -/
theorem Walked.mem_iff {b : Block} {l : List StmtId} {id : StmtId} (h : p.Walked scope b l) :
    id ∈ l ↔ p.Under scope b id := by
  constructor
  · intro hid
    induction h with
    | nil => cases hid
    | @unknown _ _ id' _ _ ih =>
      rcases List.mem_cons.mp hid with rfl | hid
      · exact ⟨id, List.mem_cons_self, .refl⟩
      · obtain ⟨first, hfirst, hencl⟩ := ih hid
        exact ⟨first, List.mem_cons_of_mem _ hfirst, hencl⟩
    | @known s _ _ _ id' hs _ _ ihinner ih =>
      rcases List.mem_cons.mp hid with rfl | hid
      · exact ⟨id, List.mem_cons_self, .refl⟩
      · rcases List.mem_append.mp hid with hid | hid
        · obtain ⟨first, hfirst, hencl⟩ := ihinner hid
          exact ⟨id', List.mem_cons_self, hencl.head ⟨s, hs, hfirst⟩⟩
        · obtain ⟨first, hfirst, hencl⟩ := ih hid
          exact ⟨first, List.mem_cons_of_mem _ hfirst, hencl⟩
  · rintro ⟨first, hfirst, hencl⟩
    induction hencl with
    | refl => exact h.mem_of_mem hfirst
    | tail _ howns ih => exact h.mem_of_owns ih howns

theorem Walked.taskLocal {b : Block} {l : List StmtId} (h : p.Walked .everything b l) :
    ∃ l', p.Walked .taskLocal b l' ∧ l'.Sublist l := by
  induction h with
  | nil => exact ⟨[], .nil, .slnil⟩
  | @unknown _ _ id hs _ ih =>
    obtain ⟨l', hl', hsub⟩ := ih
    exact ⟨id :: l', .unknown hs hl', hsub.cons_cons id⟩
  | @known s inner _ _ id hs _ _ ihinner ih =>
    obtain ⟨l', hl', hsub⟩ := ih
    obtain ⟨inner', hinner', hsub'⟩ := ihinner
    cases htask : s.isTask with
    | true =>
      have hnested : nested .taskLocal s = [] := by simp [nested, htask]
      exact ⟨id :: ([] ++ l'), .known hs (by rw [hnested]; exact .nil) hl',
        (hsub.trans (List.sublist_append_right _ _)).cons_cons id⟩
    | false =>
      have hnested : nested .taskLocal s = nested .everything s := by simp [nested, htask]
      exact ⟨id :: (inner' ++ l'), .known hs (hnested ▸ hinner') hl',
        (hsub'.append hsub).cons_cons id⟩

-- ---------------------------------------------------------------------------
-- Walks that need not end
-- ---------------------------------------------------------------------------

/-- A walk through a block meets the name, before it ends or goes on forever. -/
inductive Meets (p : Program) (scope : WalkScope) : Block → StmtId → Prop
  | head {id : StmtId} {rest : Block} : Meets p scope (id :: rest) id
  | inside {s : Stmt} {top id : StmtId} {rest : Block} : p.stmt? top = some s →
      Meets p scope (nested scope s) id → Meets p scope (top :: rest) id
  | after {l : List StmtId} {top id : StmtId} {rest : Block} : p.Walked scope [top] l →
      Meets p scope rest id → Meets p scope (top :: rest) id

theorem Meets.under {b : Block} {id : StmtId} (h : p.Meets scope b id) : p.Under scope b id := by
  induction h with
  | @head id rest => exact ⟨id, List.mem_cons_self, .refl⟩
  | @inside s top id rest hs _ ih =>
    obtain ⟨first, hfirst, hencl⟩ := ih
    exact ⟨top, List.mem_cons_self, hencl.head ⟨s, hs, hfirst⟩⟩
  | after _ _ ih =>
    obtain ⟨first, hfirst, hencl⟩ := ih
    exact ⟨first, List.mem_cons_of_mem _ hfirst, hencl⟩

theorem Walked.meets_iff {b : Block} {l : List StmtId} {id : StmtId} (h : p.Walked scope b l) :
    p.Meets scope b id ↔ id ∈ l := by
  refine ⟨fun hid => h.mem_iff.mpr hid.under, fun hid => ?_⟩
  induction h with
  | nil => cases hid
  | unknown hs _ ih =>
    rcases List.mem_cons.mp hid with rfl | hid
    · exact .head
    · exact .after (.unknown hs .nil) (ih hid)
  | known hs hinner _ ihinner ih =>
    rcases List.mem_cons.mp hid with rfl | hid
    · exact .head
    · rcases List.mem_append.mp hid with hid | hid
      · exact .inside hs (ihinner hid)
      · exact .after (.known hs hinner .nil) (ih hid)

theorem meets_of_mem_trail {b : Block} {id : StmtId} (h : id ∈ p.trail scope b) :
    p.Meets scope b id := by
  unfold trail at h
  cases htrail : p.trail? scope b with
  | none => simp [htrail] at h
  | some l =>
    rw [htrail] at h
    exact (trail?_eq_some.mp htrail).meets_iff.mpr h

section
variable {q : Program} {b : Block}

theorem walked_congr {l : List StmtId} (hnested : ∀ id, p.Meets scope b id →
    (q.stmt? id).map (nested scope) = (p.stmt? id).map (nested scope)) :
    q.Walked scope b l ↔ p.Walked scope b l := by
  constructor
  · intro h
    induction h with
    | nil => exact .nil
    | @unknown rest _ id hs _ ih =>
      have hp : p.stmt? id = none := by simpa [hs] using (hnested id .head).symm
      exact .unknown hp (ih fun _ h => hnested _ (.after (.unknown hp .nil) h))
    | @known s _ rest _ id hs _ _ ihinner ih =>
      have hhead := hnested id .head
      rw [hs, Option.map_some] at hhead
      obtain ⟨t, hp, heq⟩ := Option.map_eq_some_iff.mp hhead.symm
      have hinner := ihinner fun _ h => hnested _ (.inside hp (heq ▸ h))
      rw [← heq] at hinner
      exact .known hp hinner (ih fun _ h => hnested _ (.after (.known hp hinner .nil) h))
  · intro h
    exact h.congr_nested fun id hid => hnested id (h.meets_iff.mpr hid)

theorem trail?_congr (hnested : ∀ id, p.Meets scope b id →
    (q.stmt? id).map (nested scope) = (p.stmt? id).map (nested scope)) :
    q.trail? scope b = p.trail? scope b := by
  ext1 l
  rw [trail?_eq_some, trail?_eq_some, walked_congr hnested]

end

end UniqueAccess.Program
