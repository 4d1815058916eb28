import UniqueAccess.Proofs.Program.Construction

/-!
# Calls that close a block

An open block knows its owner and which block of the owner it will become. A call closes it if it
will become a block of the right sort; whether the owner is the kind of statement that the call is
meant for, it does not ask. So a conditional is closed as a conditional only, but the bodies of
tasks and of loops are closed by each other's calls. Apart from that, a call answers exactly if the
innermost block is of its own kind, and changes nothing otherwise (`Housed.heeds_iff`).
-/

namespace UniqueAccess

namespace Stmt

variable {s t : Stmt} {slot : BlockSlot} {items : Block}

theorem exists_withBlock? (h : s.block? slot = some items) (new : Block) :
    ∃ t, s.withBlock? new slot = some t := by
  cases slot <;> cases s <;> cases h <;> exact ⟨_, rfl⟩

theorem exists_block?_onFalse (h : s.block? .onTrue = some items) :
    ∃ second, s.block? .onFalse = some second := by
  cases s <;> cases h
  exact ⟨_, rfl⟩

end Stmt

namespace Draft

open Program (index_lt_of_mem_ids mem_ids)

variable {d : Draft} {b : OpenBlock} {outer : List OpenBlock} {s : Stmt} {slot : BlockSlot}
  {id owner : StmtId} {items : Block} {storage : StorageTree} {calls : List Call}

-- ---------------------------------------------------------------------------
-- What calls close
-- ---------------------------------------------------------------------------

inductive Closing where
  | endTask
  | beginElse
  | endBranch
  | endRangeFor
deriving DecidableEq, Repr

namespace Closing

/-- A block of a statement that the call is meant to close. -/
inductive Fits : Closing → BlockSlot → Stmt → Prop
  | endTask {kind : TaskKind} {container : Option NodeId} {body : Block} :
      Fits .endTask .body (.task kind container body)
  | beginElse {cond : StmtId} {onTrue onFalse : Block} :
      Fits .beginElse .onTrue (.branch cond onTrue onFalse)
  | endOnTrue {cond : StmtId} {onTrue onFalse : Block} :
      Fits .endBranch .onTrue (.branch cond onTrue onFalse)
  | endOnFalse {cond : StmtId} {onTrue onFalse : Block} :
      Fits .endBranch .onFalse (.branch cond onTrue onFalse)
  | endRangeFor {first last : StmtId} {body : Block} :
      Fits .endRangeFor .body (.rangeFor first last body)

/-- A statement whose body the call closes although it is meant for others. -/
inductive Confuses : Closing → Stmt → Prop
  | endTask {first last : StmtId} {body : Block} : Confuses .endTask (.rangeFor first last body)
  | endRangeFor {kind : TaskKind} {container : Option NodeId} {body : Block} :
      Confuses .endRangeFor (.task kind container body)

def slots : Closing → List BlockSlot
  | endTask => [.body]
  | beginElse => [.onTrue]
  | endBranch => [.onTrue, .onFalse]
  | endRangeFor => [.body]

theorem Fits.mem_slots {c : Closing} (h : c.Fits slot s) : c.slots.contains slot := by
  cases h <;> rfl

theorem Confuses.mem_slots {c : Closing} (h : c.Confuses s) (hitems : s.block? slot = some items) :
    c.slots.contains slot := by
  cases h <;> cases slot <;> cases hitems <;> rfl

theorem fits_or_confuses {c : Closing} (hslot : c.slots.contains slot)
    (h : s.block? slot = some items) : c.Fits slot s ∨ c.Confuses s := by
  cases c <;> cases slot <;> cases hslot <;> cases s <;> cases h
  all_goals first
    | exact .inl (by constructor)
    | exact .inr (by constructor)

theorem Fits.not_confuses {c : Closing} (h : c.Fits slot s) : ¬ c.Confuses s := by
  cases h <;> nofun

end Closing

def closing (d : Draft) : Closing → Option StmtId × Draft
  | .endTask => d.endTask
  | .beginElse => d.beginElse
  | .endBranch => d.endBranch
  | .endRangeFor => d.endRangeFor

def Matches (d : Draft) (c : Closing) (id : StmtId) : Prop :=
  ∃ b outer s,
    d.openBlocks = b :: outer ∧ b.owner = id ∧ d.table.stmt? id = some s ∧ c.Fits b.slot s

/-- The innermost open block is the body of a statement that the call is not meant for and takes
for one that it is. -/
def Confused (d : Draft) (c : Closing) : Prop :=
  ∃ b outer s, d.openBlocks = b :: outer ∧ d.table.stmt? b.owner = some s ∧ c.Confuses s

/-- The call answers with the owner of a matching block, and refuses without a trace if the
innermost block does not match. -/
structure Heeds (d : Draft) (c : Closing) : Prop where
  answer : ∀ id, (d.closing c).1 = some id ↔ d.Matches c id
  refusal : (∀ id, ¬ d.Matches c id) → d.closing c = (none, d)

-- ---------------------------------------------------------------------------
-- Owners
-- ---------------------------------------------------------------------------

/-- The owner of an open block is in the table and has the block that it will become. -/
structure Housed (d : Draft) : Prop where
  names : d.stmts.size ≤ UInt32.size
  owners : ∀ b ∈ d.openBlocks, ∃ s items,
    d.table.stmt? b.owner = some s ∧ s.block? b.slot = some items

theorem housed_new (storage : StorageTree) : (new storage).Housed := ⟨Nat.zero_le _, nofun⟩

theorem Housed.push (h : d.Housed) (hroom : d.stmts.size < UInt32.size) (s : Stmt) :
    (d.push s).2.Housed := by
  refine ⟨by rwa [stmts_push, Array.size_push], fun b hb => ?_⟩
  -- The innermost block gets one more item; it keeps its owner and its slot.
  have hold : ∃ c ∈ d.openBlocks, c.owner = b.owner ∧ c.slot = b.slot := by
    cases hblocks : d.openBlocks with
    | nil => simp [push_of_root hblocks, hblocks] at hb
    | cons c outer =>
      rw [push_of_block hblocks] at hb
      rcases List.mem_cons.mp hb with rfl | hb
      · exact ⟨c, List.mem_cons_self, rfl, rfl⟩
      · exact ⟨b, List.mem_cons_of_mem _ hb, rfl, rfl⟩
  obtain ⟨c, hc, howner, hslot⟩ := hold
  obtain ⟨u, items, hu, hitems⟩ := h.owners c hc
  rw [howner] at hu
  exact ⟨u, items, (stmt?_push_of_mem (mem_ids hu)).trans hu, hslot ▸ hitems⟩

theorem Housed.openBlock (h : d.Housed) (hs : d.table.stmt? owner = some s)
    (hitems : s.block? slot = some items) : (d.openBlock owner slot).Housed :=
  ⟨h.names, fun b hb => by
    rcases List.mem_cons.mp hb with rfl | hb
    · exact ⟨s, items, hs, hitems⟩
    · exact h.owners b hb⟩

theorem Housed.begin (h : d.Housed) (hroom : d.stmts.size < UInt32.size)
    (hitems : s.block? slot = some items) : (d.begin s slot).2.Housed := by
  rw [begin_eq]
  exact (h.push hroom s).openBlock (stmt?_push_self hroom) hitems

theorem Housed.handedOver {t : Stmt} (h : d.Housed) (hb : d.openBlocks = b :: outer)
    (hs : d.table.stmt? b.owner = some s) (ht : s.withBlock? b.items b.slot = some t) :
    (d.handedOver b outer t).Housed := by
  refine ⟨by simpa [Draft.handedOver] using h.names, fun c hc => ?_⟩
  obtain ⟨u, items, hu, hitems⟩ := h.owners c (hb ▸ List.mem_cons_of_mem _ hc)
  rw [stmt?_handedOver hs]
  split
  · next howner =>
    rw [howner, hs] at hu
    cases hu
    refine ⟨t, if c.slot = b.slot then b.items else items, rfl, ?_⟩
    rw [Stmt.block?_of_withBlock? ht, hitems]
    split <;> rfl
  · exact ⟨u, items, hu, hitems⟩

theorem Housed.close? (h : d.Housed) (slots : List BlockSlot) :
    (d.close? slots = (none, d) ∧ ∀ b outer, d.openBlocks = b :: outer → ¬ slots.contains b.slot) ∨
      ∃ b outer s t, d.openBlocks = b :: outer ∧ slots.contains b.slot ∧
        d.table.stmt? b.owner = some s ∧ s.withBlock? b.items b.slot = some t ∧
        d.close? slots = (some b.owner, d.handedOver b outer t) := by
  cases hb : d.openBlocks with
  | nil => exact .inl ⟨by simp [Draft.close?, hb], nofun⟩
  | cons b outer =>
    by_cases hslot : slots.contains b.slot
    · obtain ⟨s, items, hs, hitems⟩ := h.owners b (hb ▸ List.mem_cons_self)
      obtain ⟨t, ht⟩ := Stmt.exists_withBlock? hitems b.items
      have hhand : handOver? d.stmts b = some (d.handedOver b outer t).stmts := handOver?_eq hs ht
      refine .inr ⟨b, outer, s, t, rfl, hslot, hs, ht, ?_⟩
      simp only [Draft.close?, hb, if_pos hslot, hhand]
      rfl
    · refine .inl ⟨by simp only [Draft.close?, hb, if_neg hslot], ?_⟩
      rintro _ _ ⟨⟩
      exact hslot

theorem Housed.close (h : d.Housed) (slots : List BlockSlot) : (d.close? slots).2.Housed := by
  rcases h.close? slots with ⟨heq, _⟩ | ⟨b, outer, s, t, hb, _, hs, ht, heq⟩
  · rw [heq]
    exact h
  · rw [heq]
    exact h.handedOver hb hs ht

theorem Housed.beginElse (h : d.Housed) : d.beginElse.2.Housed := by
  unfold Draft.beginElse
  rcases h.close? [.onTrue] with ⟨heq, _⟩ | ⟨b, outer, s, t, hb, hslot, hs, ht, heq⟩
  · rw [heq]
    exact h
  · rw [heq]
    have hself : (d.handedOver b outer t).table.stmt? b.owner = some t := by
      rw [stmt?_handedOver hs, if_pos rfl]
    have hslot : b.slot = .onTrue := by simpa using hslot
    have hfirst : t.block? .onTrue = some b.items := by
      rw [Stmt.block?_of_withBlock? ht, if_pos hslot.symm]
    obtain ⟨second, hsecond⟩ := Stmt.exists_block?_onFalse hfirst
    exact (h.handedOver hb hs ht).openBlock hself hsecond

theorem Housed.size_close (h : d.Housed) (slots : List BlockSlot) :
    (d.close? slots).2.stmts.size = d.stmts.size := by
  rcases h.close? slots with ⟨heq, _⟩ | ⟨b, outer, s, t, _, _, _, _, heq⟩
  · rw [heq]
  · simp [heq, Draft.handedOver]

theorem Housed.size_apply (h : d.Housed) (call : Call) :
    (d.apply call).stmts.size = d.stmts.size + call.stmt?.toList.length := by
  have hbegin : ∀ s slot, (d.begin s slot).2.stmts.size = d.stmts.size + 1 := fun s slot => by
    simp [begin_eq, Draft.openBlock, stmts_push]
  cases call with
  | push s => simp [Draft.apply, Call.stmt?, stmts_push]
  | beginTask kind container => exact hbegin _ _
  | beginBranch cond => exact hbegin _ _
  | beginRangeFor first last => exact hbegin _ _
  | beginElse =>
    rw [← h.size_close [.onTrue]]
    simp only [Draft.apply, Draft.beginElse]
    split <;> next heq => simp [heq, Draft.openBlock, Call.stmt?]
  | endTask => exact h.size_close _
  | endBranch => exact h.size_close _
  | endRangeFor => exact h.size_close _

theorem Housed.apply (h : d.Housed) (call : Call)
    (hroom : d.stmts.size + call.stmt?.toList.length ≤ UInt32.size) : (d.apply call).Housed := by
  cases call with
  | push s => exact h.push hroom s
  | beginTask kind container => exact h.begin hroom rfl
  | beginBranch cond => exact h.begin hroom rfl
  | beginRangeFor first last => exact h.begin hroom rfl
  | beginElse => exact h.beginElse
  | endTask => exact h.close _
  | endBranch => exact h.close _
  | endRangeFor => exact h.close _

theorem Housed.run (calls : List Call) (h : d.Housed)
    (hroom : d.stmts.size + (appended calls).length ≤ UInt32.size) : (d.run calls).Housed := by
  induction calls generalizing d with
  | nil => exact h
  | cons call rest ih =>
    rw [appended_cons, List.length_append] at hroom
    exact ih (h.apply call (by omega)) (by rw [h.size_apply]; omega)

-- ---------------------------------------------------------------------------
-- Answers
-- ---------------------------------------------------------------------------

theorem closing_eq (d : Draft) (c : Closing) :
    (d.closing c).1 = (d.close? c.slots).1 ∧
      ((d.close? c.slots).1 = none → d.closing c = d.close? c.slots) := by
  cases c with
  | beginElse =>
    simp only [closing, Draft.beginElse, Closing.slots]
    split <;> next heq => simp [heq]
  | _ => exact ⟨rfl, fun _ => rfl⟩

/-- A call looks at the sort of the innermost block and at nothing else. -/
theorem Housed.closing (h : d.Housed) (c : Closing) :
    (d.closing c = (none, d) ∧
        ∀ b outer, d.openBlocks = b :: outer → ¬ c.slots.contains b.slot) ∨
      ∃ b outer s, d.openBlocks = b :: outer ∧ d.table.stmt? b.owner = some s ∧
        (c.Fits b.slot s ∨ c.Confuses s) ∧ (d.closing c).1 = some b.owner := by
  obtain ⟨hanswer, hrefusal⟩ := d.closing_eq c
  rcases h.close? c.slots with ⟨heq, hnone⟩ | ⟨b, outer, s, t, hb, hslot, hs, _, heq⟩
  · exact .inl ⟨(hrefusal (by rw [heq])).trans heq, hnone⟩
  · obtain ⟨u, items, hu, hitems⟩ := h.owners b (hb ▸ List.mem_cons_self)
    cases hs.symm.trans hu
    exact .inr ⟨b, outer, s, hb, hs, Closing.fits_or_confuses hslot hitems, by rw [hanswer, heq]⟩

theorem Housed.heeds_iff (h : d.Housed) (c : Closing) : d.Heeds c ↔ ¬ d.Confused c := by
  constructor
  · rintro ⟨hanswer, -⟩ ⟨b, outer, s, hb, hs, hconfuses⟩
    obtain ⟨u, items, hu, hitems⟩ := h.owners b (hb ▸ List.mem_cons_self)
    cases hs.symm.trans hu
    -- The body is closed, although it does not match.
    rcases h.closing c with ⟨_, hnone⟩ | ⟨b', outer', s', hb', _, _, heq⟩
    · exact hnone b outer hb (hconfuses.mem_slots hitems)
    · cases hb.symm.trans hb'
      obtain ⟨b', outer', s', hb', howner, hs', hfits⟩ := (hanswer b.owner).mp heq
      cases hb.symm.trans hb'
      cases hs.symm.trans hs'
      exact hfits.not_confuses hconfuses
  · intro hnot
    rcases h.closing c with ⟨heq, hnone⟩ | ⟨b, outer, s, hb, hs, hfits, heq⟩
    · have hno : ∀ id, ¬ d.Matches c id := by
        rintro id ⟨b, outer, s, hb, _, _, hfits⟩
        exact hnone b outer hb hfits.mem_slots
      exact ⟨fun id => by simp [heq, hno], fun _ => heq⟩
    · have hfits := hfits.resolve_right fun hconfuses => hnot ⟨b, outer, s, hb, hs, hconfuses⟩
      refine ⟨fun id => ⟨?_, ?_⟩, fun hno => absurd ⟨b, outer, s, hb, rfl, hs, hfits⟩ (hno b.owner)⟩
      · intro hid
        cases heq.symm.trans hid
        exact ⟨b, outer, s, hb, rfl, hs, hfits⟩
      · rintro ⟨b', outer', s', hb', rfl, _⟩
        cases hb.symm.trans hb'
        exact heq

/-- A call heeds what it closes, after whatever calls, unless it meets the body of a loop and is
meant for tasks or the other way round. -/
theorem heeds_iff_not_confused (hfit : (appended calls).length ≤ UInt32.size) (c : Closing) :
    ((new storage).run calls).Heeds c ↔ ¬ ((new storage).run calls).Confused c :=
  ((housed_new storage).run calls (by simpa [new] using hfit)).heeds_iff c

/-- A task, a loop in it, and a conditional in the loop. -/
def layeredCalls : List Call :=
  [.beginTask .rangeFor none, .push (.const (.i32 1)), .beginRangeFor ⟨1⟩ ⟨1⟩, .beginBranch ⟨1⟩]

/-- While the conditional is open, the call for tasks is refused and the one for conditionals is
not. -/
theorem layeredCalls_heeded :
    ((new .new).run layeredCalls).closing .endTask = (none, (new .new).run layeredCalls) ∧
      (((new .new).run layeredCalls).closing .endBranch).1 = some ⟨3⟩ := by
  have hheeds : ∀ c : Closing, ((new .new).run layeredCalls).Heeds c := fun c => by
    refine (heeds_iff_not_confused (by decide) c).mpr ?_
    rintro ⟨b, outer, s, hb, hs, hconfuses⟩
    cases hb
    cases hs
    cases hconfuses
  refine ⟨(hheeds .endTask).refusal ?_, ((hheeds .endBranch).answer _).mpr ?_⟩
  · rintro id ⟨b, outer, s, hb, _, _, hfits⟩
    cases hb
    cases hfits
  · exact ⟨_, _, _, rfl, rfl, rfl, .endOnTrue⟩

/-- Once the conditional is closed, the call for tasks closes the loop. -/
theorem layeredCalls_confused :
    (((new .new).run (layeredCalls ++ [.endBranch])).closing .endTask).1 = some ⟨2⟩ ∧
      ((new .new).run (layeredCalls ++ [.endBranch])).table.stmt? ⟨2⟩ =
        some (.rangeFor ⟨1⟩ ⟨1⟩ []) ∧
      ¬ ((new .new).run (layeredCalls ++ [.endBranch])).Matches .endTask ⟨2⟩ := by
  refine ⟨rfl, rfl, ?_⟩
  rintro ⟨b, outer, s, hb, _, hs, hfits⟩
  cases hb
  cases hs
  cases hfits

end Draft

end UniqueAccess
