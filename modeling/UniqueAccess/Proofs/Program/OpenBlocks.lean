import UniqueAccess.Program.Draft
import UniqueAccess.Proofs.Program.Bare
import UniqueAccess.Proofs.Program.Validity

/-!
# Drafts in order

Whatever is appended, opened or closed, a draft stays in order. The walks through the top-level
block and through the open blocks, from the outermost to the innermost, meet the names of the table
one after the other, and the owner of an open block stands last in the block around it, with nothing
yet in its slot. So a block that is closed is met where it was met before, and what a block lists it
keeps.
-/

namespace UniqueAccess

-- ---------------------------------------------------------------------------
-- Slots
-- ---------------------------------------------------------------------------

namespace Stmt

variable {s t : Stmt} {slot : BlockSlot} {items : Block}

def block? : BlockSlot → Stmt → Option Block
  | .body, .rangeFor _ _ body => some body
  | .body, .task _ _ body => some body
  | .onTrue, .branch _ onTrue _ => some onTrue
  | .onFalse, .branch _ _ onFalse => some onFalse
  | _, _ => none

/-- The statement has the slot, and nothing is in it or in a later one. -/
inductive Awaits : Stmt → BlockSlot → Prop
  | rangeFor {first last : StmtId} : Awaits (.rangeFor first last []) .body
  | task {kind : TaskKind} {container : Option NodeId} : Awaits (.task kind container []) .body
  | onTrue {cond : StmtId} : Awaits (.branch cond [] []) .onTrue
  | onFalse {cond : StmtId} {onTrue : Block} : Awaits (.branch cond onTrue []) .onFalse

theorem bare_of_withBlock? (h : s.withBlock? items slot = some t) : t.bare = s.bare := by
  cases slot <;> cases s <;> cases h <;> rfl

theorem block?_of_withBlock? (h : s.withBlock? items slot = some t) (slot' : BlockSlot) :
    t.block? slot' = if slot' = slot then some items else s.block? slot' := by
  cases slot <;> cases s <;> cases h <;> cases slot' <;> rfl

theorem Awaits.block?_eq (h : s.Awaits slot) : s.block? slot = some [] := by
  cases h <;> rfl

theorem Awaits.exists_withBlock? (h : s.Awaits slot) (items : Block) :
    ∃ t, s.withBlock? items slot = some t ∧ t.blocks.flatten = s.blocks.flatten ++ items ∧
      (slot = .onTrue → t.Awaits .onFalse) := by
  cases h with
  | onTrue => exact ⟨_, rfl, by simp [blocks], fun _ => .onFalse⟩
  | _ => exact ⟨_, rfl, by simp [blocks], by simp⟩

theorem flatten_blocks_of_bare (h : s.bare = s) : s.blocks.flatten = [] := by
  rw [← h]
  cases s <;> rfl

end Stmt

namespace Program

variable {p q : Program} {id : StmtId} {s t : Stmt}

def blockAt (p : Program) : Option (StmtId × BlockSlot) → Block
  | none => p.root
  | some (owner, slot) => ((p.stmt? owner).bind (Stmt.block? slot)).getD []

theorem mem_blockAt_some {owner : StmtId} {slot : BlockSlot} :
    id ∈ p.blockAt (some (owner, slot)) ↔
      ∃ s items, p.stmt? owner = some s ∧ s.block? slot = some items ∧ id ∈ items := by
  simp only [blockAt]
  cases p.stmt? owner with
  | none => simp
  | some s => cases hs : s.block? slot <;> simp [hs]

theorem index_lt_of_mem_ids (h : id ∈ p.ids) : id.index < p.size := by
  obtain ⟨i, hi, rfl⟩ := List.mem_map.mp h
  refine Nat.lt_of_le_of_lt ?_ (List.mem_range.mp hi)
  simp [StmtId.ofIndex, StmtId.index, Nat.mod_le]

theorem exists_stmt?_of_mem_ids (h : id ∈ p.ids) : ∃ s, p.stmt? id = some s :=
  ⟨_, Array.getElem?_eq_getElem (index_lt_of_mem_ids h)⟩

theorem Walked.append_singleton {b : Block} {l : List StmtId} (h : p.Walked .everything b l)
    (hs : p.stmt? id = some s) (hblocks : s.blocks.flatten = []) :
    p.Walked .everything (b ++ [id]) (l ++ [id]) := by
  have hinner : p.Walked .everything (nested .everything s) [] := by
    rw [nested_everything, hblocks]
    exact .nil
  exact walked_append.mpr ⟨l, [id], h, .known hs hinner .nil, rfl⟩

/-- If the last statement of a block gets more to own, the walk goes on with it. -/
theorem Walked.fill {first items : Block} {owner : StmtId} {l inner : List StmtId}
    (h : p.Walked .everything (first ++ [owner]) l) (hitems : p.Walked .everything items inner)
    (hnodup : (l ++ inner).Nodup) (hs : p.stmt? owner = some s) (ht : q.stmt? owner = some t)
    (hblocks : t.blocks.flatten = s.blocks.flatten ++ items)
    (hother : ∀ id ≠ owner, q.stmt? id = p.stmt? id) :
    q.Walked .everything (first ++ [owner]) (l ++ inner) := by
  obtain ⟨l₁, l₂, hfirst, hlast, rfl⟩ := walked_append.mp h
  cases hlast with
  | unknown hs' => cases hs'.symm.trans hs
  | @known _ own _ _ _ hs' hown hnil =>
    cases hnil
    cases hs'.symm.trans hs
    -- The owner is met once, so that what else is met is the same in both programs.
    have hne : ∀ id ∈ l₁ ++ (own ++ inner), id ≠ owner := by
      have hsplit : (l₁ ++ owner :: (own ++ inner)).Nodup := by simpa using hnodup
      have hnot := (List.nodup_cons.mp (List.perm_middle.nodup hsplit)).1
      exact fun id hid heq => hnot (heq ▸ hid)
    have hcongr : ∀ {b l}, p.Walked .everything b l → (∀ id ∈ l, id ∈ l₁ ++ (own ++ inner)) →
        q.Walked .everything b l := fun hwalked hsub =>
      hwalked.congr fun id hid => hother id (hne id (hsub id hid))
    have hnested : q.Walked .everything (nested .everything t) (own ++ inner) := by
      rw [nested_everything, hblocks, ← nested_everything s]
      exact walked_append.mpr ⟨own, inner, hcongr hown (by simp +contextual),
        hcongr hitems (by simp +contextual), rfl⟩
    exact walked_append.mpr ⟨l₁, owner :: (own ++ inner ++ []), hcongr hfirst (by simp +contextual),
      .known ht hnested .nil, by simp⟩

end Program

namespace Draft

open Program (ofIndex_index index_ofIndex ids_nodup index_lt_of_mem_ids mem_blockAt_some)

variable {d d' : Draft} {b : OpenBlock} {outer blocks : List OpenBlock} {p q : Program}
  {l inner : List StmtId} {id : StmtId} {s t : Stmt} {slot : BlockSlot}

-- ---------------------------------------------------------------------------
-- Order
-- ---------------------------------------------------------------------------

def table (d : Draft) : Program := ⟨Program.currentVersion, d.storage, d.stmts, d.root⟩

def innermost (root : Block) : List OpenBlock → Block
  | [] => root
  | b :: _ => b.items

/-- The walks through the top-level block and the open ones, one after the other, and where the
open ones belong. -/
inductive Spans (p : Program) : List OpenBlock → List StmtId → Prop
  | root {l : List StmtId} : p.Walked .everything p.root l → Spans p [] l
  | block {b : OpenBlock} {outer : List OpenBlock} {s : Stmt} {l inner : List StmtId} :
      Spans p outer l → (innermost p.root outer).getLast? = some b.owner →
      p.stmt? b.owner = some s → s.Awaits b.slot → p.Walked .everything b.items inner →
      Spans p (b :: outer) (l ++ inner)

theorem Spans.mem (h : Spans p blocks l) (hid : id ∈ innermost p.root blocks) : id ∈ l := by
  cases h with
  | root hwalked => exact hwalked.mem_of_mem hid
  | block _ _ _ _ hwalked => exact List.mem_append_right _ (hwalked.mem_of_mem hid)

theorem Spans.congr (h : Spans p blocks l) (hroot : q.root = p.root)
    (hstmts : ∀ id ∈ l, q.stmt? id = p.stmt? id) : Spans q blocks l := by
  induction h with
  | root hwalked => exact .root (hroot ▸ hwalked.congr hstmts)
  | block hspans hlast hs hawaits hwalked ih =>
    rw [List.forall_mem_append] at hstmts
    have howner := hstmts.1 _ (hspans.mem (List.mem_of_getLast? hlast))
    exact .block (ih hstmts.1) (hroot ▸ hlast) (howner.trans hs) hawaits (hwalked.congr hstmts.2)

/-- If the block around gets what is in the innermost one, the walks are what they were. -/
theorem Spans.fill {items : Block} {owner : StmtId} (h : Spans p outer l)
    (hlast : (innermost p.root outer).getLast? = some owner)
    (hitems : p.Walked .everything items inner) (hnodup : (l ++ inner).Nodup)
    (hs : p.stmt? owner = some s) (ht : q.stmt? owner = some t)
    (hblocks : t.blocks.flatten = s.blocks.flatten ++ items) (hroot : q.root = p.root)
    (hother : ∀ id ≠ owner, q.stmt? id = p.stmt? id) : Spans q outer (l ++ inner) := by
  obtain ⟨first, hfirst⟩ := List.getLast?_eq_some_iff.mp hlast
  cases h with
  | root hwalked =>
    refine .root ?_
    rw [hroot, show p.root = first ++ [owner] from hfirst]
    exact Program.Walked.fill (hfirst ▸ hwalked) hitems hnodup hs ht hblocks hother
  | @block c outer s' l l' hspans hlast' hs' hawaits hwalked =>
    rw [List.append_assoc] at hnodup ⊢
    obtain ⟨_, hnodup', hdisjoint⟩ := List.nodup_append.mp hnodup
    -- The owner is met in the block `c`, and hence is none of those that are met before it.
    have howner : owner ∈ l' := hwalked.mem_of_mem (List.mem_of_getLast? hlast)
    have hne : ∀ id ∈ l, id ≠ owner := fun id hid heq =>
      hdisjoint id hid owner (List.mem_append_left _ howner) heq
    refine .block (hspans.congr hroot fun id hid => hother id (hne id hid)) (hroot ▸ hlast')
      ((hother _ (hne _ (hspans.mem (List.mem_of_getLast? hlast')))).trans hs') hawaits ?_
    rw [show c.items = first ++ [owner] from hfirst] at hwalked ⊢
    exact Program.Walked.fill hwalked hitems hnodup' hs ht hblocks hother

structure InOrder (d : Draft) : Prop where
  names : d.stmts.size ≤ UInt32.size
  spans : Spans d.table d.openBlocks d.table.ids

theorem inOrder_new (storage : StorageTree) : (new storage).InOrder :=
  ⟨Nat.zero_le _, .root .nil⟩

-- ---------------------------------------------------------------------------
-- Places
-- ---------------------------------------------------------------------------

def place (d : Draft) : Option (StmtId × BlockSlot) :=
  d.openBlocks.head?.map fun b => (b.owner, b.slot)

/-- The name is in the block of a place, whether that is still open or not. -/
inductive Lists (d : Draft) (place : Option (StmtId × BlockSlot)) (id : StmtId) : Prop
  | closed : id ∈ d.table.blockAt place → Lists d place id
  | stillOpen {b : OpenBlock} : b ∈ d.openBlocks → place = some (b.owner, b.slot) →
      id ∈ b.items → Lists d place id

def bares (d : Draft) : List Stmt := d.stmts.toList.map Stmt.bare

theorem length_bares : d.bares.length = d.stmts.size := by
  simp [bares]

/-- The second draft is in order and has some more statements, and every name is where it was. -/
structure Continues (d : Draft) (more : List Stmt) (d' : Draft) : Prop where
  inOrder : d'.InOrder
  storage : d'.storage = d.storage
  bares : d'.bares = d.bares ++ more
  lists : ∀ place id, d.Lists place id → d'.Lists place id

theorem InOrder.continues (h : d.InOrder) : d.Continues [] d :=
  ⟨h, rfl, (List.append_nil _).symm, fun _ _ hid => hid⟩

theorem Continues.trans {more more' : List Stmt} {d'' : Draft} (h : d.Continues more d')
    (h' : d'.Continues more' d'') : d.Continues (more ++ more') d'' where
  inOrder := h'.inOrder
  storage := h'.storage.trans h.storage
  bares := by rw [h'.bares, h.bares, List.append_assoc]
  lists place id hid := h'.lists place id (h.lists place id hid)

theorem Continues.size {more : List Stmt} (h : d.Continues more d') :
    d'.stmts.size = d.stmts.size + more.length := by
  rw [← length_bares, h.bares, List.length_append, length_bares]

-- ---------------------------------------------------------------------------
-- Appending
-- ---------------------------------------------------------------------------

theorem push_of_root (hb : d.openBlocks = []) :
    (d.push s).2 =
      { d with
        stmts := d.stmts.push s
        root := d.root ++ [StmtId.ofIndex d.stmts.size] } := by
  simp [push, hb]

theorem push_of_block (hb : d.openBlocks = b :: outer) :
    (d.push s).2 =
      { d with
        stmts := d.stmts.push s
        openBlocks := { b with items := b.items ++ [StmtId.ofIndex d.stmts.size] } :: outer } := by
  simp [push, hb]

theorem stmts_push : (d.push s).2.stmts = d.stmts.push s := by
  cases hb : d.openBlocks with
  | nil => rw [push_of_root hb]
  | cons b outer => rw [push_of_block hb]

theorem storage_push : (d.push s).2.storage = d.storage := by
  cases hb : d.openBlocks with
  | nil => rw [push_of_root hb]
  | cons b outer => rw [push_of_block hb]

theorem stmt?_push :
    (d.push s).2.table.stmt? id =
      if id.index = d.stmts.size then some s else d.table.stmt? id := by
  simp only [table, Program.stmt?, stmts_push, Array.getElem?_push]

theorem ids_push : (d.push s).2.table.ids = d.table.ids ++ [StmtId.ofIndex d.stmts.size] := by
  simp [Program.ids, Program.size, table, stmts_push, List.range_succ]

theorem stmt?_push_of_mem (hid : id ∈ d.table.ids) :
    (d.push s).2.table.stmt? id = d.table.stmt? id := by
  have hlt : id.index < d.stmts.size := index_lt_of_mem_ids hid
  rw [stmt?_push, if_neg (Nat.ne_of_lt hlt)]

theorem stmt?_push_self (hroom : d.stmts.size < UInt32.size) :
    (d.push s).2.table.stmt? (StmtId.ofIndex d.stmts.size) = some s := by
  rw [stmt?_push, index_ofIndex hroom, if_pos rfl]

theorem getLast?_push :
    (innermost (d.push s).2.root (d.push s).2.openBlocks).getLast? =
      some (StmtId.ofIndex d.stmts.size) := by
  cases hb : d.openBlocks with
  | nil => simp [push_of_root hb, innermost, hb]
  | cons b outer => simp [push_of_block hb, innermost]

theorem lists_push_self : (d.push s).2.Lists d.place (StmtId.ofIndex d.stmts.size) := by
  cases hb : d.openBlocks with
  | nil =>
    rw [place, hb, push_of_root hb]
    exact .closed (by simp [Program.blockAt, table])
  | cons b outer =>
    rw [place, hb, push_of_block hb]
    exact .stillOpen List.mem_cons_self rfl (by simp)

theorem Lists.push {place : Option (StmtId × BlockSlot)} (h : d.Lists place id) :
    (d.push s).2.Lists place id := by
  cases h with
  | closed hid =>
    refine .closed ?_
    cases place with
    | none =>
      have hid : id ∈ d.root := hid
      cases hb : d.openBlocks with
      | nil => simp [push_of_root hb, Program.blockAt, table, hid]
      | cons b outer => simp [push_of_block hb, Program.blockAt, table, hid]
    | some place =>
      obtain ⟨owner, slot⟩ := place
      obtain ⟨t, items, ht, hitems, hid⟩ := mem_blockAt_some.mp hid
      exact mem_blockAt_some.mpr
        ⟨t, items, (stmt?_push_of_mem (Program.mem_ids ht)).trans ht, hitems, hid⟩
  | @stillOpen c hc hplace hid =>
    cases hb : d.openBlocks with
    | nil => simp [hb] at hc
    | cons b outer =>
      rw [push_of_block hb]
      rw [hb] at hc
      rcases List.mem_cons.mp hc with rfl | hc
      · exact .stillOpen List.mem_cons_self hplace (List.mem_append_left _ hid)
      · exact .stillOpen (List.mem_cons_of_mem _ hc) hplace hid

theorem Spans.push (h : Spans d.table d.openBlocks l) (hroom : d.stmts.size < UInt32.size)
    (hl : ∀ id ∈ l, id ∈ d.table.ids) (hs : s.bare = s) :
    Spans (d.push s).2.table (d.push s).2.openBlocks (l ++ [StmtId.ofIndex d.stmts.size]) := by
  have hnew := stmt?_push_self (s := s) hroom
  have hold : ∀ id ∈ l, (d.push s).2.table.stmt? id = d.table.stmt? id := fun id hid =>
    stmt?_push_of_mem (hl id hid)
  have hblocks := Stmt.flatten_blocks_of_bare hs
  generalize hb : d.openBlocks = blocks at h
  cases h with
  | root hwalked =>
    rw [push_of_root hb] at hnew hold ⊢
    rw [hb]
    exact .root ((hwalked.congr hold).append_singleton hnew hblocks)
  | block hspans hlast hs' hawaits hwalked =>
    rw [push_of_block hb] at hnew hold ⊢
    rw [List.forall_mem_append] at hold
    rw [List.append_assoc]
    have howner := hold.1 _ (hspans.mem (List.mem_of_getLast? hlast))
    exact .block (hspans.congr rfl hold.1) hlast (howner.trans hs') hawaits
      ((hwalked.congr hold.2).append_singleton hnew hblocks)

theorem InOrder.push (h : d.InOrder) (hroom : d.stmts.size < UInt32.size) (hs : s.bare = s) :
    d.Continues [s] (d.push s).2 where
  inOrder := ⟨by rwa [stmts_push, Array.size_push], ids_push ▸ h.spans.push hroom (fun _ h => h) hs⟩
  storage := storage_push
  bares := by simp [Draft.bares, stmts_push, hs]
  lists _ _ := Lists.push

theorem Lists.openBlock {place : Option (StmtId × BlockSlot)} (h : d.Lists place id)
    (owner : StmtId) (slot : BlockSlot) : (d.openBlock owner slot).Lists place id := by
  cases h with
  | closed hid => exact .closed hid
  | stillOpen hc hplace hid => exact .stillOpen (List.mem_cons_of_mem _ hc) hplace hid

theorem InOrder.openBlock {owner : StmtId} (h : d.InOrder)
    (hlast : (innermost d.root d.openBlocks).getLast? = some owner)
    (hs : d.table.stmt? owner = some s) (hawaits : s.Awaits slot) :
    d.Continues [] (d.openBlock owner slot) where
  inOrder := by
    have hspans := Spans.block (b := ⟨owner, slot, []⟩) h.spans hlast hs hawaits .nil
    rw [List.append_nil] at hspans
    exact ⟨h.names, hspans⟩
  storage := rfl
  bares := (List.append_nil _).symm
  lists _ _ hid := hid.openBlock owner slot

theorem begin_eq :
    (d.begin s slot).2 = (d.push s).2.openBlock (StmtId.ofIndex d.stmts.size) slot := by
  cases hb : d.openBlocks with
  | nil => simp [Draft.begin, push, hb]
  | cons b outer => simp [Draft.begin, push, hb]

theorem InOrder.begin (h : d.InOrder) (hroom : d.stmts.size < UInt32.size) (hs : s.bare = s)
    (hawaits : s.Awaits slot) : d.Continues [s] (d.begin s slot).2 := by
  have hpush := h.push hroom hs
  rw [begin_eq]
  exact hpush.trans (hpush.inOrder.openBlock getLast?_push (stmt?_push_self hroom) hawaits)

-- ---------------------------------------------------------------------------
-- Closing
-- ---------------------------------------------------------------------------

def handedOver (d : Draft) (b : OpenBlock) (outer : List OpenBlock) (t : Stmt) : Draft :=
  { d with
    stmts := d.stmts.setIfInBounds b.owner.index t
    openBlocks := outer }

theorem handOver?_eq (hs : d.table.stmt? b.owner = some s)
    (ht : s.withBlock? b.items b.slot = some t) :
    handOver? d.stmts b = some (d.handedOver b outer t).stmts := by
  have hs : d.stmts[b.owner.index]? = some s := hs
  simp [handOver?, handedOver, hs, ht]

theorem stmt?_handedOver (hs : d.table.stmt? b.owner = some s) :
    (d.handedOver b outer t).table.stmt? id =
      if id = b.owner then some t else d.table.stmt? id := by
  have hlt : b.owner.index < d.stmts.size := (Array.getElem?_eq_some_iff.mp hs).1
  simp only [handedOver, table, Program.stmt?, Array.getElem?_setIfInBounds]
  by_cases hid : id = b.owner
  · rw [if_pos hid, if_pos (congrArg StmtId.index hid.symm), if_pos hlt]
  · have hne : b.owner.index ≠ id.index := fun heq => hid <| by
      rw [← ofIndex_index id, ← heq, ofIndex_index]
    rw [if_neg hid, if_neg hne]

theorem bares_handedOver (hs : d.table.stmt? b.owner = some s)
    (ht : s.withBlock? b.items b.slot = some t) : (d.handedOver b outer t).bares = d.bares := by
  obtain ⟨hlt, hget⟩ := Array.getElem?_eq_some_iff.mp hs
  refine List.ext_getElem? fun i => ?_
  by_cases hi : b.owner.index = i
  · subst hi
    have hlt : b.owner.index < d.stmts.size := hlt
    have hget : d.stmts[b.owner.index] = s := hget
    simp [bares, handedOver, hlt, hget, Stmt.bare_of_withBlock? ht]
  · simp [bares, handedOver, List.getElem?_set_ne hi]

theorem Lists.handedOver {place : Option (StmtId × BlockSlot)} (h : d.Lists place id)
    (hb : d.openBlocks = b :: outer) (hs : d.table.stmt? b.owner = some s)
    (hawaits : s.Awaits b.slot) (ht : s.withBlock? b.items b.slot = some t) :
    (d.handedOver b outer t).Lists place id := by
  cases h with
  | closed hid =>
    cases place with
    | none => exact .closed hid
    | some place =>
      obtain ⟨owner, slot⟩ := place
      obtain ⟨u, items, hu, hitems, hmem⟩ := mem_blockAt_some.mp hid
      refine .closed (mem_blockAt_some.mpr ?_)
      by_cases howner : owner = b.owner
      · -- The slot that is filled was empty, and the others stay what they are.
        subst howner
        cases hu.symm.trans hs
        have hslot : slot ≠ b.slot := by
          rintro rfl
          cases hitems.symm.trans hawaits.block?_eq
          cases hmem
        exact ⟨t, items, by rw [stmt?_handedOver hs, if_pos rfl],
          by rw [Stmt.block?_of_withBlock? ht, if_neg hslot, hitems], hmem⟩
      · exact ⟨u, items, by rw [stmt?_handedOver hs, if_neg howner, hu], hitems, hmem⟩
  | @stillOpen c hc hplace hid =>
    rw [hb] at hc
    rcases List.mem_cons.mp hc with rfl | hc
    · subst hplace
      exact .closed (mem_blockAt_some.mpr ⟨t, c.items, by rw [stmt?_handedOver hs, if_pos rfl],
        by rw [Stmt.block?_of_withBlock? ht, if_pos rfl], hid⟩)
    · exact .stillOpen hc hplace hid

/-- The innermost block can be handed over; its owner is the last statement of the block around it,
and after a first branch it goes on to the second. -/
theorem InOrder.handOver (h : d.InOrder) (hb : d.openBlocks = b :: outer) :
    ∃ t, handOver? d.stmts b = some (d.handedOver b outer t).stmts ∧
      d.Continues [] (d.handedOver b outer t) ∧
      (d.handedOver b outer t).table.stmt? b.owner = some t ∧
      (innermost d.root outer).getLast? = some b.owner ∧
      (b.slot = .onTrue → t.Awaits .onFalse) := by
  have hspans := h.spans
  have hnodup := ids_nodup (p := d.table) h.names
  have hids : ∀ t, (d.handedOver b outer t).table.ids = d.table.ids := fun t => by
    simp [handedOver, table, Program.ids, Program.size]
  rw [hb] at hspans
  generalize hl : d.table.ids = l at hspans hnodup hids
  cases hspans with
  | @block _ _ s l inner hspans hlast hs hawaits hwalked =>
    obtain ⟨t, ht, hblocks, hnext⟩ := hawaits.exists_withBlock? b.items
    have hself : (d.handedOver b outer t).table.stmt? b.owner = some t := by
      rw [stmt?_handedOver hs, if_pos rfl]
    have hother : ∀ id ≠ b.owner,
        (d.handedOver b outer t).table.stmt? id = d.table.stmt? id := fun id hid => by
      rw [stmt?_handedOver hs, if_neg hid]
    have hspans := hspans.fill hlast hwalked hnodup hs hself hblocks rfl hother
    refine ⟨t, handOver?_eq hs ht, ⟨?_, rfl, ?_, fun _ _ hid => hid.handedOver hb hs hawaits ht⟩,
      hself, hlast, hnext⟩
    · exact ⟨by simpa [handedOver] using h.names, (hids t).symm ▸ hspans⟩
    · rw [bares_handedOver hs ht, List.append_nil]

theorem InOrder.close? (h : d.InOrder) (slots : List BlockSlot) :
    d.close? slots = (none, d) ∨ ∃ b outer t, d.openBlocks = b :: outer ∧ slots.contains b.slot ∧
      d.close? slots = (some b.owner, d.handedOver b outer t) ∧
      d.Continues [] (d.handedOver b outer t) ∧
      (d.handedOver b outer t).table.stmt? b.owner = some t ∧
      (innermost d.root outer).getLast? = some b.owner ∧
      (b.slot = .onTrue → t.Awaits .onFalse) := by
  cases hb : d.openBlocks with
  | nil => exact .inl (by simp [Draft.close?, hb])
  | cons b outer =>
    by_cases hslot : slots.contains b.slot
    · obtain ⟨t, hhand, hrest⟩ := h.handOver hb
      refine .inr ⟨b, outer, t, rfl, hslot, ?_, hrest⟩
      simp only [Draft.close?, hb, if_pos hslot, hhand]
      rfl
    · exact .inl (by simp only [Draft.close?, hb, if_neg hslot])

theorem InOrder.close (h : d.InOrder) (slots : List BlockSlot) :
    d.Continues [] (d.close? slots).2 := by
  rcases h.close? slots with heq | ⟨b, outer, t, _, _, heq, hcontinues, _⟩
  · rw [heq]
    exact h.continues
  · rw [heq]
    exact hcontinues

theorem InOrder.beginElse (h : d.InOrder) : d.Continues [] d.beginElse.2 := by
  unfold Draft.beginElse
  rcases h.close? [.onTrue] with heq | ⟨b, outer, t, _, hslot, heq, hcontinues, hself, hlast, hnext⟩
  · rw [heq]
    exact h.continues
  · rw [heq]
    exact hcontinues.trans (hcontinues.inOrder.openBlock hlast hself (hnext (by simpa using hslot)))

-- ---------------------------------------------------------------------------
-- Finishing
-- ---------------------------------------------------------------------------

theorem InOrder.closeAll (h : d.InOrder) :
    ∃ d', d.Continues [] d' ∧ d'.openBlocks = [] ∧
      Draft.closeAll d.stmts d.root d.openBlocks = (d'.stmts, d'.root) := by
  induction hb : d.openBlocks generalizing d with
  | nil => exact ⟨d, h.continues, hb, rfl⟩
  | cons b outer ih =>
    obtain ⟨t, hhand, hcontinues, _⟩ := h.handOver hb
    obtain ⟨d', hcontinues', hnone, heq⟩ := ih hcontinues.inOrder rfl
    refine ⟨d', hcontinues.trans hcontinues', hnone, ?_⟩
    rw [← heq]
    exact Draft.closeAll.eq_2 _ _ _ _ _ hhand

theorem InOrder.finishUnchecked (h : d.InOrder) :
    ∃ d', d.Continues [] d' ∧ d'.openBlocks = [] ∧ d.finishUnchecked = d'.table := by
  obtain ⟨d', hcontinues, hnone, heq⟩ := h.closeAll
  refine ⟨d', hcontinues, hnone, ?_⟩
  simp only [Draft.finishUnchecked, heq, table, hcontinues.storage]

theorem InOrder.walked (h : d.InOrder) (hnone : d.openBlocks = []) :
    d.table.Walked .everything d.table.root d.table.ids := by
  have hspans := h.spans
  rw [hnone] at hspans
  generalize d.table.ids = l at hspans
  cases hspans with
  | root hwalked => exact hwalked

end Draft

end UniqueAccess
