import UniqueAccess.Proofs.Access.Gathering
import Mathlib.Data.List.Forall2

/-!
# What is folded

The entries of a task's nodes are folded into entries of containers one after the other, and the
first that cannot be folded ends the task. Which one that is, and what the containers are otherwise,
can be said without the fold (`packedContainers_folded`): an entry fails only by its own node, or by
the number of its indices where all earlier fields of its container have representatives that agree.
As for nodes, nothing is asked of the oracle.
-/

namespace UniqueAccess.Program

variable {p : Program} {o : AliasOracle} {task : StmtId} {c m : AccessMap} {node container : NodeId}
  {fields done entries : List (NodeId × Option StmtId)} {access : NodeId × Option StmtId}
  {e : AccessError}

-- ---------------------------------------------------------------------------
-- Containers
-- ---------------------------------------------------------------------------

def container? (p : Program) (node : NodeId) : Option NodeId :=
  if p.storage.isBitLevel node then p.storage.container? node else none

theorem container?_eq_some : p.container? node = some container ↔ p.IsPackedInto node container := by
  simp [container?, IsPackedInto]

theorem container?_of_packedInto {container : Option NodeId}
    (h : p.packedInto node = .ok container) : p.container? node = container := by
  ext k
  rw [container?_eq_some, packedInto_eq_ok h]

theorem packedInto_of_isPackedInto (h : p.IsPackedInto node container) :
    p.packedInto node = .ok (some container) := by
  obtain ⟨hflag, hcontainer⟩ := h
  obtain ⟨n, hn, hlevel⟩ := isBitLevel_iff.mp hflag
  refine bind_ok.mpr ⟨n, requireNode_eq_ok.mpr hn, ?_⟩
  rw [if_pos hlevel, hcontainer]
  rfl

theorem packedInto_eq_error :
    p.packedInto node = .error e ↔ p.storage.get? node = none ∧ e = .nodeMissing node ∨
      p.storage.isBitLevel node ∧ p.storage.container? node = none ∧ e = .orphanField node := by
  refine ⟨packedInto_error, ?_⟩
  rintro (⟨hnode, rfl⟩ | ⟨hflag, hnone, rfl⟩)
  · exact bind_error.mpr (.inl (requireNode_eq_error.mpr ⟨hnode, rfl⟩))
  · obtain ⟨n, hn, hlevel⟩ := isBitLevel_iff.mp hflag
    refine bind_error.mpr (.inr ⟨n, requireNode_eq_ok.mpr hn, ?_⟩)
    rw [if_pos hlevel, hnone]
    rfl

-- ---------------------------------------------------------------------------
-- Representatives
-- ---------------------------------------------------------------------------

/-- Two pointers have equally many indices, and the oracle finds those at the same position to have
the same value. -/
def SameCoordinates (p : Program) (o : AliasOracle) (field representative : StmtId) : Prop :=
  ∃ x y, p.indices? field = some x ∧ p.indices? representative = some y ∧
    List.Forall₂ (fun i j => o.sameValue i j) x y

/-- All fields have a representative, the first has `r`, and the others have the coordinates of
`r`. -/
def Combines (p : Program) (o : AliasOracle) (fields : List (Option StmtId)) (r : StmtId) : Prop :=
  ∃ later, fields = some r :: later ∧
    ∀ entry ∈ later, ∃ field, entry = some field ∧ p.SameCoordinates o field r

theorem forall₂_iff_allSame {x y : List StmtId} :
    List.Forall₂ (fun i j => o.sameValue i j) x y ↔
      x.length = y.length ∧ allSame o.sameValue x y := by
  simp [List.forall₂_iff_zip, allSame, List.all_eq_true]

theorem agreesWith_iff {r : StmtId} {entry : Option StmtId} :
    p.agreesWith o r entry ↔ ∃ field, entry = some field ∧ p.SameCoordinates o field r := by
  constructor
  · intro h
    obtain ⟨field, x, y, rfl, hx, hy, hsame⟩ := agreesWith_eq_true h
    exact ⟨field, rfl, x, y, hx, hy, forall₂_iff_allSame.mpr hsame⟩
  · rintro ⟨field, rfl, x, y, hx, hy, hsame⟩
    obtain ⟨hlength, hall⟩ := forall₂_iff_allSame.mp hsame
    simp [agreesWith, hx, hy, hlength, hall]

theorem entryOf_eq_some_iff_combines {fields : List (Option StmtId)} {r : StmtId} :
    entryOf (fun e => e) (p.agreesWith o) fields = some (some r) ↔ p.Combines o fields r := by
  simp only [entryOf_eq_some, agreesWith_iff, Combines]
  constructor
  · rintro ⟨_, later, rfl, rfl, hlater⟩
    exact ⟨later, rfl, hlater⟩
  · rintro ⟨later, rfl, hlater⟩
    exact ⟨_, later, rfl, rfl, hlater⟩

theorem PackedReflects.eq_some_iff (hc : p.PackedReflects o c fields) {r : StmtId} :
    c.get? container = some (some r) ↔ p.Combines o (p.fieldsOf container fields) r := by
  rw [hc container, entryOf_eq_some_iff_combines]

-- ---------------------------------------------------------------------------
-- Entries that fail
-- ---------------------------------------------------------------------------

/-- What makes the entry of a node fail after some other entries: its node is not in the tree, or it
is flagged and has no container, or the fields of its container are represented so far by a pointer
with another number of indices. -/
inductive EntryFailure (p : Program) (o : AliasOracle) (done : List (NodeId × Option StmtId)) :
    NodeId × Option StmtId → AccessError → Prop
  | nodeMissing {node : NodeId} {entry : Option StmtId} (hnode : p.storage.get? node = none) :
      EntryFailure p o done (node, entry) (.nodeMissing node)
  | orphan {node : NodeId} {entry : Option StmtId} (hflag : p.storage.isBitLevel node)
      (hnone : p.storage.container? node = none) :
      EntryFailure p o done (node, entry) (.orphanField node)
  | arityMismatch {node container : NodeId} {current incoming : StmtId} {x y : List StmtId}
      (hpacked : p.IsPackedInto node container)
      (hcurrent : p.Combines o (p.fieldsOf container done) current)
      (hx : p.indices? current = some x) (hy : p.indices? incoming = some y)
      (hlength : x.length ≠ y.length) :
      EntryFailure p o done (node, some incoming)
        (.arityMismatch container current incoming x.length y.length)

def Unobstructed (p : Program) (o : AliasOracle) (entries : List (NodeId × Option StmtId)) : Prop :=
  ∀ done access rest, entries = done ++ access :: rest → ∀ e, ¬ p.EntryFailure o done access e

def NamesPointers (p : Program) (entries : List (NodeId × Option StmtId)) : Prop :=
  ∀ access ∈ entries, ∀ r, access.2 = some r → ∃ x, p.indices? r = some x

theorem namesPointers_of_uniquePointers (h : p.uniquePointers o task = .ok m) :
    p.NamesPointers m.entries := by
  obtain ⟨dimensions, hdim, _⟩ := bind_ok.mp h
  obtain ⟨m', hok, hm⟩ := uniquePointers_ok o hdim
  obtain rfl : m' = m := Except.ok.inj (hok.symm.trans h)
  rintro ⟨node, entry⟩ hmem r rfl
  obtain ⟨⟨x, hleads, _⟩, _⟩ := hm.representative ((m'.mem_entries_iff node (some r)).mp hmem)
  exact ⟨x, indices?_of_leadsTo hleads⟩

theorem Combines.mem {r : StmtId} (h : p.Combines o (p.fieldsOf container fields) r) :
    ∃ node, (node, some r) ∈ fields := by
  obtain ⟨later, hfields, _⟩ := h
  obtain ⟨node, hmem, _⟩ := mem_fieldsOf.mp (hfields ▸ List.mem_cons_self)
  exact ⟨node, hmem⟩

theorem compareFields_of_length_ne {current incoming : StmtId} {x y : List StmtId}
    (hx : p.indices? current = some x) (hy : p.indices? incoming = some y)
    (hlength : x.length ≠ y.length) :
    p.compareFields o container current incoming =
      .error (.arityMismatch container current incoming x.length y.length) := by
  refine bind_error.mpr (.inr ⟨y, requireIndices_eq_ok.mpr hy, ?_⟩)
  refine bind_error.mpr (.inr ⟨x, requireIndices_eq_ok.mpr hx, ?_⟩)
  simp only [ne_eq, Ne.symm hlength, not_false_eq_true, if_true]
  rfl

theorem recordField_eq_error (hc : p.PackedReflects o c done)
    (hpointers : p.NamesPointers (done ++ [access])) :
    p.recordField o c access = .error e ↔ p.EntryFailure o done access e := by
  obtain ⟨node, entry⟩ := access
  constructor
  · intro h
    rcases bind_error.mp h with h | ⟨container, hpacked, h⟩
    · rcases packedInto_eq_error.mp h with ⟨hnode, rfl⟩ | ⟨hflag, hnone, rfl⟩
      · exact .nodeMissing hnode
      · exact .orphan hflag hnone
    cases container with
    | none => cases h
    | some container =>
      rcases bind_error.mp h with h | ⟨_, _, h⟩
      · obtain ⟨r, field, hr, rfl, hcompare⟩ := judgeField_error h
        have hcombines := hc.eq_some_iff.mp hr
        obtain ⟨first, hfirst⟩ := hcombines.mem
        obtain ⟨x, hx⟩ := hpointers _ (List.mem_append_left _ hfirst) r rfl
        obtain ⟨y, hy⟩ := hpointers _ (List.mem_append_right _ List.mem_cons_self) field rfl
        obtain ⟨hlength, rfl⟩ := compareFields_error hx hy hcompare
        exact .arityMismatch ((packedInto_eq_ok hpacked container).mpr rfl) hcombines hx hy hlength
      · cases h
  · intro h
    refine bind_error.mpr ?_
    cases h with
    | nodeMissing hnode => exact .inl (packedInto_eq_error.mpr (.inl ⟨hnode, rfl⟩))
    | orphan hflag hnone => exact .inl (packedInto_eq_error.mpr (.inr ⟨hflag, hnone, rfl⟩))
    | arityMismatch hpacked hcurrent hx hy hlength =>
      refine .inr ⟨_, packedInto_of_isPackedInto hpacked, bind_error.mpr (.inl ?_)⟩
      simp only [judgeField, hc.eq_some_iff.mpr hcurrent]
      exact compareFields_of_length_ne hx hy hlength

-- ---------------------------------------------------------------------------
-- The fold
-- ---------------------------------------------------------------------------

theorem NamesPointers.of_append {rest : List (NodeId × Option StmtId)}
    (h : p.NamesPointers (done ++ access :: rest)) : p.NamesPointers (done ++ [access]) :=
  fun a ha => h a (by grind)

theorem packedReflects_of_foldlM (h : entries.foldlM (p.recordField o) .empty = .ok c) :
    p.PackedReflects o c entries := by
  have hempty : p.PackedReflects o .empty [] := fun _ => rfl
  simpa using hempty.foldlM_recordField h

theorem exists_foldlM_iff (hpointers : p.NamesPointers entries) :
    (∃ c, entries.foldlM (p.recordField o) .empty = .ok c) ↔ p.Unobstructed o entries := by
  constructor
  · rintro ⟨c, h⟩ done access rest rfl e hfailure
    rw [List.foldlM_append] at h
    obtain ⟨c₁, hdone, h⟩ := bind_ok.mp h
    rw [List.foldlM_cons] at h
    obtain ⟨c₂, haccess, _⟩ := bind_ok.mp h
    have herror := (recordField_eq_error (packedReflects_of_foldlM hdone)
      hpointers.of_append).mpr hfailure
    cases haccess.symm.trans herror
  · intro hfree
    cases h : entries.foldlM (p.recordField o) .empty with
    | ok c => exact ⟨c, rfl⟩
    | error e =>
      obtain ⟨done, access, rest, c, rfl, hdone, h⟩ := foldlM_eq_error.mp h
      exact absurd ((recordField_eq_error (packedReflects_of_foldlM hdone)
        hpointers.of_append).mp h) (hfree done access rest rfl e)

theorem foldlM_recordField_eq_error (hpointers : p.NamesPointers entries) :
    entries.foldlM (p.recordField o) .empty = .error e ↔
      ∃ done access rest, entries = done ++ access :: rest ∧ p.Unobstructed o done ∧
        p.EntryFailure o done access e := by
  rw [foldlM_eq_error]
  constructor
  · rintro ⟨done, access, rest, c, rfl, hdone, h⟩
    have hfirst : p.NamesPointers done := fun a ha => hpointers a (List.mem_append_left _ ha)
    exact ⟨done, access, rest, rfl, (exists_foldlM_iff hfirst).mp ⟨c, hdone⟩,
      (recordField_eq_error (packedReflects_of_foldlM hdone) hpointers.of_append).mp h⟩
  · rintro ⟨done, access, rest, rfl, hfree, hfailure⟩
    have hfirst : p.NamesPointers done := fun a ha => hpointers a (List.mem_append_left _ ha)
    obtain ⟨c, hdone⟩ := (exists_foldlM_iff hfirst).mpr hfree
    exact ⟨done, access, rest, c, rfl, hdone,
      (recordField_eq_error (packedReflects_of_foldlM hdone) hpointers.of_append).mpr hfailure⟩

-- ---------------------------------------------------------------------------
-- Keys
-- ---------------------------------------------------------------------------

theorem mem_keys_of_judgeField {entry : Option StmtId}
    (h : p.judgeField o c container entry = .ok .agrees) : container ∈ c.keys := by
  unfold judgeField at h
  split at h
  · cases h
  · next hc => exact OrderedMap.mem_keys_of_get? hc
  · cases h

theorem keys_recordField {c' : AccessMap} (h : p.recordField o c access = .ok c') :
    c'.keys = (c.keys ++ (p.container? access.1).toList).eraseDups := by
  obtain ⟨container, hpacked, h⟩ := bind_ok.mp h
  rw [container?_of_packedInto hpacked]
  cases container with
  | none =>
    obtain rfl := Except.ok.inj h
    simp
  | some container =>
    obtain ⟨verdict, hverdict, h⟩ := bind_ok.mp h
    obtain rfl := Except.ok.inj h
    cases verdict with
    | opens => exact c.keys_insert _ _
    | disagrees r field => exact c.keys_insert _ _
    | settled => exact c.keys_insert _ _
    | agrees =>
      exact ((eraseDups_append_singleton_of_mem (mem_keys_of_judgeField hverdict)).trans
        c.eraseDups_keys).symm

theorem summarizes_of_foldlM (h : entries.foldlM (p.recordField o) .empty = .ok c) :
    c.Summarizes ((entries.map Prod.fst).filterMap p.container?)
      fun container r => p.Combines o (p.fieldsOf container entries) r := by
  have hstep : ∀ c access c', p.recordField o c access = .ok c' →
      c'.keys = (c.keys ++ ((p.container? ∘ Prod.fst) access).toList).eraseDups :=
    fun _ _ _ => keys_recordField
  have hkeys := OrderedMap.keys_foldlM hstep h
  rw [← List.filterMap_map] at hkeys
  exact AccessMap.summarizes_of_represented hkeys fun container r =>
    (packedReflects_of_foldlM h).eq_some_iff

-- ---------------------------------------------------------------------------
-- The containers of a task
-- ---------------------------------------------------------------------------

/-- Where the nodes of a task have a map, its containers have one exactly if no entry fails, and it
is the one that the definition gives. Otherwise the error is that of the first entry that fails. An
entry never fails by the number of its indices if its container is refuted already. -/
theorem packedContainers_folded (hm : p.uniquePointers o task = .ok m) :
    (∀ c, p.packedContainers o task = .ok c ↔ p.Unobstructed o m.entries ∧
      c.Summarizes (m.keys.filterMap p.container?) fun container r =>
        p.Combines o (p.fieldsOf container m.entries) r) ∧
    (∀ e, p.packedContainers o task = .error e ↔
      ∃ done access rest, m.entries = done ++ access :: rest ∧ p.Unobstructed o done ∧
        p.EntryFailure o done access e) ∧
    ∀ done node entry container, p.IsPackedInto node container →
      (∀ r, ¬ p.Combines o (p.fieldsOf container done) r) →
      ∀ e, ¬ p.EntryFailure o done (node, entry) e := by
  have hpointers := namesPointers_of_uniquePointers hm
  have hfold : p.packedContainers o task = m.entries.foldlM (p.recordField o) .empty := by
    simp only [packedContainers, hm]
    rfl
  rw [hfold]
  refine ⟨fun c => ⟨fun h => ?_, ?_⟩, fun e => foldlM_recordField_eq_error hpointers, ?_⟩
  · exact ⟨(exists_foldlM_iff hpointers).mp ⟨c, h⟩, summarizes_of_foldlM h⟩
  · rintro ⟨hfree, hc⟩
    obtain ⟨c', h⟩ := (exists_foldlM_iff hpointers).mpr hfree
    rw [hc.unique (summarizes_of_foldlM h), h]
  · intro done node entry container hpacked hnone e hfailure
    cases hfailure with
    | nodeMissing hnode =>
      obtain ⟨n, hn, _⟩ := isBitLevel_iff.mp hpacked.1
      cases hnode.symm.trans hn
    | orphan _ hcontainer => cases hcontainer.symm.trans hpacked.2
    | arityMismatch hpacked' hcurrent =>
      obtain rfl := Option.some.inj (hpacked'.2.symm.trans hpacked.2)
      exact hnone _ hcurrent

/-- A task over a range with pointers to the fields of two bit-structs, in turn. The first field of
one of them is at the same place in all iterations. In both, the fields have different numbers of
indices. -/
def clashingProgram : Program where
  version := currentVersion
  storage := ⟨#[
    { id := ⟨0⟩, kind := .root },
    { id := ⟨1⟩, kind := .bitStruct, parent := some ⟨0⟩ },
    { id := ⟨2⟩, kind := .place, parent := some ⟨1⟩, isBitLevel := true },
    { id := ⟨3⟩, kind := .place, parent := some ⟨1⟩, isBitLevel := true },
    { id := ⟨4⟩, kind := .bitStruct, parent := some ⟨0⟩ },
    { id := ⟨5⟩, kind := .place, parent := some ⟨4⟩, isBitLevel := true },
    { id := ⟨6⟩, kind := .place, parent := some ⟨4⟩, isBitLevel := true }]⟩
  stmts := #[
    .task .rangeFor none [⟨1⟩, ⟨2⟩, ⟨3⟩, ⟨4⟩, ⟨5⟩, ⟨6⟩],
    .loopIndex ⟨0⟩ 0,
    .const (.i32 7),
    .globalPtr [⟨2⟩] [⟨2⟩],
    .globalPtr [⟨5⟩] [⟨1⟩],
    .globalPtr [⟨3⟩] [⟨1⟩, ⟨1⟩],
    .globalPtr [⟨6⟩] [⟨1⟩, ⟨1⟩]]
  root := [⟨0⟩]

/-- The clash in the bit-struct that is refuted already passes unnoticed, the other one ends the
task. -/
theorem clashingFields_reported :
    ∃ m, clashingProgram.uniquePointers ⟨fun _ _ => true, fun _ _ => true⟩ ⟨0⟩ = .ok m ∧
      m = .ofList [(⟨2⟩, none), (⟨5⟩, some ⟨4⟩), (⟨3⟩, some ⟨5⟩), (⟨6⟩, some ⟨6⟩)] ∧
      clashingProgram.packedContainers ⟨fun _ _ => true, fun _ _ => true⟩ ⟨0⟩ =
        .error (.arityMismatch ⟨4⟩ ⟨4⟩ ⟨6⟩ 1 2) ∧
      ∃ done access rest, m.entries = done ++ access :: rest ∧
        clashingProgram.Unobstructed ⟨fun _ _ => true, fun _ _ => true⟩ done ∧
        clashingProgram.EntryFailure ⟨fun _ _ => true, fun _ _ => true⟩ done access
          (.arityMismatch ⟨4⟩ ⟨4⟩ ⟨6⟩ 1 2) := by
  have hpointers : clashingProgram.uniquePointers ⟨fun _ _ => true, fun _ _ => true⟩ ⟨0⟩ =
      .ok (.ofList [(⟨2⟩, none), (⟨5⟩, some ⟨4⟩), (⟨3⟩, some ⟨5⟩), (⟨6⟩, some ⟨6⟩)]) := by
    decide +kernel
  have herror : clashingProgram.packedContainers ⟨fun _ _ => true, fun _ _ => true⟩ ⟨0⟩ =
      .error (.arityMismatch ⟨4⟩ ⟨4⟩ ⟨6⟩ 1 2) := by decide +kernel
  exact ⟨_, hpointers, rfl, herror, ((packedContainers_folded hpointers).2.1 _).mp herror⟩

end UniqueAccess.Program
