import UniqueAccess.Proofs.Access.Failure

/-!
# What is gathered

The map of a task is built entry by entry while the walk goes on. It can be said at once what is in
it (`uniquePointers_eq_ok_iff`): a node stands where it first occurs among the candidates of the
pointers, and its entry is the pointer of that occurrence, unless the address is not unique or the
oracle does not find it to be that of every later occurrence. Nothing is asked of the oracle: it may
find that a pointer does not have its own address.
-/

namespace UniqueAccess

-- ---------------------------------------------------------------------------
-- Maps of representatives
-- ---------------------------------------------------------------------------

namespace AccessMap

/-- The entries of some nodes, in the order in which the nodes first occur: its representative for a
node that has one, and nothing for the others. -/
structure Summarizes (m : AccessMap) (nodes : List NodeId) (represents : NodeId → StmtId → Prop) :
    Prop where
  keys : m.keys = nodes.eraseDups
  represented : ∀ node r, m.get? node = some (some r) ↔ represents node r
  refuted : ∀ node ∈ nodes, (∀ r, ¬ represents node r) → m.get? node = some none

variable {m n : AccessMap} {nodes : List NodeId} {represents : NodeId → StmtId → Prop}

theorem summarizes_of_represented (hkeys : m.keys = nodes.eraseDups)
    (hrepresented : ∀ node r, m.get? node = some (some r) ↔ represents node r) :
    m.Summarizes nodes represents := by
  refine ⟨hkeys, hrepresented, fun node hnode hnone => ?_⟩
  have hkey : node ∈ m.keys := by rwa [hkeys, List.mem_eraseDups]
  obtain ⟨entry, hentry⟩ := OrderedMap.mem_keys_iff.mp hkey
  cases entry with
  | none => exact hentry
  | some r => exact absurd ((hrepresented node r).mp hentry) (hnone r)

theorem Summarizes.unique (hm : m.Summarizes nodes represents)
    (hn : n.Summarizes nodes represents) : m = n := by
  have hkeys : m.keys = n.keys := hm.keys.trans hn.keys.symm
  refine OrderedMap.ext_get? hkeys fun node => Option.ext fun entry => ?_
  cases entry with
  | some r => rw [hm.represented, hn.represented]
  | none =>
    -- A key without a representative in one map has none in the other.
    have hnone : ∀ {m n : AccessMap}, m.Summarizes nodes represents →
        n.Summarizes nodes represents → m.get? node = some none → n.get? node = some none := by
      intro m n hm hn hentry
      refine hn.refuted node ?_ fun r hr => ?_
      · have hkey := OrderedMap.mem_keys_of_get? hentry
        rwa [hm.keys, List.mem_eraseDups] at hkey
      · cases hentry.symm.trans ((hm.represented node r).mpr hr)
    exact ⟨hnone hm hn, hnone hn hm⟩

end AccessMap

namespace Program

variable {p : Program} {o : AliasOracle} {task : StmtId} {dimensions : Nat} {m : AccessMap}

-- ---------------------------------------------------------------------------
-- Occurrences
-- ---------------------------------------------------------------------------

def candidates (p : Program) (ptr : StmtId) : List NodeId :=
  match p.stmt? ptr with
  | some (.globalPtr candidates _) => candidates
  | _ => []

def occurrences (p : Program) (l : List StmtId) : List (StmtId × NodeId) :=
  l.flatMap fun ptr => (p.candidates ptr).map (ptr, ·)

theorem accesses_eq_occurrences {l : List StmtId}
    (hl : p.Walked .taskLocal (p.taskBody task) l) : p.accesses task = p.occurrences l := by
  rw [accesses, taskVisits, visits, hl.trail_eq]
  clear hl
  induction l with
  | nil => rfl
  | cons ptr rest ih =>
    rw [occurrences, List.flatMap_cons, ← occurrences, ← ih, candidates, List.filterMap_cons, visit?]
    cases hs : p.stmt? ptr with
    | none => rfl
    | some s => cases s <;> rfl

theorem pointersTo_eq_cons {node : NodeId} {l : List (StmtId × NodeId)} {r : StmtId}
    {later : List StmtId} :
    pointersTo node l = r :: later ↔
      ∃ before after, l = before ++ (r, node) :: after ∧ node ∉ before.map Prod.snd ∧
        pointersTo node after = later := by
  simp only [pointersTo, List.map_eq_cons_iff, List.filter_eq_cons_iff]
  constructor
  · rintro ⟨⟨r', node'⟩, _, ⟨before, after, rfl, hbefore, hnode, rfl⟩, rfl, rfl⟩
    obtain rfl : node' = node := of_decide_eq_true hnode
    refine ⟨before, after, rfl, fun hmem => ?_, rfl⟩
    obtain ⟨a, ha, rfl⟩ := List.mem_map.mp hmem
    exact hbefore a ha (decide_eq_true rfl)
  · rintro ⟨before, after, rfl, hbefore, rfl⟩
    refine ⟨(r, node), _, ⟨before, after, rfl, fun a ha hnode => ?_, decide_eq_true rfl, rfl⟩,
      rfl, rfl⟩
    exact hbefore (List.mem_map.mpr ⟨a, ha, of_decide_eq_true hnode⟩)

/-- The node first occurs in `r`, whose address is unique, and the oracle finds the address of `r`
to be the same as that of every later occurrence. -/
def Represents (p : Program) (o : AliasOracle) (task : StmtId) (dimensions : Nat)
    (occurrences : List (StmtId × NodeId)) (node : NodeId) (r : StmtId) : Prop :=
  ∃ before after, occurrences = before ++ (r, node) :: after ∧ node ∉ before.map Prod.snd ∧
    p.isUniquePtr task (p.loopFacts task) (some dimensions) r = .ok true ∧
    ∀ ptr, (ptr, node) ∈ after → o.sameAddress r ptr

theorem claimant_eq_some_iff {ptr r : StmtId} :
    p.claimant task dimensions ptr = some r ↔
      ptr = r ∧ p.isUniquePtr task (p.loopFacts task) (some dimensions) ptr = .ok true := by
  constructor
  · intro h
    obtain ⟨rfl, candidates, indices, hs, hunique⟩ := claimant_eq_some h
    exact ⟨rfl, by rw [isUniquePtr_eq _ hs, hunique]⟩
  · rintro ⟨rfl, h⟩
    obtain ⟨indices, hindices, h⟩ := bind_ok.mp h
    obtain ⟨s, hs, hptr⟩ := Option.bind_eq_some_iff.mp (requireIndices_eq_ok.mp hindices)
    cases s with
    | globalPtr candidates indices' =>
      obtain rfl := Option.some.inj hptr
      simp only [claimant, hs]
      exact if_pos (Except.ok.inj h)
    | _ => cases hptr

theorem entryOf_eq_some_iff {node : NodeId} {l : List (StmtId × NodeId)} {r : StmtId} :
    entryOf (p.claimant task dimensions) o.sameAddress (pointersTo node l) = some (some r) ↔
      p.Represents o task dimensions l node r := by
  rw [entryOf_eq_some]
  constructor
  · rintro ⟨first, later, hitems, hfirst, hlater⟩
    obtain ⟨rfl, hunique⟩ := claimant_eq_some_iff.mp hfirst
    obtain ⟨before, after, hl, hbefore, rfl⟩ := pointersTo_eq_cons.mp hitems
    exact ⟨before, after, hl, hbefore, hunique, fun ptr hptr => hlater ptr (mem_pointersTo.mpr hptr)⟩
  · rintro ⟨before, after, hl, hbefore, hunique, hlater⟩
    exact ⟨r, _, pointersTo_eq_cons.mpr ⟨before, after, hl, hbefore, rfl⟩,
      claimant_eq_some_iff.mpr ⟨rfl, hunique⟩, fun ptr hptr => hlater ptr (mem_pointersTo.mp hptr)⟩

-- ---------------------------------------------------------------------------
-- Keys
-- ---------------------------------------------------------------------------

theorem mem_keys_of_judge {f : LoopFacts} {ptr : StmtId} {node : NodeId} {verdict : AccessVerdict}
    (h : p.judge o task f dimensions m ptr node = .ok verdict)
    (hverdict : verdict = .agrees ∨ verdict = .settled) : node ∈ m.keys := by
  unfold judge at h
  split at h
  · obtain ⟨unique, _, h⟩ := bind_ok.mp h
    cases unique <;> (obtain rfl := Except.ok.inj h; simp at hverdict)
  · next hm => exact OrderedMap.mem_keys_of_get? hm
  · next hm => exact OrderedMap.mem_keys_of_get? hm

theorem keys_recordAccess {f : LoopFacts} {a : StmtId × NodeId} {m' : AccessMap}
    (h : p.recordAccess o task f dimensions m a = .ok m') :
    m'.keys = (m.keys ++ [a.2]).eraseDups := by
  obtain ⟨verdict, hverdict, h⟩ := bind_ok.mp h
  obtain rfl := Except.ok.inj h
  have hknown := mem_keys_of_judge hverdict
  cases verdict with
  | claims => exact m.keys_insert _ _
  | notUnique => exact m.keys_insert _ _
  | disagrees r => exact m.keys_insert _ _
  | agrees => rw [eraseDups_append_singleton_of_mem (hknown (.inl rfl)), m.eraseDups_keys]; rfl
  | settled => rw [eraseDups_append_singleton_of_mem (hknown (.inr rfl)), m.eraseDups_keys]; rfl

theorem keys_uniquePointers (h : p.uniquePointers o task = .ok m) :
    m.keys = ((p.accesses task).map Prod.snd).eraseDups := by
  obtain ⟨dimensions, _, h⟩ := bind_ok.mp h
  have hkeys : m.keys = (OrderedMap.empty.keys ++
      (p.accesses task).filterMap (some ∘ Prod.snd)).eraseDups :=
    OrderedMap.keys_foldlM (fun _ _ _ => keys_recordAccess) h
  rw [hkeys, List.filterMap_eq_map]
  rfl

-- ---------------------------------------------------------------------------
-- The map of a task
-- ---------------------------------------------------------------------------

theorem uniquePointers_summarizes {l : List StmtId} (o : AliasOracle)
    (hl : p.Walked .taskLocal (p.taskBody task) l) (hdim : p.taskDimensions task = .ok dimensions) :
    ∃ m, p.uniquePointers o task = .ok m ∧
      m.Summarizes ((p.occurrences l).map Prod.snd)
        (p.Represents o task dimensions (p.occurrences l)) := by
  obtain ⟨m, hok, hm⟩ := uniquePointers_ok o hdim
  have hkeys := keys_uniquePointers hok
  rw [accesses_eq_occurrences hl] at hkeys hm
  refine ⟨m, hok, AccessMap.summarizes_of_represented hkeys fun node r => ?_⟩
  rw [hm node, entryOf_eq_some_iff]

/-- If the walk through a task ends, the map of the task is the one that has all its candidates in
the order of their first occurrence, with the representatives that the definition gives. -/
theorem uniquePointers_eq_ok_iff {l : List StmtId} (hl : p.Walked .taskLocal (p.taskBody task) l) :
    p.uniquePointers o task = .ok m ↔
      ∃ dimensions, p.taskDimensions task = .ok dimensions ∧
        m.Summarizes ((p.occurrences l).map Prod.snd)
          (p.Represents o task dimensions (p.occurrences l)) := by
  constructor
  · intro h
    obtain ⟨dimensions, hdim, _⟩ := bind_ok.mp h
    obtain ⟨m', hok, hm'⟩ := uniquePointers_summarizes o hl hdim
    obtain rfl : m = m' := Except.ok.inj (h.symm.trans hok)
    exact ⟨dimensions, hdim, hm'⟩
  · rintro ⟨dimensions, hdim, hm⟩
    obtain ⟨m', hok, hm'⟩ := uniquePointers_summarizes o hl hdim
    rw [hm.unique hm', hok]

/-- A task over a range with pointers of several candidates: one of them is named twice by its
pointer, and the last pointer has the same address in all iterations. -/
def manyNodesProgram : Program where
  version := currentVersion
  storage := ⟨#[
    { id := ⟨0⟩, kind := .root },
    { id := ⟨1⟩, kind := .place, parent := some ⟨0⟩ },
    { id := ⟨2⟩, kind := .place, parent := some ⟨0⟩ },
    { id := ⟨3⟩, kind := .place, parent := some ⟨0⟩ }]⟩
  stmts := #[
    .task .rangeFor none [⟨1⟩, ⟨2⟩, ⟨3⟩, ⟨4⟩, ⟨5⟩],
    .loopIndex ⟨0⟩ 0,
    .globalPtr [⟨2⟩, ⟨1⟩, ⟨2⟩] [⟨1⟩],
    .globalPtr [⟨1⟩] [⟨1⟩],
    .const (.i32 7),
    .globalPtr [⟨3⟩, ⟨1⟩] [⟨4⟩]]
  root := [⟨0⟩]

/-- An oracle that never finds a pointer to have its own address. -/
def laterOracle : AliasOracle where
  sameAddress a b := a.index < b.index
  sameValue a b := a.index < b.index

/-- The repeated candidate is refuted by its own pointer, the one that all pointers share is not. -/
theorem manyNodes_gathered :
    manyNodesProgram.Walked .taskLocal (manyNodesProgram.taskBody ⟨0⟩)
        [⟨1⟩, ⟨2⟩, ⟨3⟩, ⟨4⟩, ⟨5⟩] ∧
      manyNodesProgram.uniquePointers laterOracle ⟨0⟩ =
        .ok (.ofList [(⟨2⟩, none), (⟨1⟩, some ⟨2⟩), (⟨3⟩, none)]) ∧
      ∃ dimensions occurrences, occurrences =
          [(⟨2⟩, ⟨2⟩), (⟨2⟩, ⟨1⟩), (⟨2⟩, ⟨2⟩), (⟨3⟩, ⟨1⟩), (⟨5⟩, ⟨3⟩), (⟨5⟩, ⟨1⟩)] ∧
        manyNodesProgram.Represents laterOracle ⟨0⟩ dimensions occurrences ⟨1⟩ ⟨2⟩ ∧
        (∀ r, ¬ manyNodesProgram.Represents laterOracle ⟨0⟩ dimensions occurrences ⟨2⟩ r) ∧
        ∀ r, ¬ manyNodesProgram.Represents laterOracle ⟨0⟩ dimensions occurrences ⟨3⟩ r := by
  have hwalk : manyNodesProgram.Walked .taskLocal (manyNodesProgram.taskBody ⟨0⟩)
      [⟨1⟩, ⟨2⟩, ⟨3⟩, ⟨4⟩, ⟨5⟩] := trail?_eq_some.mp (by decide +kernel)
  have hpointers : manyNodesProgram.uniquePointers laterOracle ⟨0⟩ =
      .ok (.ofList [(⟨2⟩, none), (⟨1⟩, some ⟨2⟩), (⟨3⟩, none)]) := by decide +kernel
  obtain ⟨dimensions, _, hm⟩ := (uniquePointers_eq_ok_iff hwalk).mp hpointers
  refine ⟨hwalk, hpointers, dimensions, _, rfl, (hm.represented ⟨1⟩ ⟨2⟩).mp rfl, ?_, ?_⟩
  · exact fun r hr => nomatch (hm.represented ⟨2⟩ r).mpr hr
  · exact fun r hr => nomatch (hm.represented ⟨3⟩ r).mpr hr

end Program

end UniqueAccess
