import UniqueAccess.Access.Pointers
import UniqueAccess.Proofs.Access.Alias
import UniqueAccess.Proofs.Access.Comparison
import UniqueAccess.Proofs.Access.Standing
import UniqueAccess.Proofs.Access.Uniqueness

/-!
# The representatives of accessed nodes

The entry of a node is decided by the pointers that lead to it, in the order of the walk: the first
must have a unique address, and the oracle must find the address of every later one to be the same.
With the structural oracle all pointers into a node that has a representative therefore hold one
address within an iteration, and never the same address in two iterations.
-/

namespace UniqueAccess

namespace Program

variable {p : Program} {o : AliasOracle} {task : StmtId} {dimensions : Nat}

-- ---------------------------------------------------------------------------
-- Accesses
-- ---------------------------------------------------------------------------

/-- A pointer of a task, with its indices, that may lead to a node. -/
def LeadsTo (p : Program) (task : StmtId) (node : NodeId) (ptr : StmtId)
    (indices : List StmtId) : Prop :=
  ∃ candidates, (ptr, .globalPtr candidates indices) ∈ p.taskVisits task ∧ node ∈ candidates

theorem mem_accesses {ptr : StmtId} {node : NodeId} :
    (ptr, node) ∈ p.accesses task ↔ ∃ indices, p.LeadsTo task node ptr indices := by
  simp only [accesses, List.mem_flatMap, Prod.exists, LeadsTo]
  constructor
  · rintro ⟨id, s, hmem, haccess⟩
    split at haccess
    · next candidates indices =>
      obtain ⟨node', hnode, heq⟩ := List.mem_map.mp haccess
      obtain ⟨rfl, rfl⟩ := Prod.mk.inj heq
      exact ⟨indices, candidates, hmem, hnode⟩
    · simp at haccess
  · rintro ⟨indices, candidates, hmem, hnode⟩
    exact ⟨ptr, _, hmem, List.mem_map.mpr ⟨node, hnode, rfl⟩⟩

theorem stmt?_of_mem_taskVisits {id : StmtId} {s : Stmt} (h : (id, s) ∈ p.taskVisits task) :
    p.stmt? id = some s :=
  (mem_visits.mp h).2

def pointersTo (node : NodeId) (accesses : List (StmtId × NodeId)) : List StmtId :=
  (accesses.filter fun a => a.2 = node).map Prod.fst

theorem mem_pointersTo {node : NodeId} {accesses : List (StmtId × NodeId)} {ptr : StmtId} :
    ptr ∈ pointersTo node accesses ↔ (ptr, node) ∈ accesses := by
  simp [pointersTo]

theorem pointersTo_append_singleton (node : NodeId) (accesses : List (StmtId × NodeId))
    (ptr : StmtId) (node' : NodeId) :
    pointersTo node (accesses ++ [(ptr, node')]) =
      if node' = node then pointersTo node accesses ++ [ptr] else pointersTo node accesses := by
  by_cases h : node' = node <;> simp [pointersTo, h]

/-- A pointer, if its address is unique: what a first access makes the representative. -/
def claimant (p : Program) (task : StmtId) (dimensions : Nat) (ptr : StmtId) : Option StmtId :=
  match p.stmt? ptr with
  | some (.globalPtr _ indices) =>
    if isUniqueAddress (indices.map (p.loopFacts task).tag?) dimensions then some ptr else none
  | _ => none

theorem claimant_eq_some {ptr r : StmtId} (h : p.claimant task dimensions ptr = some r) :
    ptr = r ∧ ∃ candidates indices, p.stmt? r = some (.globalPtr candidates indices) ∧
      isUniqueAddress (indices.map (p.loopFacts task).tag?) dimensions := by
  unfold claimant at h
  split at h
  · next candidates indices hs =>
    split at h
    · next hunique =>
      obtain rfl := Option.some.inj h
      exact ⟨rfl, candidates, indices, hs, hunique⟩
    · cases h
  · cases h

theorem isUniquePtr_eq {ptr : StmtId} {candidates : List NodeId} {indices : List StmtId}
    (f : LoopFacts) (hs : p.stmt? ptr = some (.globalPtr candidates indices)) :
    p.isUniquePtr task f (some dimensions) ptr =
      .ok (isUniqueAddress (indices.map f.tag?) dimensions) := by
  simp only [isUniquePtr, requireIndices, requireStmt, hs]
  rfl

theorem recordAccess_ok (o : AliasOracle) (m : AccessMap) {ptr : StmtId} (node : NodeId)
    {candidates : List NodeId} {indices : List StmtId}
    (hs : p.stmt? ptr = some (.globalPtr candidates indices)) :
    ∃ m', p.recordAccess o task (p.loopFacts task) dimensions m (ptr, node) = .ok m' ∧
      m'.get? node =
        some (nextEntry (p.claimant task dimensions) o.sameAddress ptr (m.get? node)) ∧
      ∀ node', node' ≠ node → m'.get? node' = m.get? node' := by
  simp only [recordAccess, judge]
  cases hm : m.get? node with
  | none =>
    -- The first access decides by itself.
    simp only [isUniquePtr_eq _ hs, nextEntry, claimant, hs]
    by_cases hunique : isUniqueAddress (indices.map (p.loopFacts task).tag?) dimensions
    · refine ⟨m.insert node (some ptr), by simp only [hunique]; rfl, ?_, fun node' hne => ?_⟩
      · simp [hunique]
      · exact OrderedMap.get?_insert_of_ne m _ hne
    · refine ⟨m.insert node none, by simp only [hunique]; rfl, ?_, fun node' hne => ?_⟩
      · simp [hunique]
      · exact OrderedMap.get?_insert_of_ne m _ hne
  | some entry =>
    cases entry with
    | none => exact ⟨m, rfl, by simp [hm, nextEntry], fun _ _ => rfl⟩
    | some r =>
      by_cases hagrees : o.sameAddress r ptr
      · refine ⟨m, by simp only [hagrees]; rfl, ?_, fun _ _ => rfl⟩
        simp [hm, nextEntry, Option.filter, hagrees]
      · refine ⟨m.insert node none, by simp only [hagrees]; rfl, ?_, fun node' hne => ?_⟩
        · simp [nextEntry, Option.filter, hagrees]
        · exact OrderedMap.get?_insert_of_ne m _ hne

/-- The map after some accesses: every entry is decided by the pointers to its node. -/
def Reflects (p : Program) (o : AliasOracle) (task : StmtId) (dimensions : Nat) (m : AccessMap)
    (accesses : List (StmtId × NodeId)) : Prop :=
  ∀ node, m.get? node =
    entryOf (p.claimant task dimensions) o.sameAddress (pointersTo node accesses)

theorem Reflects.recordAccess {m : AccessMap} {done : List (StmtId × NodeId)}
    (hm : p.Reflects o task dimensions m done) {ptr : StmtId} (node : NodeId)
    {candidates : List NodeId} {indices : List StmtId}
    (hs : p.stmt? ptr = some (.globalPtr candidates indices)) :
    ∃ m', p.recordAccess o task (p.loopFacts task) dimensions m (ptr, node) = .ok m' ∧
      p.Reflects o task dimensions m' (done ++ [(ptr, node)]) := by
  obtain ⟨m', hok, hself, hother⟩ := recordAccess_ok o m node hs
  refine ⟨m', hok, fun node' => ?_⟩
  rw [pointersTo_append_singleton]
  by_cases hnode : node = node'
  · subst hnode
    rw [if_pos rfl, entryOf_append_singleton, hself, hm node]
  · rw [if_neg hnode, hother node' (Ne.symm hnode), hm node']

theorem Reflects.foldlM_recordAccess {m : AccessMap} {done : List (StmtId × NodeId)}
    (hm : p.Reflects o task dimensions m done) (todo : List (StmtId × NodeId))
    (htodo : ∀ a ∈ todo, ∃ candidates indices, p.stmt? a.1 = some (.globalPtr candidates indices)) :
    ∃ m', todo.foldlM (p.recordAccess o task (p.loopFacts task) dimensions) m = .ok m' ∧
      p.Reflects o task dimensions m' (done ++ todo) := by
  induction todo generalizing m done with
  | nil => exact ⟨m, rfl, by simpa using hm⟩
  | cons a rest ih =>
    obtain ⟨_, _, hs⟩ := htodo a List.mem_cons_self
    obtain ⟨m₁, hok, hm₁⟩ := hm.recordAccess a.2 hs
    obtain ⟨m', hok', hm'⟩ := ih hm₁ fun b hb => htodo b (List.mem_cons_of_mem _ hb)
    refine ⟨m', ?_, by simpa using hm'⟩
    rw [List.foldlM_cons, hok]
    exact hok'

theorem uniquePointers_ok (o : AliasOracle) (hdim : p.taskDimensions task = .ok dimensions) :
    ∃ m, p.uniquePointers o task = .ok m ∧
      p.Reflects o task dimensions m (p.accesses task) := by
  have hempty : p.Reflects o task dimensions .empty [] := fun _ => rfl
  obtain ⟨m, hok, hm⟩ := hempty.foldlM_recordAccess (p.accesses task) fun a ha => by
    obtain ⟨indices, candidates, hmem, _⟩ := mem_accesses.mp (ha : (a.1, a.2) ∈ p.accesses task)
    exact ⟨candidates, indices, stmt?_of_mem_taskVisits hmem⟩
  refine ⟨m, ?_, hm⟩
  simp only [uniquePointers, hdim]
  exact hok

-- ---------------------------------------------------------------------------
-- Representatives
-- ---------------------------------------------------------------------------

theorem Reflects.representative {m : AccessMap}
    (hm : p.Reflects o task dimensions m (p.accesses task)) {node : NodeId} {r : StmtId}
    (hr : m.get? node = some (some r)) :
    (∃ indices, p.LeadsTo task node r indices ∧
      isUniqueAddress (indices.map (p.loopFacts task).tag?) dimensions) ∧
      ∀ ptr indices, p.LeadsTo task node ptr indices → ptr = r ∨ o.sameAddress r ptr := by
  obtain ⟨first, later, hitems, hfirst, hlater⟩ := entryOf_eq_some.mp ((hm node).symm.trans hr)
  obtain ⟨rfl, candidates, indices, hs, hunique⟩ := claimant_eq_some hfirst
  have hmem : first ∈ pointersTo node (p.accesses task) := hitems ▸ List.mem_cons_self
  obtain ⟨indices', hleads⟩ := mem_accesses.mp (mem_pointersTo.mp hmem)
  constructor
  · obtain ⟨_, hmem', _⟩ := id hleads
    obtain ⟨_, rfl⟩ := Stmt.globalPtr.inj
      (Option.some.inj ((stmt?_of_mem_taskVisits hmem').symm.trans hs))
    exact ⟨indices', hleads, hunique⟩
  · intro ptr indices'' hptr
    have hptr' := mem_pointersTo.mpr (mem_accesses.mpr ⟨indices'', hptr⟩)
    rw [hitems] at hptr'
    rcases List.mem_cons.mp hptr' with rfl | hptr'
    · exact .inl rfl
    · exact .inr (hlater ptr hptr')

variable {ι ν : Type} {V : Valuation dimensions ι ν} {ops : Operators ν}

/-- Pointers to a node with a representative hold its address in every instance. -/
theorem Reflects.tuple_eq {m : AccessMap}
    (hm : p.Reflects p.structuralOracle task dimensions m (p.accesses task))
    (hV : V.Respects p task ops) {node : NodeId} {r ptr : StmtId} {x y : List StmtId}
    (hr : m.get? node = some (some r)) (hleads : p.LeadsTo task node r x)
    (hptr : p.LeadsTo task node ptr y) (i : ι) : V.tuple i y = V.tuple i x := by
  obtain ⟨_, hx, _⟩ := hleads
  obtain ⟨_, hy, _⟩ := id hptr
  have hx := stmt?_of_mem_taskVisits hx
  have hy := stmt?_of_mem_taskVisits hy
  rcases (hm.representative hr).2 ptr y hptr with rfl | hsame
  · obtain ⟨_, rfl⟩ := Stmt.globalPtr.inj (Option.some.inj (hx.symm.trans hy))
    rfl
  · exact (sameAddress_sound (hV.congruent i) hx hy hsame).symm

theorem tuple_ne (hp : p.isValid) (ht : task ∈ p.tasks)
    (hdim : p.taskDimensions task = .ok dimensions) (hV : V.Respects p task ops)
    {indices : List StmtId}
    (hunique : isUniqueAddress (indices.map (p.loopFacts task).tag?) dimensions) {i j : ι}
    (hij : V.iteration i ≠ V.iteration j) : V.tuple i indices ≠ V.tuple j indices := by
  obtain ⟨x, hx, hne⟩ := exists_value_ne (loopFacts_sound hp ht hdim hV.toSeparates) hunique hij
  exact fun heq => hne (List.map_inj_left.mp heq x hx)

/-- In a valid program, the pointers of a task that lead to a node with a representative hold one
address within an iteration, whichever of them is used, and never the same in two iterations. -/
theorem uniquePointers_sound (hp : p.isValid) (ht : task ∈ p.tasks) :
    ∃ dimensions m, p.taskDimensions task = .ok dimensions ∧
      p.uniquePointers p.structuralOracle task = .ok m ∧
      ∀ node r, m.get? node = some (some r) →
        (∃ z, p.LeadsTo task node r z) ∧
        ∀ {ι ν : Type} (V : Valuation dimensions ι ν) (ops : Operators ν), V.Respects p task ops →
          ∀ a b x y, p.LeadsTo task node a x → p.LeadsTo task node b y →
            (∀ i, V.tuple i x = V.tuple i y) ∧
            ∀ i j, V.iteration i ≠ V.iteration j → V.tuple i x ≠ V.tuple j y := by
  obtain ⟨dimensions, hdim⟩ := taskDimensions_of_mem_tasks hp ht
  obtain ⟨m, hok, hm⟩ := uniquePointers_ok p.structuralOracle hdim
  refine ⟨dimensions, m, hdim, hok, fun node r hr => ?_⟩
  obtain ⟨⟨z, hz, hunique⟩, _⟩ := hm.representative hr
  refine ⟨⟨z, hz⟩, fun V ops hV a b x y ha hb => ⟨fun i => ?_, fun i j hij => ?_⟩⟩
  · rw [hm.tuple_eq hV hr hz ha i, hm.tuple_eq hV hr hz hb i]
  · rw [hm.tuple_eq hV hr hz ha i, hm.tuple_eq hV hr hz hb j]
    exact tuple_ne hp ht hdim hV hunique hij

-- ---------------------------------------------------------------------------
-- Neighbors in a bit-struct
-- ---------------------------------------------------------------------------

/-- A task over a range that reads two fields of a bit-struct at `i + 1`, one of them twice. -/
def neighborProgram : Program where
  version := currentVersion
  storage := ⟨#[
    { id := ⟨0⟩, kind := .root },
    { id := ⟨1⟩, kind := .bitStruct, parent := some ⟨0⟩ },
    { id := ⟨2⟩, kind := .place, parent := some ⟨1⟩, isBitLevel := true },
    { id := ⟨3⟩, kind := .place, parent := some ⟨1⟩, isBitLevel := true }]⟩
  stmts := #[
    .task .rangeFor none [⟨1⟩, ⟨2⟩, ⟨3⟩, ⟨4⟩, ⟨5⟩, ⟨6⟩, ⟨7⟩],
    .loopIndex ⟨0⟩ 0,
    .const (.i32 1),
    .binary .add ⟨1⟩ ⟨2⟩,
    .binary .add ⟨2⟩ ⟨1⟩,
    .globalPtr [⟨2⟩] [⟨3⟩],
    .globalPtr [⟨2⟩] [⟨4⟩],
    .globalPtr [⟨3⟩] [⟨4⟩]]
  root := [⟨0⟩]

def parity : Operators Bool where
  unary _ x := x
  binary _ x y := x ^^ y

theorem parity_injective : parity.Injective where
  neg _ _ h := h
  left _ _ _ _ h := Bool.xor_left_inj.mp h
  right _ _ _ _ h := Bool.xor_right_inj.mp h

/-- The iterations 0 and 1 of `neighborProgram`, and its values modulo two. -/
def neighborValuation : Valuation 1 Bool Bool where
  iteration i _ := i
  value i a := [false, i, true, !i, !i].getD a.index false

theorem neighborValuation_computes (i : Bool) :
    Computes neighborProgram parity (neighborValuation.value i) where
  unary h := by simpa [neighborProgram] using mem_zipIdx_of_stmt? h
  binary h := by
    have hmem := mem_zipIdx_of_stmt? h
    simp only [neighborProgram, List.zipIdx_cons, List.zipIdx_nil, List.mem_cons, Prod.mk.injEq,
      Stmt.binary.injEq, reduceCtorEq, false_and, false_or, List.not_mem_nil, or_false] at hmem
    rcases hmem with ⟨⟨rfl, rfl, rfl⟩, ha⟩ | ⟨⟨rfl, rfl, rfl⟩, ha⟩
    · simp only [neighborValuation, ha]
      cases i <;> rfl
    · simp only [neighborValuation, ha]
      cases i <;> rfl

theorem index_of_const {a : StmtId} {v : Constant}
    (h : neighborProgram.stmt? a = some (.const v)) : a.index = 2 := by
  have hmem := mem_zipIdx_of_stmt? h
  simp [neighborProgram] at hmem
  exact hmem.2

theorem index_of_loopIndex {a owner : StmtId} {k : UInt64}
    (h : neighborProgram.stmt? a = some (.loopIndex owner k)) : a.index = 1 := by
  have hmem := mem_zipIdx_of_stmt? h
  simp [neighborProgram] at hmem
  exact hmem.2

theorem not_loopUnique {a x : StmtId} : neighborProgram.stmt? a ≠ some (.loopUnique x) :=
  fun h => by simpa [neighborProgram] using mem_zipIdx_of_stmt? h

theorem neighborValuation_respects :
    neighborValuation.Respects neighborProgram ⟨0⟩ parity where
  computes := neighborValuation_computes
  injective := parity_injective
  const h _ _ := by simp [neighborValuation, index_of_const h]
  loopIndex h _ _ := by simp [neighborValuation, index_of_loopIndex h]
  loopUnique h := absurd h not_loopUnique
  congruent i := {
    toComputes := neighborValuation_computes i
    symmetric := fun _ _ => Bool.xor_comm
    const := fun h h' _ => by simp [neighborValuation, index_of_const h, index_of_const h']
    loopIndex := fun h h' => by simp [neighborValuation, index_of_loopIndex h, index_of_loopIndex h']
    loopUnique := fun h => absurd h not_loopUnique }

theorem neighborProgram_isValid : neighborProgram.isValid :=
  isValid_iff.mpr ⟨by decide, [⟨0⟩, ⟨1⟩, ⟨2⟩, ⟨3⟩, ⟨4⟩, ⟨5⟩, ⟨6⟩, ⟨7⟩],
    trail?_eq_some.mp (by decide +kernel), by decide, by decide⟩

theorem neighborProgram_uniquePointers :
    neighborProgram.uniquePointers neighborProgram.structuralOracle ⟨0⟩ =
      .ok (.ofList [(⟨2⟩, some ⟨5⟩), (⟨3⟩, some ⟨7⟩)]) := by
  decide +kernel

theorem neighborPointers_distinct : ∃ m,
    neighborProgram.uniquePointers neighborProgram.structuralOracle ⟨0⟩ = .ok m ∧
      m.get? ⟨2⟩ = some (some ⟨5⟩) ∧
      (∀ i, neighborValuation.tuple i [⟨3⟩] = neighborValuation.tuple i [⟨4⟩]) ∧
      ∀ i j, neighborValuation.iteration i ≠ neighborValuation.iteration j →
        neighborValuation.tuple i [⟨3⟩] ≠ neighborValuation.tuple j [⟨4⟩] := by
  have htask : (⟨0⟩ : StmtId) ∈ neighborProgram.tasks := by decide +kernel
  obtain ⟨dimensions, m, hdim, hok, hsound⟩ := uniquePointers_sound neighborProgram_isValid htask
  obtain rfl : 1 = dimensions := Except.ok.inj hdim
  obtain rfl := Except.ok.inj (neighborProgram_uniquePointers.symm.trans hok)
  have hfive : neighborProgram.LeadsTo ⟨0⟩ ⟨2⟩ ⟨5⟩ [⟨3⟩] := ⟨[⟨2⟩], by decide +kernel, by decide⟩
  have hsix : neighborProgram.LeadsTo ⟨0⟩ ⟨2⟩ ⟨6⟩ [⟨4⟩] := ⟨[⟨2⟩], by decide +kernel, by decide⟩
  exact ⟨_, hok, rfl,
    (hsound ⟨2⟩ ⟨5⟩ rfl).2 _ _ neighborValuation_respects ⟨5⟩ ⟨6⟩ [⟨3⟩] [⟨4⟩] hfive hsix⟩

end Program

end UniqueAccess
