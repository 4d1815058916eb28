import UniqueAccess.Proofs.Access.Queries
import UniqueAccess.Proofs.Access.Equality
import UniqueAccess.Proofs.Program.Bare

/-!
# What the analyses of a task look at

The analyses of a task look at the storage tree, at the task, at what its walk meets and at the
operands of that, their operands and so on. Two programs that agree there have the same results for
the task, errors included. Tasks inside the task are met, but their bodies are not looked at.
-/

namespace UniqueAccess

-- ---------------------------------------------------------------------------
-- Statements without their blocks
-- ---------------------------------------------------------------------------

theorem LoopFacts.visit_bare (task : StmtId) (f : LoopFacts) (id : StmtId) (s : Stmt) :
    f.visit task id s.bare = f.visit task id s := by
  cases s <;> rfl

theorem LoopFacts.visitAll_bare (task : StmtId) (f : LoopFacts) (visits : List (StmtId × Stmt)) :
    f.visitAll task (visits.map fun v => (v.1, v.2.bare)) = f.visitAll task visits := by
  simp only [visitAll, List.foldl_map, visit_bare]

theorem flatMap_eq_of_map_bare {α : Type} {visits visits' : List (StmtId × Stmt)}
    (h : visits'.map (fun v => (v.1, v.2.bare)) = visits.map fun v => (v.1, v.2.bare))
    (f : StmtId × Stmt → List α) (hf : ∀ id s, f (id, s.bare) = f (id, s)) :
    visits'.flatMap f = visits.flatMap f := by
  have hbare : ∀ l : List (StmtId × Stmt),
      l.flatMap f = (l.map fun v => (v.1, v.2.bare)).flatMap f := fun l => by
    rw [List.flatMap_map]
    exact List.flatMap_congr fun v _ => (hf v.1 v.2).symm
  rw [hbare, h, ← hbare]

namespace Program

variable {p q : Program} {task a b id : StmtId}

theorem sameForm?_congr {same same' : StmtId → StmtId → Option Bool} {s t : Stmt}
    (h : ∀ x ∈ s.operands, ∀ y ∈ t.operands, same' x y = same x y) :
    sameForm? same' s t = sameForm? same s t := by
  unfold sameForm?
  split
  · rfl
  · rw [h _ (by simp [Stmt.operands]) _ (by simp [Stmt.operands])]
  · next l r op' l' r' =>
    simp only [Stmt.operands, List.forall_mem_cons] at h
    obtain ⟨⟨hll, hlr, _⟩, ⟨hrl, hrr, _⟩, _⟩ := h
    rw [hll, hlr, hrl, hrr]
  · rfl
  · rw [h _ (by simp [Stmt.operands]) _ (by simp [Stmt.operands])]
  · rfl

-- ---------------------------------------------------------------------------
-- Two programs with one task
-- ---------------------------------------------------------------------------

/-- Both tables have the same under a name, or tasks that differ in their bodies alone. -/
inductive AlikeAt (p q : Program) (id : StmtId) : Prop
  | same : q.stmt? id = p.stmt? id → AlikeAt p q id
  | task {kind : TaskKind} {container : Option NodeId} {body body' : Block} :
      p.stmt? id = some (.task kind container body) →
      q.stmt? id = some (.task kind container body') → AlikeAt p q id

/-- What the walk through a task meets concerns the task, and so does what such a statement reads. -/
inductive Concerns (p : Program) (task : StmtId) : StmtId → Prop
  | met {id : StmtId} : p.Meets .taskLocal (p.taskBody task) id → Concerns p task id
  | operand {user operand : StmtId} : Concerns p task user → p.Reads user operand →
      Concerns p task operand

structure SharesTask (p q : Program) (task : StmtId) : Prop where
  storage : q.storage = p.storage
  self : q.stmt? task = p.stmt? task
  alike : ∀ id, p.Concerns task id → p.AlikeAt q id

namespace AlikeAt

variable (h : p.AlikeAt q id)
include h

theorem bare : (q.stmt? id).map Stmt.bare = (p.stmt? id).map Stmt.bare := by
  cases h with
  | same h => rw [h]
  | task hp hq =>
    rw [hp, hq]
    rfl

theorem nested : (q.stmt? id).map (nested .taskLocal) = (p.stmt? id).map (nested .taskLocal) := by
  cases h with
  | same h => rw [h]
  | task hp hq =>
    rw [hp, hq]
    rfl

theorem requireIndices : q.requireIndices id = p.requireIndices id := by
  cases h with
  | same h => simp only [Program.requireIndices, requireStmt, h]
  | task hp hq =>
    simp only [Program.requireIndices, requireStmt, hp, hq]
    rfl

end AlikeAt

-- ---------------------------------------------------------------------------
-- What concerns a task
-- ---------------------------------------------------------------------------

theorem concerns_of_mem_accesses {ptr : StmtId} {node : NodeId}
    (h : (ptr, node) ∈ p.accesses task) : p.Concerns task ptr := by
  obtain ⟨indices, candidates, hvisit, _⟩ := mem_accesses.mp h
  exact .met (meets_of_mem_trail (mem_visits.mp hvisit).1)

/-- What concerns a task is in every list that has all that its walk meets, and the operands of all
that it has. -/
theorem Concerns.mem {l trail : List StmtId} (hid : p.Concerns task id)
    (hwalk : p.Walked .taskLocal (p.taskBody task) trail) (hmet : ∀ id ∈ trail, id ∈ l)
    (hclosed : ∀ id ∈ l, ∀ x ∈ ((p.stmt? id).map Stmt.operands).getD [], x ∈ l) : id ∈ l := by
  induction hid with
  | met h => exact hmet _ (hwalk.meets_iff.mp h)
  | @operand user x _ h ih =>
    obtain ⟨s, hs, hx⟩ := h
    exact hclosed user ih x (by simpa [hs] using hx)

theorem Concerns.of_mem_operands (ha : p.Concerns task a) {s : Stmt}
    (hs : (p.stmt? a).map Stmt.bare = some s) {x : StmtId} (hx : x ∈ s.operands) :
    p.Concerns task x := by
  obtain ⟨t, ht, rfl⟩ := Option.map_eq_some_iff.mp hs
  exact ha.operand ⟨t, ht, by simpa using hx⟩

theorem Concerns.indices (ha : p.Concerns task a) {indices : List StmtId}
    (h : p.requireIndices a = .ok indices) : ∀ i ∈ indices, p.Concerns task i := by
  obtain ⟨s, hs, hindices⟩ := Option.bind_eq_some_iff.mp (requireIndices_eq_ok.mp h)
  intro i hi
  refine ha.operand ⟨s, hs, ?_⟩
  cases s with
  | globalPtr candidates indices' =>
    obtain rfl := Option.some.inj hindices
    exact hi
  | _ => cases hindices

theorem Reflects.mem_of_representative {o : AliasOracle} {dimensions : Nat} {m : AccessMap}
    {accesses : List (StmtId × NodeId)} (hm : p.Reflects o task dimensions m accesses)
    {node : NodeId} {r : StmtId} (hr : m.get? node = some (some r)) : (r, node) ∈ accesses := by
  obtain ⟨first, later, hitems, hfirst, _⟩ := entryOf_eq_some.mp ((hm node).symm.trans hr)
  obtain ⟨rfl, _⟩ := claimant_eq_some hfirst
  exact mem_pointersTo.mp (hitems ▸ List.mem_cons_self)

theorem mem_of_foldlM_recordAccess {o : AliasOracle} {dimensions : Nat} {m : AccessMap}
    {done : List (StmtId × NodeId)} (hdone : ∀ access ∈ done, access ∈ p.accesses task)
    (hm : done.foldlM (p.recordAccess o task (p.loopFacts task) dimensions) .empty = .ok m)
    {node : NodeId} {r : StmtId} (hr : m.get? node = some (some r)) : (r, node) ∈ done := by
  have hempty : p.Reflects o task dimensions .empty [] := fun _ => rfl
  obtain ⟨m', hm', hreflects⟩ := hempty.foldlM_recordAccess done fun access hmem => by
    obtain ⟨indices, candidates, hvisit, _⟩ := mem_accesses.mp (hdone access hmem)
    exact ⟨candidates, indices, stmt?_of_mem_taskVisits hvisit⟩
  obtain rfl := Except.ok.inj (hm.symm.trans hm')
  exact hreflects.mem_of_representative hr

theorem concerns_of_mem_entries {o : AliasOracle} {m : AccessMap}
    (h : p.uniquePointers o task = .ok m) {node : NodeId} {r : StmtId}
    (hr : (node, some r) ∈ m.entries) : p.Concerns task r := by
  obtain ⟨dimensions, _, hfold⟩ := bind_ok.mp h
  exact concerns_of_mem_accesses
    (mem_of_foldlM_recordAccess (fun _ hmem => hmem) hfold ((m.mem_entries_iff node _).mp hr))

namespace SharesTask

variable (h : p.SharesTask q task)
include h

theorem taskBody : q.taskBody task = p.taskBody task := by
  simp only [Program.taskBody, h.self]

theorem taskDimensions : q.taskDimensions task = p.taskDimensions task := by
  simp only [Program.taskDimensions, requireStmt, requireNode, h.self, h.storage]

theorem packedInto (node : NodeId) : q.packedInto node = p.packedInto node := by
  simp only [Program.packedInto, requireNode, h.storage]

-- ---------------------------------------------------------------------------
-- Walks
-- ---------------------------------------------------------------------------

theorem trail? :
    q.trail? .taskLocal (q.taskBody task) = p.trail? .taskLocal (p.taskBody task) := by
  rw [h.taskBody]
  exact trail?_congr fun id hid => (h.alike id (.met hid)).nested

theorem taskVisits : (q.taskVisits task).map (fun v => (v.1, v.2.bare)) =
    (p.taskVisits task).map fun v => (v.1, v.2.bare) := by
  have htrail : q.trail .taskLocal (q.taskBody task) = p.trail .taskLocal (p.taskBody task) := by
    simp only [trail, h.trail?]
  simp only [Program.taskVisits, visits, List.map_filterMap, htrail]
  refine List.filterMap_congr fun id hid => ?_
  have hbare := (h.alike id (.met (meets_of_mem_trail hid))).bare
  have hvisit : ∀ r : Program, (r.visit? id).map (fun v => (v.1, v.2.bare)) =
      ((r.stmt? id).map Stmt.bare).map (id, ·) := fun r => by
    simp only [visit?, Option.map_map]
    rfl
  rw [hvisit, hvisit, hbare]

theorem loopFacts : q.loopFacts task = p.loopFacts task := by
  rw [Program.loopFacts, ← LoopFacts.visitAll_bare, h.taskVisits, LoopFacts.visitAll_bare,
    Program.loopFacts]

theorem accesses : q.accesses task = p.accesses task :=
  flatMap_eq_of_map_bare h.taskVisits _ fun _ s => by cases s <;> rfl

-- ---------------------------------------------------------------------------
-- Comparisons
-- ---------------------------------------------------------------------------

theorem compare? {same same' : StmtId → StmtId → Option Bool} (ha : p.Concerns task a)
    (hb : p.Concerns task b)
    (hsame : ∀ x y, p.Concerns task x → p.Concerns task y → same' x y = same x y) :
    q.compare? same' a b = p.compare? same a b := by
  rw [← compare?_bare, ← compare?_bare (p := p)]
  simp only [Program.compare?, stmt?_bare, (h.alike a ha).bare, (h.alike b hb).bare]
  split
  · rfl
  · split
    · next s t hs ht =>
      exact sameForm?_congr fun x hx y hy =>
        hsame x y (ha.of_mem_operands hs hx) (hb.of_mem_operands ht hy)
    · rfl

theorem sameValueWithin? (n : Nat) (ha : p.Concerns task a) (hb : p.Concerns task b) :
    q.sameValueWithin? n a b = p.sameValueWithin? n a b := by
  induction n generalizing a b with
  | zero => rfl
  | succ n ih => exact h.compare? ha hb fun x y hx hy => ih hx hy

theorem sameValue? (ha : p.Concerns task a) (hb : p.Concerns task b) :
    q.sameValue? a b = p.sameValue? a b :=
  h.sameValueWithin? comparisonDepth ha hb

theorem sameValue (ha : p.Concerns task a) (hb : p.Concerns task b) :
    q.sameValue a b = p.sameValue a b := by
  rw [Program.sameValue, Program.sameValue, h.sameValue? ha hb]

theorem distinctConstants (ha : p.Concerns task a) (hb : p.Concerns task b) :
    q.distinctConstants a b = p.distinctConstants a b := by
  rw [← distinctConstants_bare, ← distinctConstants_bare (p := p)]
  simp only [Program.distinctConstants, stmt?_bare, (h.alike a ha).bare, (h.alike b hb).bare]

theorem allSame {x y : List StmtId} (hx : ∀ i ∈ x, p.Concerns task i)
    (hy : ∀ j ∈ y, p.Concerns task j) :
    UniqueAccess.allSame q.sameValue x y = UniqueAccess.allSame p.sameValue x y :=
  allSame_congr fun before pair after hsplit _ => by
    have hmem : (pair.1, pair.2) ∈ x.zip y := by simp [hsplit]
    exact h.sameValue (hx pair.1 (List.of_mem_zip hmem).1) (hy pair.2 (List.of_mem_zip hmem).2)

theorem aliasIndices {x y : List StmtId} (hx : ∀ i ∈ x, p.Concerns task i)
    (hy : ∀ j ∈ y, p.Concerns task j) :
    q.aliasIndices q.sameValue x y = p.aliasIndices p.sameValue x y := by
  have hdiffer : q.someDiffer q.sameValue x y = p.someDiffer p.sameValue x y := by
    rw [someDiffer, someDiffer, List.any_eq_not_all_not, List.any_eq_not_all_not]
    refine congrArg _ (all_congr_of_before fun before pair after hsplit _ => ?_)
    have hmem : (pair.1, pair.2) ∈ x.zip y := by simp [hsplit]
    have hi := hx pair.1 (List.of_mem_zip hmem).1
    have hj := hy pair.2 (List.of_mem_zip hmem).2
    show (!(!q.sameValue pair.1 pair.2 && q.distinctConstants pair.1 pair.2)) =
      !(!p.sameValue pair.1 pair.2 && p.distinctConstants pair.1 pair.2)
    rw [h.sameValue hi hj, h.distinctConstants hi hj]
  rw [Program.aliasIndices, Program.aliasIndices, hdiffer, h.allSame hx hy]

theorem aliasAnswer (ha : p.Concerns task a) (hb : p.Concerns task b) :
    q.aliasAnswer a b = p.aliasAnswer a b := by
  unfold Program.aliasAnswer
  rw [← aliasAnswerBy_bare, ← aliasAnswerBy_bare (p := p)]
  simp only [aliasAnswerBy, stmt?_bare, (h.alike a ha).bare, (h.alike b hb).bare,
    aliasPointers_bare]
  split
  · rfl
  · split
    · next candidates x candidates' y hx hy =>
      have hindices : ∀ i ∈ x, p.Concerns task i := fun _ => ha.of_mem_operands hx
      have hindices' : ∀ j ∈ y, p.Concerns task j := fun _ => hb.of_mem_operands hy
      unfold aliasPointers
      rw [h.aliasIndices hindices hindices']
    · rfl

theorem sameAddress (ha : p.Concerns task a) (hb : p.Concerns task b) :
    q.structuralOracle.sameAddress a b = p.structuralOracle.sameAddress a b :=
  congrArg (· == .same) (h.aliasAnswer ha hb)

-- ---------------------------------------------------------------------------
-- Entries
-- ---------------------------------------------------------------------------

theorem isUniquePtr (ha : p.Concerns task a) (f : LoopFacts) (dimensions : Option Nat) :
    q.isUniquePtr task f dimensions a = p.isUniquePtr task f dimensions a := by
  unfold Program.isUniquePtr
  rw [(h.alike a ha).requireIndices]

theorem recordAccess (ha : p.Concerns task a) {node : NodeId} (f : LoopFacts) (dimensions : Nat)
    {m : AccessMap} (hm : ∀ r, m.get? node = some (some r) → p.Concerns task r) :
    q.recordAccess q.structuralOracle task f dimensions m (a, node) =
      p.recordAccess p.structuralOracle task f dimensions m (a, node) := by
  simp only [Program.recordAccess, judge, h.isUniquePtr ha]
  split
  · rfl
  · rfl
  · next r hr => rw [h.sameAddress (hm r hr) ha]

theorem uniquePointers : q.uniquePointers q.structuralOracle task =
    p.uniquePointers p.structuralOracle task := by
  simp only [Program.uniquePointers, h.taskDimensions, h.accesses, h.loopFacts, bind, Except.bind]
  cases hdim : p.taskDimensions task with
  | error e => rfl
  | ok dimensions =>
    refine foldlM_congr fun done access rest m hsplit hm => ?_
    have hptr : (access.1, access.2) ∈ p.accesses task := by simp [hsplit]
    refine h.recordAccess (concerns_of_mem_accesses hptr) _ _ fun r hr => ?_
    have hdone : ∀ access ∈ done, access ∈ p.accesses task := fun access hmem => by
      simp [hsplit, hmem]
    exact concerns_of_mem_accesses (hdone _ (mem_of_foldlM_recordAccess hdone hm hr))

theorem compareFields (container : NodeId) (ha : p.Concerns task a) (hb : p.Concerns task b) :
    q.compareFields q.structuralOracle container a b =
      p.compareFields p.structuralOracle container a b := by
  simp only [Program.compareFields, (h.alike a ha).requireIndices, (h.alike b hb).requireIndices,
    bind, Except.bind]
  cases hx : p.requireIndices b with
  | error e => rfl
  | ok x =>
    cases hy : p.requireIndices a with
    | error e => rfl
    | ok y =>
      have hall : UniqueAccess.allSame q.structuralOracle.sameValue x y =
          UniqueAccess.allSame p.structuralOracle.sameValue x y :=
        h.allSame (hb.indices hx) (ha.indices hy)
      simp only
      rw [hall]

theorem recordField {c : AccessMap} {node : NodeId} {entry : Option StmtId}
    (hentry : ∀ field, entry = some field → p.Concerns task field)
    (hc : ∀ container r, c.get? container = some (some r) → p.Concerns task r) :
    q.recordField q.structuralOracle c (node, entry) =
      p.recordField p.structuralOracle c (node, entry) := by
  simp only [Program.recordField, h.packedInto, bind, Except.bind]
  cases p.packedInto node with
  | error e => rfl
  | ok container? =>
    rcases container? with _ | container
    · rfl
    · have hjudge : q.judgeField q.structuralOracle c container entry =
          p.judgeField p.structuralOracle c container entry := by
        unfold judgeField
        split
        · rfl
        · next r field hr => exact h.compareFields container (hc _ _ hr) (hentry _ rfl)
        · rfl
      simp only [hjudge]

theorem packedContainers : q.packedContainers q.structuralOracle task =
    p.packedContainers p.structuralOracle task := by
  simp only [Program.packedContainers, h.uniquePointers, bind, Except.bind]
  cases hm : p.uniquePointers p.structuralOracle task with
  | error e => rfl
  | ok m =>
    refine foldlM_congr fun done visited rest c hsplit hc => h.recordField ?_ ?_
    · intro field hfield
      have hmem : (visited.1, some field) ∈ m.entries := by simp [hsplit, ← hfield]
      exact concerns_of_mem_entries hm hmem
    · intro container r hr
      have hempty : p.PackedReflects p.structuralOracle .empty [] := fun _ => rfl
      obtain ⟨hfield, _⟩ := (hempty.foldlM_recordField hc).representative hr
      obtain ⟨node', hdone, _⟩ := mem_fieldsOf.mp hfield
      have hmem : (node', some r) ∈ m.entries := hsplit ▸ List.mem_append_left _ hdone
      exact concerns_of_mem_entries hm hmem

end SharesTask

-- ---------------------------------------------------------------------------
-- Results
-- ---------------------------------------------------------------------------

theorem Concerns.grounded (ha : p.Concerns task a)
    (hfirst : ∀ user operand, p.Concerns task user → p.Reads user operand →
      operand.index < user.index) : p.Grounded a :=
  .of_decreasing (fun user operand huser hreads =>
    ⟨huser.operand hreads, hfirst user operand huser hreads⟩) ha

/-- Nothing outside of what concerns a task has a part in its results. Whatever the programs do
elsewhere, the walk is the same and ends in both or in neither, the same is known about all values,
the same comparisons have the same answers, and the maps of nodes and of containers have the same
entries in the same order, or fail alike. -/
theorem SharesTask.results_eq (h : p.SharesTask q task) :
    q.trail? .taskLocal (q.taskBody task) = p.trail? .taskLocal (p.taskBody task) ∧
      q.loopFacts task = p.loopFacts task ∧
      q.uniquePointers q.structuralOracle task = p.uniquePointers p.structuralOracle task ∧
      q.packedContainers q.structuralOracle task = p.packedContainers p.structuralOracle task ∧
      (∀ a b, p.Concerns task a → p.Concerns task b → q.sameValue? a b = p.sameValue? a b) ∧
      ((∀ user operand, p.Concerns task user → p.Reads user operand →
          operand.index < user.index) →
        ∀ a b, p.Concerns task a → p.Concerns task b → ∃ answer,
          p.sameValue? a b = some answer ∧ q.sameValue? a b = some answer) := by
  refine ⟨h.trail?, h.loopFacts, h.uniquePointers, h.packedContainers,
    fun a b ha hb => h.sameValue? ha hb, fun hfirst a b ha hb => ?_⟩
  obtain ⟨answer, hanswer⟩ := Option.isSome_iff_exists.mp
    (isSome_iff_ends.mpr ((ha.grounded hfirst).ends b))
  exact ⟨answer, hanswer, (h.sameValue? ha hb).trans hanswer⟩

/-- A task over a range that accesses two fields of a bit-struct at `i, 7`, once with a constant from
outside of the task. A task inside it loads one of the fields. -/
def sharedProgram : Program where
  version := currentVersion
  storage := ⟨#[
    { id := ⟨0⟩, kind := .root },
    { id := ⟨1⟩, kind := .bitStruct, parent := some ⟨0⟩ },
    { id := ⟨2⟩, kind := .place, parent := some ⟨1⟩, isBitLevel := true },
    { id := ⟨3⟩, kind := .place, parent := some ⟨1⟩, isBitLevel := true }]⟩
  stmts := #[
    .const (.i32 7),
    .task .rangeFor none [⟨2⟩, ⟨3⟩, ⟨4⟩, ⟨5⟩, ⟨6⟩],
    .loopIndex ⟨1⟩ 0,
    .const (.i32 7),
    .globalPtr [⟨2⟩] [⟨2⟩, ⟨0⟩],
    .globalPtr [⟨3⟩] [⟨2⟩, ⟨3⟩],
    .task .serial none [⟨7⟩],
    .globalLoad ⟨4⟩,
    .task .serial none [⟨9⟩],
    .const (.i32 1)]
  root := [⟨0⟩, ⟨1⟩, ⟨8⟩]

/-- The same task in a program where the task inside it stores, and the other one has become another
task over a range. -/
def editedProgram : Program :=
  { sharedProgram with
    stmts := #[
      .const (.i32 7),
      .task .rangeFor none [⟨2⟩, ⟨3⟩, ⟨4⟩, ⟨5⟩, ⟨6⟩],
      .loopIndex ⟨1⟩ 0,
      .const (.i32 7),
      .globalPtr [⟨2⟩] [⟨2⟩, ⟨0⟩],
      .globalPtr [⟨3⟩] [⟨2⟩, ⟨3⟩],
      .task .serial none [⟨9⟩, ⟨7⟩],
      .globalStore ⟨4⟩ ⟨9⟩,
      .task .rangeFor none [⟨10⟩, ⟨11⟩],
      .const (.i32 2),
      .globalPtr [⟨2⟩] [⟨0⟩],
      .globalLoad ⟨10⟩]
    root := [⟨0⟩, ⟨8⟩, ⟨1⟩] }

theorem sharedProgram_walked : sharedProgram.Walked .taskLocal (sharedProgram.taskBody ⟨1⟩)
    [⟨2⟩, ⟨3⟩, ⟨4⟩, ⟨5⟩, ⟨6⟩] := trail?_eq_some.mp (by decide +kernel)

theorem sharedProgram_sharesTask : sharedProgram.SharesTask editedProgram ⟨1⟩ where
  storage := rfl
  self := rfl
  alike id hid := by
    have hmem : id ∈ [⟨6⟩, ⟨0⟩, ⟨2⟩, ⟨3⟩, ⟨4⟩, ⟨5⟩] :=
      hid.mem sharedProgram_walked (by decide) (by decide)
    rcases List.mem_cons.mp hmem with rfl | hmem
    · exact .task rfl rfl
    · have hsame : ∀ id ∈ [(⟨0⟩ : StmtId), ⟨2⟩, ⟨3⟩, ⟨4⟩, ⟨5⟩],
          editedProgram.stmt? id = sharedProgram.stmt? id := by decide
      exact .same (hsame id hmem)

/-- The constants are compared across the border of the task. -/
theorem editedProgram_packedContainers :
    sharedProgram.SharesTask editedProgram ⟨1⟩ ∧
      sharedProgram.packedContainers sharedProgram.structuralOracle ⟨1⟩ =
        .ok (.ofList [(⟨1⟩, some ⟨4⟩)]) ∧
      editedProgram.packedContainers editedProgram.structuralOracle ⟨1⟩ =
        .ok (.ofList [(⟨1⟩, some ⟨4⟩)]) ∧
      sharedProgram.sameValue? ⟨0⟩ ⟨3⟩ = some true ∧
      editedProgram.sameValue? ⟨0⟩ ⟨3⟩ = some true := by
  obtain ⟨_, _, _, hcontainers, _, hsame⟩ := sharedProgram_sharesTask.results_eq
  have hshared : sharedProgram.packedContainers sharedProgram.structuralOracle ⟨1⟩ =
      .ok (.ofList [(⟨1⟩, some ⟨4⟩)]) := by decide +kernel
  have hordered : sharedProgram.Ordered := ordered_of_zipIdx (by decide)
  have hmet : ∀ id ∈ [(⟨2⟩ : StmtId), ⟨3⟩, ⟨4⟩, ⟨5⟩, ⟨6⟩], sharedProgram.Concerns ⟨1⟩ id :=
    fun id hid => .met (sharedProgram_walked.meets_iff.mpr hid)
  have houter : sharedProgram.Concerns ⟨1⟩ ⟨0⟩ :=
    .operand (hmet ⟨4⟩ (by decide)) ⟨_, rfl, by decide⟩
  obtain ⟨answer, hanswer, hedited⟩ :=
    hsame (fun user operand _ ⟨s, hs, hoperand⟩ => hordered user s hs operand hoperand) _ _ houter
      (hmet ⟨3⟩ (by decide))
  have htrue : sharedProgram.sameValue? ⟨0⟩ ⟨3⟩ = some true := by decide +kernel
  exact ⟨sharedProgram_sharesTask, hshared, hcontainers.trans hshared, htrue,
    hedited.trans (hanswer.symm.trans htrue)⟩

end Program

end UniqueAccess
