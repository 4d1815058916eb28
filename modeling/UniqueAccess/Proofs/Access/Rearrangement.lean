import UniqueAccess.Proofs.Access.Agreement
import UniqueAccess.Proofs.Access.Failure

/-!
# The order of the statements of a task does not matter

Two programs with the same table, blocks aside, are analyzed with the same result as long as the
walks through the task visit the same statements, each once and operands before their users. The
oracles are equal, the same is known about every value, and pointers that hold the same address
have unique addresses together. Which of them is met first decides only which of them represents
the node.
-/

namespace UniqueAccess.Program

open LoopFacts (Agree)

variable {p q : Program} {task id a b : StmtId} {dimensions : Nat}

-- ---------------------------------------------------------------------------
-- Pointers
-- ---------------------------------------------------------------------------

theorem claimant_eq {ptr : StmtId} {candidates : List NodeId} {indices : List StmtId}
    (hs : p.stmt? ptr = some (.globalPtr candidates indices)) :
    p.claimant task dimensions ptr =
      if isUniqueAddress (indices.map (p.loopFacts task).tag?) dimensions then some ptr
      else none := by
  simp [claimant, hs]

theorem claimant_of_sameAddress (h : DefinesFirst (p.taskVisits task)) (ha : p.Visits task a)
    (hb : p.Visits task b) (hab : p.structuralOracle.sameAddress a b)
    (hclaims : p.claimant task dimensions a = some a) :
    p.claimant task dimensions b = some b := by
  rcases sameAddress_iff.mp hab with rfl | ⟨node, x, y, hs, ht, _⟩
  · exact hclaims
  · rw [claimant_eq hs, map_tag?_eq_of_sameAddress h ha hb hs ht hab] at hclaims
    rw [claimant_eq ht]
    split at hclaims
    · next hunique => rw [if_pos hunique]
    · cases hclaims

theorem LeadsTo.visits {node : NodeId} {ptr : StmtId} {indices : List StmtId}
    (h : p.LeadsTo task node ptr indices) : p.Visits task ptr := by
  obtain ⟨_, hmem, _⟩ := h
  exact .of_mem hmem

theorem visits_of_mem_pointersTo {node : NodeId} {ptr : StmtId}
    (h : ptr ∈ pointersTo node (p.accesses task)) : p.Visits task ptr := by
  obtain ⟨_, hleads⟩ := mem_accesses.mp (mem_pointersTo.mp h)
  exact hleads.visits

theorem interchangeable (h : DefinesFirst (p.taskVisits task)) (node : NodeId) :
    Interchangeable (p.claimant task dimensions) p.structuralOracle.sameAddress
      (pointersTo node (p.accesses task)) where
  self _ _ _ hr := (claimant_eq_some hr).1.symm
  brings _ ha _ hb :=
    claimant_of_sameAddress h (visits_of_mem_pointersTo ha) (visits_of_mem_pointersTo hb)
  refl _ _ := sameAddress_iff.mpr (.inl rfl)
  symm _ ha _ hb := ((visits_of_mem_pointersTo ha).grounded h).sameAddress_symm
    ((visits_of_mem_pointersTo hb).grounded h)
  trans _ ha _ hb _ _ := ((visits_of_mem_pointersTo ha).grounded h).sameAddress_trans
    ((visits_of_mem_pointersTo hb).grounded h)

-- ---------------------------------------------------------------------------
-- Two arrangements
-- ---------------------------------------------------------------------------

/-- Both walks visit the same statements of one table, each once and operands first. -/
structure Rearranged (p q : Program) (task : StmtId) : Prop where
  bare : p.bare = q.bare
  definesFirst : DefinesFirst (p.taskVisits task)
  definesFirst' : DefinesFirst (q.taskVisits task)
  visits : ∀ id, p.Visits task id ↔ q.Visits task id

namespace Rearranged

theorem symm (h : p.Rearranged q task) : q.Rearranged p task :=
  ⟨h.bare.symm, h.definesFirst', h.definesFirst, fun id => (h.visits id).symm⟩

theorem structuralOracle (h : p.Rearranged q task) : p.structuralOracle = q.structuralOracle := by
  rw [← structuralOracle_bare, h.bare, structuralOracle_bare]

theorem taskDimensions (h : p.Rearranged q task) : p.taskDimensions = q.taskDimensions := by
  rw [← taskDimensions_bare, h.bare, taskDimensions_bare]

theorem agree (h : p.Rearranged q task) (hid : p.Visits task id) :
    Agree (p.loopFacts task) (q.loopFacts task) id id := by
  induction hid.grounded h.definesFirst with
  | intro id _ ih =>
    obtain ⟨⟨_, s⟩, hmem, rfl⟩ := List.mem_map.mp hid
    have hs := stmt?_of_mem_taskVisits hmem
    obtain ⟨t, ht, hts⟩ := stmt?_of_bare_eq h.bare hs
    have hsolves := (((h.visits _).mp hid).solves h.definesFirst' ht).of_bare hts.symm
    exact (hid.solves h.definesFirst hs).agree_of_operands hsolves fun x hx =>
      ih x ⟨s, hs, hx⟩ (hid.operand h.definesFirst hs hx)

theorem leadsTo (h : p.Rearranged q task) {node : NodeId} {ptr : StmtId} {indices : List StmtId}
    (hleads : p.LeadsTo task node ptr indices) : q.LeadsTo task node ptr indices := by
  obtain ⟨candidates, hmem, hnode⟩ := hleads
  have hs := stmt?_eq_of_bare_eq h.bare (stmt?_of_mem_taskVisits hmem) rfl
  exact ⟨candidates, ((h.visits ptr).mp (.of_mem hmem)).mem_taskVisits hs, hnode⟩

theorem mem_pointersTo (h : p.Rearranged q task) {node : NodeId} {ptr : StmtId} :
    ptr ∈ pointersTo node (p.accesses task) ↔ ptr ∈ pointersTo node (q.accesses task) := by
  simp only [Program.mem_pointersTo, mem_accesses]
  exact exists_congr fun _ => ⟨h.leadsTo, h.symm.leadsTo⟩

theorem claimant (h : p.Rearranged q task) {node : NodeId} {ptr : StmtId}
    (hptr : ptr ∈ pointersTo node (p.accesses task)) :
    p.claimant task dimensions ptr = q.claimant task dimensions ptr := by
  obtain ⟨indices, candidates, hmem, _⟩ := mem_accesses.mp (Program.mem_pointersTo.mp hptr)
  have hs := stmt?_of_mem_taskVisits hmem
  have hindices : ∀ i ∈ indices, p.Visits task i := fun i hi =>
    (Visits.of_mem hmem).operand h.definesFirst hs hi
  have htags : indices.map (p.loopFacts task).tag? = indices.map (q.loopFacts task).tag? :=
    List.map_congr_left fun i hi => (h.agree (hindices i hi)).tag
  rw [claimant_eq hs, claimant_eq (stmt?_eq_of_bare_eq h.bare hs rfl), htags]

theorem exists_representative (h : p.Rearranged q task) {m m' : AccessMap}
    (hm : p.Reflects p.structuralOracle task dimensions m (p.accesses task))
    (hm' : q.Reflects q.structuralOracle task dimensions m' (q.accesses task)) {node : NodeId}
    {r : StmtId} (hr : m.get? node = some (some r)) :
    ∃ r', m'.get? node = some (some r') ∧ p.structuralOracle.sameAddress r r' := by
  rw [hm node] at hr
  obtain ⟨r', hr', hsame⟩ := (interchangeable h.definesFirst node).exists_entryOf
    (fun _ => h.mem_pointersTo) hr
  refine ⟨r', ?_, hsame⟩
  rw [hm' node, ← hr', h.structuralOracle]
  exact entryOf_congr fun ptr hptr => h.symm.claimant hptr

end Rearranged

inductive SameEntry (p : Program) : Option (Option StmtId) → Option (Option StmtId) → Prop
  | unaccessed : SameEntry p none none
  | refuted : SameEntry p (some none) (some none)
  | represented {r r' : StmtId} : p.structuralOracle.sameAddress r r' →
      SameEntry p (some (some r)) (some (some r'))

theorem Rearranged.sameEntry (h : p.Rearranged q task) {m m' : AccessMap}
    (hm : p.Reflects p.structuralOracle task dimensions m (p.accesses task))
    (hm' : q.Reflects q.structuralOracle task dimensions m' (q.accesses task)) (node : NodeId) :
    p.SameEntry (m.get? node) (m'.get? node) := by
  have hsome : (∃ entry, m.get? node = some entry) ↔ ∃ entry, m'.get? node = some entry := by
    rw [hm node, hm' node, exists_entryOf_iff, exists_entryOf_iff]
    exact exists_congr fun _ => h.mem_pointersTo
  cases hentry : m.get? node with
  | none =>
    have hnone : ¬ ∃ entry, m'.get? node = some entry := by simp [← hsome, hentry]
    rw [Option.eq_none_iff_forall_ne_some.mpr fun entry h => hnone ⟨entry, h⟩]
    exact .unaccessed
  | some entry =>
    obtain ⟨entry', hentry'⟩ := hsome.mp ⟨entry, hentry⟩
    rw [hentry']
    cases entry with
    | some r =>
      obtain ⟨r', hr', hsame⟩ := h.exists_representative hm hm' hentry
      obtain rfl := Option.some.inj (hentry'.symm.trans hr')
      exact .represented hsame
    | none =>
      cases entry' with
      | none => exact .refuted
      | some r' =>
        obtain ⟨r, hr, _⟩ := h.symm.exists_representative hm' hm hentry'
        cases hr.symm.trans hentry

/-- The analysis of the pointers of a task comes to the same result in both programs, up to which
of the pointers that hold the address of a node represents the node. -/
theorem uniquePointers_rearranged (h : p.Rearranged q task) :
    p.structuralOracle = q.structuralOracle ∧
      ((∃ e, p.uniquePointers p.structuralOracle task = .error e ∧
          q.uniquePointers q.structuralOracle task = .error e) ∨
        ∃ m m', p.uniquePointers p.structuralOracle task = .ok m ∧
          q.uniquePointers q.structuralOracle task = .ok m' ∧
          ∀ node, p.SameEntry (m.get? node) (m'.get? node)) := by
  refine ⟨h.structuralOracle, ?_⟩
  cases hdim : p.taskDimensions task with
  | error e =>
    have hdim' := (congrFun h.taskDimensions task).symm.trans hdim
    exact .inl ⟨e, uniquePointers_eq_error.mpr (taskDimensions_eq_error.mp hdim),
      uniquePointers_eq_error.mpr (taskDimensions_eq_error.mp hdim')⟩
  | ok dimensions =>
    have hdim' := (congrFun h.taskDimensions task).symm.trans hdim
    obtain ⟨m, hok, hm⟩ := uniquePointers_ok p.structuralOracle hdim
    obtain ⟨m', hok', hm'⟩ := uniquePointers_ok q.structuralOracle hdim'
    exact .inr ⟨m, m', hok, hok', h.sameEntry hm hm'⟩

/-- A task over a range with pointers at `i + 1` and `1 + i`, and a conditional. -/
def branchProgram (body onTrue : Block) : Program where
  version := currentVersion
  storage := ⟨#[{ id := ⟨0⟩, kind := .root }, { id := ⟨1⟩, kind := .place, parent := some ⟨0⟩ }]⟩
  stmts := #[
    .task .rangeFor none body,
    .loopIndex ⟨0⟩ 0,
    .const (.i32 1),
    .binary .add ⟨1⟩ ⟨2⟩,
    .binary .add ⟨2⟩ ⟨1⟩,
    .globalPtr [⟨1⟩] [⟨3⟩],
    .globalPtr [⟨1⟩] [⟨4⟩],
    .branch ⟨2⟩ onTrue []]
  root := [⟨0⟩]

def straightProgram : Program := branchProgram [⟨1⟩, ⟨2⟩, ⟨3⟩, ⟨4⟩, ⟨5⟩, ⟨6⟩, ⟨7⟩] []

def hoistedProgram : Program := branchProgram [⟨2⟩, ⟨1⟩, ⟨4⟩, ⟨3⟩, ⟨7⟩, ⟨5⟩] [⟨6⟩]

/-- With the second pointer in the conditional, and that before the first one, it represents the
node in its place. -/
theorem hoistedProgram_represented : ∃ m m',
    straightProgram.uniquePointers straightProgram.structuralOracle ⟨0⟩ = .ok m ∧
    hoistedProgram.uniquePointers hoistedProgram.structuralOracle ⟨0⟩ = .ok m' ∧
    m.get? ⟨1⟩ = some (some ⟨5⟩) ∧ m'.get? ⟨1⟩ = some (some ⟨6⟩) ∧
    straightProgram.SameEntry (m.get? ⟨1⟩) (m'.get? ⟨1⟩) := by
  have hperm : ((straightProgram.taskVisits ⟨0⟩).map Prod.fst).Perm
      ((hoistedProgram.taskVisits ⟨0⟩).map Prod.fst) := by decide +kernel
  have hbare : straightProgram.bare = hoistedProgram.bare := by
    simp [straightProgram, hoistedProgram, branchProgram, bare, Stmt.bare]
  have hrearranged : straightProgram.Rearranged hoistedProgram ⟨0⟩ :=
    ⟨hbare, ⟨by decide +kernel, by decide +kernel⟩, ⟨by decide +kernel, by decide +kernel⟩,
      fun _ => hperm.mem_iff⟩
  have hstraight : straightProgram.uniquePointers straightProgram.structuralOracle ⟨0⟩ =
      .ok (.ofList [(⟨1⟩, some ⟨5⟩)]) := by decide +kernel
  have hhoisted : hoistedProgram.uniquePointers hoistedProgram.structuralOracle ⟨0⟩ =
      .ok (.ofList [(⟨1⟩, some ⟨6⟩)]) := by decide +kernel
  obtain ⟨_, ⟨_, herror, _⟩ | ⟨m, m', hm, hm', hsame⟩⟩ := uniquePointers_rearranged hrearranged
  · cases herror.symm.trans hstraight
  · obtain rfl := Except.ok.inj (hstraight.symm.trans hm)
    obtain rfl := Except.ok.inj (hhoisted.symm.trans hm')
    exact ⟨_, _, hm, hm', rfl, rfl, hsame ⟨1⟩⟩

end UniqueAccess.Program
