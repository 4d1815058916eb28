import UniqueAccess.Proofs.Access.Report
import UniqueAccess.Proofs.Program.Places

/-!
# Tasks that no block lists

A report may be asked for under any name. Validity looks at what blocks list, so that a task that is
in the table only may lack what the analyses need. If it does not, or if a block lists it, then its
walk ends and a report on it fails only where the fields of a container cannot be folded.
-/

namespace UniqueAccess.Program

open Relation (TransGen)

variable {p : Program} {o : AliasOracle} {task : StmtId} {kind : TaskKind}
  {container : Option NodeId} {body : Block} {e : AccessError}

-- ---------------------------------------------------------------------------
-- What analyses need
-- ---------------------------------------------------------------------------

theorem taskBody_of_requireTaskKind (h : p.requireTaskKind task = .error e) :
    p.taskBody task = [] := by
  unfold taskBody
  split
  · next hs => cases h.symm.trans (requireTaskKind_eq_ok.mpr ⟨_, _, hs⟩)
  · rfl

/-- What the analyses of a task need, and validity sees to where a block lists the task. -/
structure Analyzable (p : Program) (task : StmtId) (kind : TaskKind) (container : Option NodeId) :
    Prop where
  acyclic : ∀ id, p.Under .taskLocal (p.taskBody task) id → ¬ TransGen (p.Owns .taskLocal) id id
  container : kind = .structFor → ∃ node ∈ container, p.storage.contains node
  candidates : kind ≠ .serial → ∀ node ptr indices, p.LeadsTo task node ptr indices →
    p.storage.contains node

theorem Analyzable.of_mem_tasks (hp : p.isValid) (ht : task ∈ p.tasks)
    (hs : p.stmt? task = some (.task kind container body)) : p.Analyzable task kind container where
  acyclic := exists_trail?_iff.mp ⟨_, trail?_eq_some.mpr (trail_taskBody_sublist hp ht).1⟩
  container := by
    rintro rfl
    cases container with
    | none => exact absurd (.containerMissing hs) (not_taskFailure hp ht)
    | some node =>
      refine ⟨node, rfl, StorageTree.contains_iff_ne_none.mpr fun hnode => ?_⟩
      exact not_taskFailure hp ht (.nodeMissing hs hnode)
  candidates _ _ _ _ hleads := StorageTree.contains_iff.mpr (hleads.exists_node hp ht)

theorem Analyzable.not_taskFailure (h : p.Analyzable task kind container)
    (hs : p.stmt? task = some (.task kind container body)) : ¬ p.TaskFailure task e := by
  intro hfail
  cases hfail with
  | stmtMissing hs' => cases hs'.symm.trans hs
  | notATask hs' hkind =>
    cases hs'.symm.trans hs
    cases hkind
  | containerMissing hs' =>
    cases hs'.symm.trans hs
    obtain ⟨_, hnode, _⟩ := h.container rfl
    cases hnode
  | nodeMissing hs' hnode =>
    cases hs'.symm.trans hs
    obtain ⟨node, hcontainer, hcontains⟩ := h.container rfl
    obtain rfl := Option.some.inj hcontainer
    exact StorageTree.contains_iff_ne_none.mp hcontains hnode

-- ---------------------------------------------------------------------------
-- Answers
-- ---------------------------------------------------------------------------

inductive Answer (p : Program) (task : StmtId) : Except AccessError AccessReport → Prop
  | stmtMissing (hs : p.stmt? task = none) : Answer p task (.error (.stmtMissing task))
  | notATask {s : Stmt} (hs : p.stmt? task = some s) (hkind : s.isTask = false) :
      Answer p task (.error (.notATask task))
  | reported {s : Stmt} {t : TaskReport} (hs : p.stmt? task = some s) (hkind : s.isTask)
      (ht : t.task = task) : Answer p task (.ok ⟨[t]⟩)
  | orphanField {s : Stmt} {field : NodeId} (hs : p.stmt? task = some s) (hkind : s.isTask) :
      Answer p task (.error (.orphanField field))
  | arityMismatch {s : Stmt} {container : NodeId} {a b : StmtId} {arity arity' : Nat}
      (hs : p.stmt? task = some s) (hkind : s.isTask) :
      Answer p task (.error (.arityMismatch container a b arity arity'))

theorem Answer.of_requireTaskKind (h : p.requireTaskKind task = .error e) :
    p.Answer task (.error e) := by
  rcases bind_error.mp h with h | ⟨s, hs, h⟩
  · obtain ⟨hs, rfl⟩ := requireStmt_eq_error.mp h
    exact .stmtMissing hs
  · have hs := requireStmt_eq_ok.mp hs
    cases s with
    | task => cases h
    | _ =>
      obtain rfl := Except.error.inj h
      exact .notATask hs rfl

theorem reportOn_error (hs : p.stmt? task = some (.task kind container body))
    (h : p.reportOn o task = .error e) :
    p.TaskFailure task e ∨ (kind ≠ .serial ∧ p.FieldFailure task e) := by
  have hkind := requireTaskKind_eq_ok.mpr ⟨container, body, hs⟩
  rw [reportOn_eq_error, taskReport_eq_bind hkind] at h
  rcases bind_error.mp h with h | ⟨_, _, h⟩
  · by_cases hserial : kind = .serial
    · subst hserial
      cases h
    · rw [shownContainers_of_ne_serial hserial, map_eq_error] at h
      exact (packedContainers_error h).imp_right fun h => ⟨hserial, h⟩
  · rcases bind_error.mp h with h | ⟨_, _, h⟩
    · exact .inl (uniquePointers_eq_error.mp h)
    rcases bind_error.mp h with h | ⟨_, _, h⟩
    · cases hkind.symm.trans h
    rcases bind_error.mp h with h | ⟨_, _, h⟩
    · exact .inl (taskDimensions_eq_error.mp h)
    · cases h

theorem Analyzable.answer (h : p.Analyzable task kind container)
    (hs : p.stmt? task = some (.task kind container body)) (o : AliasOracle) :
    p.Answer task (p.reportOn o task) := by
  cases hreport : p.reportOn o task with
  | ok r =>
    obtain ⟨t, ht, rfl⟩ := reportOn_eq_ok.mp hreport
    exact .reported hs rfl (taskReport_eq_ok ht).1
  | error e =>
    rcases reportOn_error hs hreport with hfail | ⟨hparallel, hfail⟩
    · exact absurd hfail (h.not_taskFailure hs)
    · cases hfail with
      | nodeMissing hleads hnode =>
        have hcontains := h.candidates hparallel _ _ _ hleads
        exact absurd hnode (StorageTree.contains_iff_ne_none.mp hcontains)
      | orphan => exact .orphanField hs rfl
      | arityMismatch => exact .arityMismatch hs rfl

/-- A report on any name of a program that was loaded is answered, if the name is not that of a task
that no block lists and that lacks what the analyses need. -/
theorem reportOn_answered {text : String} (hload : load text = .ok p) (task : StmtId)
    (hstray : ∀ kind container body, p.stmt? task = some (.task kind container body) →
      task ∉ p.tasks → p.Analyzable task kind container) (o : AliasOracle) :
    (∃ l, p.trail? .taskLocal (p.taskBody task) = some l) ∧
      p.Answer task (p.reportOn o task) := by
  obtain ⟨_, _, hp⟩ := load_eq_ok.mp hload
  cases hkind : p.requireTaskKind task with
  | error e =>
    rw [taskBody_of_requireTaskKind hkind, reportOn_eq_error.mpr (bind_error.mpr (.inl hkind))]
    exact ⟨⟨[], rfl⟩, .of_requireTaskKind hkind⟩
  | ok kind =>
    obtain ⟨container, body, hs⟩ := requireTaskKind_eq_ok.mp hkind
    have h : p.Analyzable task kind container := by
      by_cases ht : task ∈ p.tasks
      · exact .of_mem_tasks hp ht hs
      · exact hstray kind container body hs ht
    exact ⟨exists_trail?_iff.mpr h.acyclic, h.answer hs o⟩

/-- A task over a container with a pointer to its cells; no block lists the task. -/
def apartProgram : Program where
  version := currentVersion
  storage := ⟨#[
    { id := ⟨0⟩, kind := .root },
    { id := ⟨1⟩, kind := .dense, parent := some ⟨0⟩, dimensions := 1 },
    { id := ⟨2⟩, kind := .place, parent := some ⟨1⟩ }]⟩
  stmts := #[.task .structFor (some ⟨1⟩) [⟨1⟩, ⟨2⟩], .loopIndex ⟨0⟩ 0, .globalPtr [⟨2⟩] [⟨1⟩]]
  root := []

def apartText : String :=
  "[1,[[[0,\"root\"],[1,\"dense\",0,false,1],[2,\"place\",1]]]," ++
    "[[\"offloaded\",\"struct_for\",1,[1,2]],[\"loop_index\",0,0],[\"global_ptr\",[2],[1]]],[]]"

theorem apartProgram_analyzable : apartProgram.Analyzable ⟨0⟩ .structFor (some ⟨1⟩) where
  acyclic := exists_trail?_iff.mp ⟨[⟨1⟩, ⟨2⟩], by decide +kernel⟩
  container _ := ⟨⟨1⟩, rfl, rfl⟩
  candidates := by
    rintro _ node ptr indices ⟨candidates, hmem, hnode⟩
    have hvisits : apartProgram.taskVisits ⟨0⟩ =
        [(⟨1⟩, .loopIndex ⟨0⟩ 0), (⟨2⟩, .globalPtr [⟨2⟩] [⟨1⟩])] := by decide +kernel
    simp only [hvisits, List.mem_cons, Prod.mk.injEq, reduceCtorEq, and_false, false_or,
      Stmt.globalPtr.injEq, List.not_mem_nil, or_false] at hmem
    obtain ⟨-, rfl, -⟩ := hmem
    obtain rfl := List.mem_singleton.mp hnode
    rfl

theorem apartProgram_answered :
    load apartText = .ok apartProgram ∧ ⟨0⟩ ∉ apartProgram.tasks ∧
      apartProgram.Answer ⟨0⟩ (apartProgram.reportOn apartProgram.structuralOracle ⟨0⟩) := by
  have hvalid : apartProgram.isValid :=
    isValid_iff.mpr ⟨by decide, [], .nil, by decide, by decide⟩
  have hload : load apartText = .ok apartProgram :=
    load_eq_ok.mpr ⟨by decide +kernel, rfl, hvalid⟩
  refine ⟨hload, by decide +kernel, (reportOn_answered hload ⟨0⟩ ?_ _).2⟩
  intro kind container body hs _
  cases hs
  exact apartProgram_analyzable

/-- Three tasks that no block lists: one over a container that it does not name, one with a pointer
to a node that is not there, and one with a conditional that holds itself. -/
def strayProgram : Program where
  version := currentVersion
  storage := ⟨#[]⟩
  stmts := #[
    .task .structFor none [],
    .task .rangeFor none [⟨2⟩],
    .globalPtr [⟨9⟩] [],
    .task .serial none [⟨4⟩],
    .branch ⟨2⟩ [⟨4⟩] []]
  root := []

def strayText : String :=
  "[1,[[]],[[\"offloaded\",\"struct_for\",null,[]],[\"offloaded\",\"range_for\",null,[2]]," ++
    "[\"global_ptr\",[9],[]],[\"offloaded\",\"serial\",null,[4]],[\"if\",2,[4],[]]],[]]"

/-- The program is loaded, but two of the reports fail in other ways and the third has no end. -/
theorem strayProgram_unanswered :
    load strayText = .ok strayProgram ∧
      ¬ strayProgram.Answer ⟨0⟩ (strayProgram.reportOn strayProgram.structuralOracle ⟨0⟩) ∧
      strayProgram.reportOn strayProgram.structuralOracle ⟨1⟩ = .error (.nodeMissing ⟨9⟩) ∧
      ¬ strayProgram.Answer ⟨1⟩ (strayProgram.reportOn strayProgram.structuralOracle ⟨1⟩) ∧
      strayProgram.trail? .taskLocal (strayProgram.taskBody ⟨3⟩) = none := by
  have hvalid : strayProgram.isValid :=
    isValid_iff.mpr ⟨by decide, [], .nil, by decide, by decide⟩
  have hcontainer : strayProgram.reportOn strayProgram.structuralOracle ⟨0⟩ =
      .error (.containerMissing ⟨0⟩) := by decide +kernel
  have hnode : strayProgram.reportOn strayProgram.structuralOracle ⟨1⟩ =
      .error (.nodeMissing ⟨9⟩) := by decide +kernel
  refine ⟨load_eq_ok.mpr ⟨by decide +kernel, rfl, hvalid⟩, ?_, hnode, ?_, by decide +kernel⟩
  · rw [hcontainer]
    exact nofun
  · rw [hnode]
    exact nofun

end UniqueAccess.Program
