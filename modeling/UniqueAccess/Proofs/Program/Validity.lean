import UniqueAccess.Access.Error
import UniqueAccess.Program.Load
import UniqueAccess.Proofs.Program.Walk
import UniqueAccess.Proofs.Storage.Ancestors

/-!
# What validity means

A program is valid exactly if its storage tree has no flaws, the walk through everything ends and
meets no name twice, and every name that it meets has a statement without flaws of its own. What
the analyses need of a valid program follows from that: the walk through one task meets statements
without flaws, the task has a number of dimensions, and its loop indices stay below it.
-/

namespace UniqueAccess.Program

variable {p : Program}

/-- The name has a statement, and the statement has no flaws of its own. -/
def Admits (p : Program) (id : StmtId) : Prop :=
  ∃ s, p.stmt? id = some s ∧ p.stmtFlaws id s = []

instance (p : Program) (id : StmtId) : Decidable (p.Admits id) :=
  decidable_of_iff ((p.stmt? id).any fun s => p.stmtFlaws id s = []) <| by
    simp [Admits, Option.any_eq_true]

@[simp] theorem nested_everything (s : Stmt) : nested .everything s = s.blocks.flatten := by
  simp [nested]

@[simp] theorem map_snd_places (owner : Option StmtId) (b : Block) :
    (b.map fun id => ((owner, id) : Listed)).map Prod.snd = b := by
  simp only [List.map_map, Function.comp_def, List.map_id']

theorem map_snd_listedBy (id : StmtId) (s : Stmt) :
    (listedBy id s).map Prod.snd = s.blocks.flatten :=
  map_snd_places _ _

theorem placeFindings_eq_nil {placed : List StmtId} {todo : List Listed} :
    p.placeFindings placed todo = [] ↔
      ∃ l, p.Walked .everything (todo.map Prod.snd) l ∧ (∀ id ∈ l, id ∉ placed) ∧ l.Nodup ∧
        ∀ id ∈ l, p.Admits id := by
  -- Names that are done are `placed`, so that the rest of the walk has to avoid them.
  fun_induction placeFindings p placed todo with
  | case1 placed => exact ⟨fun _ => ⟨[], .nil, by simp, by simp, by simp⟩, fun _ => rfl⟩
  | case2 placed owner id rest hid =>
    refine ⟨nofun, fun ⟨l, hl, hplaced, _, _⟩ => ?_⟩
    exact absurd hid (hplaced id (hl.mem_of_mem (by simp)))
  | case3 placed owner id rest hid hs =>
    refine ⟨nofun, fun ⟨l, hl, _, _, hadmits⟩ => ?_⟩
    obtain ⟨s, hs', _⟩ := hadmits id (hl.mem_of_mem (by simp))
    exact absurd (hs.symm.trans hs') nofun
  | case4 placed owner id rest hid s hs ih =>
    rw [List.append_eq_nil_iff, List.map_eq_nil_iff, ih, List.map_append, map_snd_listedBy,
      List.map_cons]
    constructor
    · rintro ⟨hflaws, l, hl, hplaced, hnodup, hadmits⟩
      obtain ⟨first, second, hfirst, hsecond, rfl⟩ := walked_append.mp hl
      refine ⟨id :: (first ++ second), .known hs (by simpa using hfirst) hsecond, ?_, ?_, ?_⟩
      · intro a ha
        rcases List.mem_cons.mp ha with rfl | ha
        · exact hid
        · exact fun hmem => hplaced a ha (List.mem_cons_of_mem _ hmem)
      · exact List.nodup_cons.mpr ⟨fun hmem => hplaced id hmem List.mem_cons_self, hnodup⟩
      · intro a ha
        rcases List.mem_cons.mp ha with rfl | ha
        · exact ⟨s, hs, hflaws⟩
        · exact hadmits a ha
    · rintro ⟨l, hl, hplaced, hnodup, hadmits⟩
      cases hl with
      | unknown hs' _ => exact absurd (hs'.symm.trans hs) nofun
      | known hs' hinner hrest =>
        obtain rfl := Option.some.inj (hs'.symm.trans hs)
        obtain ⟨hid', hnodup'⟩ := List.nodup_cons.mp hnodup
        obtain ⟨_, hs'', hflaws⟩ := hadmits id List.mem_cons_self
        obtain rfl := Option.some.inj (hs''.symm.trans hs)
        refine ⟨hflaws, _, walked_append.mpr ⟨_, _, by simpa using hinner, hrest, rfl⟩, ?_, hnodup',
          fun a ha => hadmits a (List.mem_cons_of_mem _ ha)⟩
        intro a ha hmem
        rcases List.mem_cons.mp hmem with rfl | hmem
        · exact hid' ha
        · exact hplaced a (List.mem_cons_of_mem _ ha) hmem

theorem isValid_iff :
    p.isValid ↔ p.storage.flaws = [] ∧
      ∃ l, p.Walked .everything p.root l ∧ l.Nodup ∧ ∀ id ∈ l, p.Admits id := by
  simp only [isValid, findings, List.isEmpty_iff, List.append_eq_nil_iff, List.map_eq_nil_iff,
    placeFindings_eq_nil, map_snd_places, List.not_mem_nil, not_false_eq_true, implies_true, true_and]

theorem walked_of_isValid (hp : p.isValid) :
    p.Walked .everything p.root (p.trail .everything p.root) ∧
      (p.trail .everything p.root).Nodup ∧ ∀ id ∈ p.trail .everything p.root, p.Admits id := by
  obtain ⟨_, l, hl, hnodup, hadmits⟩ := isValid_iff.mp hp
  rw [hl.trail_eq]
  exact ⟨hl, hnodup, hadmits⟩

theorem isValid_eq : p.isValid ↔ p.findings = [] := List.isEmpty_iff

theorem load_eq_ok {text : String} :
    load text = .ok p ↔ decode? text = some p ∧ p.version = currentVersion ∧ p.isValid := by
  rw [isValid_eq]
  constructor
  · intro h
    unfold load at h
    split at h
    · cases h
    · next p' htext =>
      unfold check at h
      split at h
      · cases h
      · next hversion =>
        split at h
        · next hfindings =>
          obtain rfl := Except.ok.inj h
          exact ⟨htext, not_not.mp hversion, hfindings⟩
        · cases h
  · rintro ⟨htext, hversion, hfindings⟩
    simp only [load, htext, check, hversion, hfindings, ne_eq, not_true, if_false]

theorem stmtFlaws_eq_nil {id : StmtId} {s : Stmt} :
    p.stmtFlaws id s = [] ↔
      (∀ operand ∈ s.operands, p.operandFlaws id operand = []) ∧
        (∀ node ∈ s.nodes, p.nodeFlaws node = []) ∧ p.formFlaws s = [] := by
  simp only [stmtFlaws, List.append_eq_nil_iff, List.flatMap_eq_nil_iff, and_assoc]

theorem operandFlaws_eq_nil {user operand : StmtId} :
    p.operandFlaws user operand = [] ↔
      (p.stmt? operand).isSome ∧ operand.index < user.index := by
  unfold operandFlaws
  cases p.stmt? operand with
  | none => simp
  | some s => simp

theorem operand_index_lt (hp : p.isValid) {user operand : StmtId} {s : Stmt}
    (huser : user ∈ p.trail .everything p.root) (hs : p.stmt? user = some s)
    (hoperand : operand ∈ s.operands) : operand.index < user.index := by
  obtain ⟨_, _, hadmits⟩ := walked_of_isValid hp
  obtain ⟨s', hs', hflaws⟩ := hadmits user huser
  obtain rfl := Option.some.inj (hs'.symm.trans hs)
  exact (operandFlaws_eq_nil.mp ((stmtFlaws_eq_nil.mp hflaws).1 operand hoperand)).2

-- ---------------------------------------------------------------------------
-- Tasks
-- ---------------------------------------------------------------------------

theorem visit?_eq_some {id : StmtId} {v : StmtId × Stmt} :
    p.visit? id = some v ↔ v.1 = id ∧ p.stmt? id = some v.2 := by
  obtain ⟨id', s⟩ := v
  simp only [visit?, Option.map_eq_some_iff, Prod.mk.injEq]
  grind

theorem mem_visits {scope : WalkScope} {b : Block} {id : StmtId} {s : Stmt} :
    (id, s) ∈ p.visits scope b ↔ id ∈ p.trail scope b ∧ p.stmt? id = some s := by
  simp only [visits, List.mem_filterMap, visit?_eq_some]
  grind

theorem mem_tasks {task : StmtId} :
    task ∈ p.tasks ↔ task ∈ p.trail .everything p.root ∧
      ∃ kind container body, p.stmt? task = some (.task kind container body) := by
  simp only [tasks, List.mem_map, List.mem_filter, Prod.exists, mem_visits]
  constructor
  · rintro ⟨_, s, ⟨⟨hmem, hs⟩, htask⟩, rfl⟩
    cases s <;> simp [Stmt.isTask] at htask
    exact ⟨hmem, _, _, _, hs⟩
  · rintro ⟨hmem, kind, container, body, hs⟩
    exact ⟨task, _, ⟨⟨hmem, hs⟩, rfl⟩, rfl⟩

theorem taskBody_eq {task : StmtId} {kind : TaskKind} {container : Option NodeId} {body : Block}
    (hs : p.stmt? task = some (.task kind container body)) : p.taskBody task = body := by
  simp [taskBody, hs]

theorem trail_taskBody_sublist (hp : p.isValid) {task : StmtId} (ht : task ∈ p.tasks) :
    p.Walked .taskLocal (p.taskBody task) (p.trail .taskLocal (p.taskBody task)) ∧
      (p.trail .taskLocal (p.taskBody task)).Sublist (p.trail .everything p.root) := by
  obtain ⟨hmem, kind, container, body, hs⟩ := mem_tasks.mp ht
  obtain ⟨hl, _, _⟩ := walked_of_isValid hp
  obtain ⟨inner, hinner, hpart⟩ := hl.exists_inner hmem hs
  obtain ⟨l', hl', hsub⟩ := hinner.taskLocal
  have hbody : nested .everything (.task kind container body) = p.taskBody task := by
    simp [taskBody_eq hs, Stmt.blocks]
  rw [hbody] at hl'
  rw [hl'.trail_eq]
  exact ⟨hl', (hsub.trans (List.sublist_cons_self _ _)).trans hpart.sublist⟩

theorem admits_of_mem_tasks (hp : p.isValid) {task : StmtId} (ht : task ∈ p.tasks) :
    p.Admits task :=
  (walked_of_isValid hp).2.2 task (mem_tasks.mp ht).1

theorem stmtFlaws_of_mem_taskVisits (hp : p.isValid) {task id : StmtId} {s : Stmt}
    (ht : task ∈ p.tasks) (hmem : (id, s) ∈ p.taskVisits task) :
    p.stmt? id = some s ∧ p.stmtFlaws id s = [] := by
  obtain ⟨hid, hs⟩ := mem_visits.mp hmem
  obtain ⟨_, _, hadmits⟩ := walked_of_isValid hp
  obtain ⟨s', hs', hflaws⟩ := hadmits id ((trail_taskBody_sublist hp ht).2.subset hid)
  obtain rfl := Option.some.inj (hs'.symm.trans hs)
  exact ⟨hs, hflaws⟩

-- ---------------------------------------------------------------------------
-- Dimensions
-- ---------------------------------------------------------------------------

theorem nodeFlaws_eq_nil {node : NodeId} : p.nodeFlaws node = [] ↔ p.storage.contains node := by
  unfold nodeFlaws
  split <;> simp_all

/-- The dimensions that validity has in mind and those that the analyses work with agree. -/
theorem taskDimensions_of_admits {task : StmtId} {kind : TaskKind} {container : Option NodeId}
    {body : Block} (hs : p.stmt? task = some (.task kind container body))
    (hadmits : p.Admits task) :
    ∃ dimensions, p.ownedDimensions? (.task kind container body) = some dimensions ∧
      p.taskDimensions task = .ok dimensions.toNat := by
  obtain ⟨s, hs', hflaws⟩ := hadmits
  obtain rfl := Option.some.inj (hs'.symm.trans hs)
  obtain ⟨_, hnodes, hform⟩ := stmtFlaws_eq_nil.mp hflaws
  have hrequire : p.requireStmt task = .ok (.task kind container body) := by
    simp [requireStmt, hs]
  cases kind with
  | serial => exact ⟨0, rfl, by simp only [taskDimensions, hrequire]; rfl⟩
  | rangeFor => exact ⟨1, rfl, by simp only [taskDimensions, hrequire]; rfl⟩
  | meshFor => exact ⟨1, rfl, by simp only [taskDimensions, hrequire]; rfl⟩
  | structFor =>
    cases container with
    | none => simp [formFlaws] at hform
    | some node =>
      have hcontains := nodeFlaws_eq_nil.mp (hnodes node (by simp [Stmt.nodes]))
      obtain ⟨n, hn⟩ := StorageTree.contains_iff.mp hcontains
      have hnode : p.requireNode node = .ok n := by simp [requireNode, hn]
      refine ⟨n.dimensions, by simp [ownedDimensions?, StorageTree.dimensions?, hn], ?_⟩
      simp only [taskDimensions, hrequire]
      show (p.requireNode node >>= fun n => pure n.dimensions.toNat) = .ok n.dimensions.toNat
      rw [hnode]
      rfl

theorem taskDimensions_of_mem_tasks (hp : p.isValid) {task : StmtId} (ht : task ∈ p.tasks) :
    ∃ dimensions, p.taskDimensions task = .ok dimensions := by
  obtain ⟨_, kind, container, body, hs⟩ := mem_tasks.mp ht
  obtain ⟨dimensions, _, h⟩ := taskDimensions_of_admits hs (admits_of_mem_tasks hp ht)
  exact ⟨_, h⟩

theorem dimension_lt (hp : p.isValid) {task id : StmtId} {dimension : UInt64} {dimensions : Nat}
    (ht : task ∈ p.tasks) (hmem : (id, .loopIndex task dimension) ∈ p.taskVisits task)
    (hdim : p.taskDimensions task = .ok dimensions) : dimension.toNat < dimensions := by
  obtain ⟨_, kind, container, body, hs⟩ := mem_tasks.mp ht
  obtain ⟨owned, howned, hdim'⟩ := taskDimensions_of_admits hs (admits_of_mem_tasks hp ht)
  obtain rfl : owned.toNat = dimensions := Except.ok.inj (hdim'.symm.trans hdim)
  obtain ⟨_, hflaws⟩ := stmtFlaws_of_mem_taskVisits hp ht hmem
  obtain ⟨_, _, hform⟩ := stmtFlaws_eq_nil.mp hflaws
  simp only [formFlaws, loopIndexFlaws, hs, Stmt.isLoop, if_true, howned] at hform
  by_contra hge
  rw [if_neg (by rwa [UInt64.lt_iff_toNat_lt])] at hform
  cases hform

end UniqueAccess.Program
