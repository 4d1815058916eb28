import UniqueAccess.Proofs.Program.Order
import UniqueAccess.Proofs.Program.Places

/-!
# Statements and their tasks

In a valid program every statement has at most one owner, and so the tasks around it stand inside
one another. A task-local walk goes from a task down to the next tasks and no further: what it meets
are the statements whose innermost task it is.
-/

namespace UniqueAccess.Program

open List (Sublist)
open Relation (ReflTransGen TransGen)

variable {p : Program} {task owner owner' outer id : StmtId}

-- ---------------------------------------------------------------------------
-- Owners
-- ---------------------------------------------------------------------------

theorem owns_everything_iff :
    p.Owns .everything owner id ↔ ∃ s, p.stmt? owner = some s ∧ ∃ b ∈ s.blocks, id ∈ b := by
  simp only [Owns, nested_everything, List.mem_flatten]

theorem listedOnce_of_isValid (hp : p.isValid) :
    ∀ id, p.Reachable id → ∃! place, p.ListsAt place id := by
  obtain ⟨hl, hnodup, _⟩ := walked_of_isValid hp
  exact hl.nodup_iff.mp hnodup

theorem Under.of_encloses {scope : WalkScope} {b : Block} (h : p.Under scope b outer)
    (hencl : p.Encloses scope outer id) : p.Under scope b id := by
  obtain ⟨top, htop, htopencl⟩ := h
  exact ⟨top, htop, htopencl.trans hencl⟩

theorem owner_unique (hp : p.isValid) (howner : p.Reachable owner) (howner' : p.Reachable owner')
    (howns : p.Owns .everything owner id) (howns' : p.Owns .everything owner' id) :
    owner = owner' := by
  obtain ⟨i, hi⟩ := exists_listsAt_owner howner howns
  obtain ⟨j, hj⟩ := exists_listsAt_owner howner' howns'
  have hplace := (listedOnce_of_isValid hp id (howner.of_encloses (.single howns))).unique hi hj
  exact Option.some.inj (congrArg Prod.fst hplace)

/-- What is around a statement is its owner or around its owner. -/
theorem transGen_owns_iff (hp : p.isValid) (houter : p.Reachable outer)
    (howner : p.Reachable owner) (howns : p.Owns .everything owner id) :
    TransGen (p.Owns .everything) outer id ↔
      outer = owner ∨ TransGen (p.Owns .everything) outer owner := by
  constructor
  · intro h
    obtain ⟨owner', hencl, howns'⟩ := TransGen.tail'_iff.mp h
    obtain rfl := owner_unique hp (houter.of_encloses hencl) howner howns' howns
    rcases Relation.reflTransGen_iff_eq_or_transGen.mp hencl with rfl | h
    · exact .inl rfl
    · exact .inr h
  · rintro (rfl | h)
    · exact .single howns
    · exact h.tail howns

-- ---------------------------------------------------------------------------
-- Tasks
-- ---------------------------------------------------------------------------

theorem reachable_iff_mem_trail (hp : p.isValid) :
    p.Reachable id ↔ id ∈ p.trail .everything p.root :=
  (walked_of_isValid hp).1.mem_iff.symm

/-- The root leads to the statement, and it is a task. -/
structure HasTask (p : Program) (task : StmtId) : Prop where
  reachable : p.Reachable task
  isTask : ∃ kind container body, p.stmt? task = some (.task kind container body)

theorem mem_tasks_iff (hp : p.isValid) : task ∈ p.tasks ↔ p.HasTask task := by
  rw [mem_tasks, ← reachable_iff_mem_trail hp]
  exact ⟨fun h => ⟨h.1, h.2⟩, fun h => ⟨h.reachable, h.isTask⟩⟩

theorem owns_taskLocal_iff (howner : p.Reachable owner) :
    p.Owns .taskLocal owner id ↔ ¬ p.HasTask owner ∧ p.Owns .everything owner id := by
  constructor
  · rintro ⟨s, hs, hid⟩
    cases s with
    | task => cases hid
    | _ =>
      refine ⟨?_, _, hs, hid⟩
      rintro ⟨_, _, _, _, htask⟩
      cases hs.symm.trans htask
  · rintro ⟨hnot, s, hs, hid⟩
    cases s with
    | task kind container body => exact absurd ⟨howner, kind, container, body, hs⟩ hnot
    | _ => exact ⟨_, hs, hid⟩

theorem mem_taskBody (ht : p.HasTask task) :
    id ∈ p.taskBody task ↔ p.Owns .everything task id := by
  obtain ⟨kind, container, body, hs⟩ := ht.isTask
  rw [taskBody_eq hs]
  constructor
  · intro hid
    exact ⟨_, hs, by simpa [Stmt.blocks] using hid⟩
  · rintro ⟨s, hs', hid⟩
    obtain rfl := Option.some.inj (hs'.symm.trans hs)
    simpa [Stmt.blocks] using hid

/-- The task is around the statement, and none of the tasks inside it is. -/
structure Innermost (p : Program) (task id : StmtId) : Prop where
  hasTask : p.HasTask task
  around : TransGen (p.Owns .everything) task id
  none_between : ∀ inner, p.HasTask inner → TransGen (p.Owns .everything) task inner →
    ¬ TransGen (p.Owns .everything) inner id

/-- The innermost task around a statement is its owner or, if that is not a task, the innermost
task around its owner. -/
theorem innermost_iff (hp : p.isValid) (ht : p.HasTask task) (howner : p.Reachable owner)
    (howns : p.Owns .everything owner id) :
    p.Innermost task id ↔ task = owner ∨ (¬ p.HasTask owner ∧ p.Innermost task owner) := by
  constructor
  · intro h
    rcases (transGen_owns_iff hp ht.reachable howner howns).mp h.around with rfl | haround
    · exact .inl rfl
    · refine .inr ⟨fun howner => h.none_between owner howner haround (.single howns), ht, haround,
        fun inner hinner hbelow hinside => ?_⟩
      exact h.none_between inner hinner hbelow (hinside.tail howns)
  · rintro (rfl | ⟨hnot, h⟩)
    · refine ⟨ht, .single howns, fun inner hinner hbelow hinside => ?_⟩
      have hcycle : TransGen (p.Owns .everything) task task := by
        rcases (transGen_owns_iff hp hinner.reachable howner howns).mp hinside with rfl | hinside
        · exact hbelow
        · exact hbelow.trans hinside
      exact not_owns_itself (listedOnce_of_isValid hp) ht.reachable hcycle
    · refine ⟨ht, h.around.tail howns, fun inner hinner hbelow hinside => ?_⟩
      rcases (transGen_owns_iff hp hinner.reachable howner howns).mp hinside with rfl | hinside
      · exact hnot hinner
      · exact h.none_between inner hinner hbelow hinside

theorem exists_innermost (hp : p.isValid) (ht : p.HasTask task)
    (h : TransGen (p.Owns .everything) task id) : ∃ inner, p.Innermost inner id := by
  induction h with
  | single howns => exact ⟨task, (innermost_iff hp ht ht.reachable howns).mpr (.inl rfl)⟩
  | @tail owner id haround howns ih =>
    have howner : p.Reachable owner := ht.reachable.of_encloses haround.to_reflTransGen
    by_cases htask : p.HasTask owner
    · exact ⟨owner, (innermost_iff hp htask howner howns).mpr (.inl rfl)⟩
    · obtain ⟨inner, h⟩ := ih
      exact ⟨inner, (innermost_iff hp h.hasTask howner howns).mpr (.inr ⟨htask, h⟩)⟩

theorem Innermost.unique {other : StmtId} (hp : p.isValid) (h : p.Innermost task id)
    (hother : p.Innermost other id) : other = task := by
  have ht := h.hasTask
  have haround := h.around
  induction haround with
  | single howns =>
    rcases (innermost_iff hp hother.hasTask ht.reachable howns).mp hother with rfl | ⟨hnot, _⟩
    · rfl
    · exact absurd ht hnot
  | @tail owner id haround howns ih =>
    have howner : p.Reachable owner := ht.reachable.of_encloses haround.to_reflTransGen
    rcases (innermost_iff hp ht howner howns).mp h with rfl | ⟨hnot, h⟩
    · rcases (innermost_iff hp hother.hasTask howner howns).mp hother with rfl | ⟨hnot, _⟩
      · rfl
      · exact absurd ht hnot
    · rcases (innermost_iff hp hother.hasTask howner howns).mp hother with rfl | ⟨_, hother⟩
      · exact absurd hother.hasTask hnot
      · exact ih h hother

-- ---------------------------------------------------------------------------
-- Walks
-- ---------------------------------------------------------------------------

theorem under_taskBody_iff (hp : p.isValid) (ht : p.HasTask task) :
    p.Under .taskLocal (p.taskBody task) id ↔ p.Innermost task id := by
  constructor
  · rintro ⟨top, htop, hencl⟩
    induction hencl with
    | refl => exact (innermost_iff hp ht ht.reachable ((mem_taskBody ht).mp htop)).mpr (.inl rfl)
    | @tail owner id _ howns ih =>
      have howner : p.Reachable owner := ht.reachable.of_encloses ih.around.to_reflTransGen
      obtain ⟨hnot, howns⟩ := (owns_taskLocal_iff howner).mp howns
      exact (innermost_iff hp ht howner howns).mpr (.inr ⟨hnot, ih⟩)
  · intro h
    have haround := h.around
    induction haround with
    | single howns => exact ⟨_, (mem_taskBody ht).mpr howns, .refl⟩
    | @tail owner id haround howns ih =>
      have howner : p.Reachable owner := ht.reachable.of_encloses haround.to_reflTransGen
      rcases (innermost_iff hp ht howner howns).mp h with rfl | ⟨hnot, h⟩
      · exact ⟨id, (mem_taskBody ht).mpr howns, .refl⟩
      · exact (ih h).of_encloses (.single ((owns_taskLocal_iff howner).mpr ⟨hnot, howns⟩))

theorem map_fst_visits {scope : WalkScope} {b : Block}
    (h : ∀ id ∈ p.trail scope b, ∃ s, p.stmt? id = some s) :
    (p.visits scope b).map Prod.fst = p.trail scope b := by
  unfold visits
  generalize p.trail scope b = l at h
  induction l with
  | nil => rfl
  | cons id rest ih =>
    obtain ⟨s, hs⟩ := h id List.mem_cons_self
    have hvisit : p.visit? id = some (id, s) := visit?_eq_some.mpr ⟨rfl, hs⟩
    rw [List.filterMap_cons_some hvisit, List.map_cons,
      ih fun id' hid' => h id' (List.mem_cons_of_mem _ hid')]

theorem map_fst_visits_root (hp : p.isValid) :
    (p.visits .everything p.root).map Prod.fst = p.trail .everything p.root := by
  refine map_fst_visits fun id hid => ?_
  obtain ⟨s, hs, _⟩ := (walked_of_isValid hp).2.2 id hid
  exact ⟨s, hs⟩

theorem trail_taskBody (hp : p.isValid) (ht : p.HasTask task) :
    p.Walked .taskLocal (p.taskBody task) (p.trail .taskLocal (p.taskBody task)) ∧
      Sublist (p.trail .taskLocal (p.taskBody task)) (p.trail .everything p.root) :=
  trail_taskBody_sublist hp ((mem_tasks_iff hp).mpr ht)

theorem map_fst_taskVisits (hp : p.isValid) (ht : p.HasTask task) :
    (p.taskVisits task).map Prod.fst = p.trail .taskLocal (p.taskBody task) := by
  refine map_fst_visits fun id hid => ?_
  obtain ⟨s, hs, _⟩ := (walked_of_isValid hp).2.2 id ((trail_taskBody hp ht).2.subset hid)
  exact ⟨s, hs⟩

theorem tasks_sublist (hp : p.isValid) : Sublist p.tasks (p.trail .everything p.root) := by
  rw [← map_fst_visits_root hp]
  exact List.filter_sublist.map Prod.fst

theorem pair_sublist_trail (hp : p.isValid) (houter : p.Reachable outer)
    (h : TransGen (p.Owns .everything) outer id) :
    Sublist [outer, id] (p.trail .everything p.root) :=
  (walked_of_isValid hp).1.sublist_iff.mpr (.inl ⟨houter, h⟩)

theorem pair_sublist_tasks (hp : p.isValid) (houter : p.HasTask outer) (ht : p.HasTask task)
    (h : TransGen (p.Owns .everything) outer task) : Sublist [outer, task] p.tasks := by
  have hnodup := (walked_of_isValid hp).2.1
  have hpair := pair_sublist_trail hp houter.reachable h
  have hne : outer ≠ task := by
    rintro rfl
    exact not_pair_sublist_swap hnodup hpair hpair
  refine (pair_sublist_or ((mem_tasks_iff hp).mpr houter) ((mem_tasks_iff hp).mpr ht)
    hne).resolve_right fun hswap => ?_
  exact not_pair_sublist_swap hnodup hpair (hswap.trans (tasks_sublist hp))

theorem count_taskVisits (hp : p.isValid) {other : StmtId} (ht : p.HasTask other)
    (h : p.Innermost task id) :
    ((p.taskVisits other).map Prod.fst).count id = if other = task then 1 else 0 := by
  obtain ⟨hwalked, hsub⟩ := trail_taskBody hp ht
  rw [map_fst_taskVisits hp ht]
  split
  · next heq =>
    subst heq
    have hmem := hwalked.mem_iff.mpr ((under_taskBody_iff hp ht).mpr h)
    exact List.count_eq_one_of_mem ((walked_of_isValid hp).2.1.sublist hsub) hmem
  · next hne =>
    refine List.count_eq_zero_of_not_mem fun hmem => hne ?_
    exact h.unique hp ((under_taskBody_iff hp ht).mp (hwalked.mem_iff.mp hmem))

/-- To own something is to have a block that lists it. The walk through everything in a valid
program meets what can be reached once, owners first. The list of tasks has the tasks among it once,
owners first, and the walks through the tasks share out what has a task around it by the innermost
one. -/
theorem task_walks_partition (hp : p.isValid) :
    (∀ owner id, p.Owns .everything owner id ↔
      ∃ s, p.stmt? owner = some s ∧ ∃ b ∈ s.blocks, id ∈ b) ∧
    (∃ l, p.trail? .everything p.root = some l ∧
      (p.visits .everything p.root).map Prod.fst = l ∧ l.Nodup ∧ (∀ id, id ∈ l ↔ p.Reachable id) ∧
      ∀ outer id, p.Reachable outer → TransGen (p.Owns .everything) outer id →
        Sublist [outer, id] l) ∧
    (∀ task, task ∈ p.tasks ↔ p.HasTask task) ∧
    p.tasks.Nodup ∧
    (∀ outer task, p.HasTask outer → p.HasTask task → TransGen (p.Owns .everything) outer task →
      Sublist [outer, task] p.tasks) ∧
    (∀ task, p.HasTask task → ∃ l, p.trail? .taskLocal (p.taskBody task) = some l ∧
      (p.taskVisits task).map Prod.fst = l ∧ ∀ id ∈ l, p.Reachable id) ∧
    ∀ id, p.Reachable id →
      ((∃ task, p.HasTask task ∧ TransGen (p.Owns .everything) task id) →
        ∃ task, p.Innermost task id ∧ ∀ other, p.HasTask other →
          ((p.taskVisits other).map Prod.fst).count id = if other = task then 1 else 0) ∧
      ((¬ ∃ task, p.HasTask task ∧ TransGen (p.Owns .everything) task id) →
        ∀ other, p.HasTask other → ((p.taskVisits other).map Prod.fst).count id = 0) := by
  obtain ⟨hwalked, hnodup, _⟩ := walked_of_isValid hp
  refine ⟨fun _ _ => owns_everything_iff, ⟨_, trail?_eq_some.mpr hwalked, map_fst_visits_root hp,
    hnodup, fun _ => hwalked.mem_iff, fun _ _ => pair_sublist_trail hp⟩,
    fun _ => mem_tasks_iff hp, hnodup.sublist (tasks_sublist hp),
    fun _ _ => pair_sublist_tasks hp, fun task ht => ?_, fun id _ => ⟨?_, ?_⟩⟩
  · obtain ⟨htask, hsub⟩ := trail_taskBody hp ht
    exact ⟨_, trail?_eq_some.mpr htask, map_fst_taskVisits hp ht,
      fun id hid => hwalked.mem_iff.mp (hsub.subset hid)⟩
  · rintro ⟨task, ht, haround⟩
    obtain ⟨inner, hinner⟩ := exists_innermost hp ht haround
    exact ⟨inner, hinner, fun other hother => count_taskVisits hp hother hinner⟩
  · intro hnone other hother
    rw [map_fst_taskVisits hp hother]
    refine List.count_eq_zero_of_not_mem fun hmem => hnone ⟨other, hother, ?_⟩
    have hmet := (trail_taskBody hp hother).1.mem_iff.mp hmem
    exact ((under_taskBody_iff hp hother).mp hmet).around

/-- A constant, a task over a range with a conditional, which holds a serial task, and another
serial task. -/
def layeredProgram : Program where
  version := currentVersion
  storage := ⟨#[]⟩
  stmts := #[
    .const (.i32 1),
    .task .rangeFor none [⟨2⟩, ⟨3⟩],
    .loopIndex ⟨1⟩ 0,
    .branch ⟨0⟩ [] [⟨4⟩],
    .task .serial none [⟨5⟩],
    .const (.i32 2),
    .task .serial none [⟨7⟩],
    .const (.i32 3)]
  root := [⟨0⟩, ⟨1⟩, ⟨6⟩]

/-- The outer walk meets the inner task, but not the constant in it. -/
theorem layeredProgram_shared :
    layeredProgram.isValid ∧ layeredProgram.tasks = [⟨1⟩, ⟨4⟩, ⟨6⟩] ∧
      layeredProgram.HasTask ⟨1⟩ ∧ layeredProgram.HasTask ⟨4⟩ ∧ layeredProgram.HasTask ⟨6⟩ ∧
      Sublist [⟨1⟩, ⟨4⟩] layeredProgram.tasks ∧
      (∃ task, layeredProgram.Innermost task ⟨5⟩ ∧ ∀ other, layeredProgram.HasTask other →
        ((layeredProgram.taskVisits other).map Prod.fst).count ⟨5⟩ =
          if other = task then 1 else 0) ∧
      (layeredProgram.taskVisits ⟨1⟩).map Prod.fst = [⟨2⟩, ⟨3⟩, ⟨4⟩] ∧
      (layeredProgram.taskVisits ⟨4⟩).map Prod.fst = [⟨5⟩] ∧
      (layeredProgram.taskVisits ⟨6⟩).map Prod.fst = [⟨7⟩] := by
  have hvalid : layeredProgram.isValid :=
    isValid_iff.mpr ⟨by decide, [⟨0⟩, ⟨1⟩, ⟨2⟩, ⟨3⟩, ⟨4⟩, ⟨5⟩, ⟨6⟩, ⟨7⟩],
      trail?_eq_some.mp (by decide +kernel), by decide, by decide⟩
  obtain ⟨howns, _, htasks, _, hnested, _, hshared⟩ := task_walks_partition hvalid
  have hlist : layeredProgram.tasks = [⟨1⟩, ⟨4⟩, ⟨6⟩] := by decide +kernel
  have houter : layeredProgram.HasTask ⟨1⟩ := (htasks _).mp (by simp [hlist])
  have hinner : layeredProgram.HasTask ⟨4⟩ := (htasks _).mp (by simp [hlist])
  have hlast : layeredProgram.HasTask ⟨6⟩ := (htasks _).mp (by simp [hlist])
  have hbranch : layeredProgram.Owns .everything ⟨1⟩ ⟨3⟩ := (howns _ _).mpr ⟨_, rfl, by decide⟩
  have hserial : layeredProgram.Owns .everything ⟨3⟩ ⟨4⟩ := (howns _ _).mpr ⟨_, rfl, by decide⟩
  have hconst : layeredProgram.Owns .everything ⟨4⟩ ⟨5⟩ := (howns _ _).mpr ⟨_, rfl, by decide⟩
  have haround : TransGen (layeredProgram.Owns .everything) ⟨1⟩ ⟨4⟩ :=
    (TransGen.single hbranch).tail hserial
  have hreach : layeredProgram.Reachable ⟨5⟩ :=
    houter.reachable.of_encloses (haround.tail hconst).to_reflTransGen
  exact ⟨hvalid, hlist, houter, hinner, hlast, hnested _ _ houter hinner haround,
    (hshared _ hreach).1 ⟨⟨4⟩, hinner, .single hconst⟩, by decide +kernel, by decide +kernel,
    by decide +kernel⟩

end UniqueAccess.Program
