import UniqueAccess.Access.Report
import UniqueAccess.Proofs.Access.Coverage
import UniqueAccess.Proofs.Access.Failure
import UniqueAccess.Proofs.Access.Results

/-!
# Reports

The report on all tasks takes the packed containers of the parallel tasks first, from the cache or
by gathering them, and then goes through all tasks. The report on one task gathers what it shows.
Nothing that fails in the one goes well in the other: a task fails by its containers or by what
keeps it from having any, and a serial task does not fail. So the two agree, and a report that fails
has kept nothing.
-/

namespace UniqueAccess

theorem map_eq_ok {ε α β : Type} {x : Except ε α} {f : α → β} {b : β} :
    f <$> x = .ok b ↔ ∃ a, x = .ok a ∧ f a = b := by
  cases x <;> simp [Functor.map, Except.map]

theorem map_eq_error {ε α β : Type} {x : Except ε α} {f : α → β} {e : ε} :
    f <$> x = .error e ↔ x = .error e := by
  cases x <;> simp [Functor.map, Except.map]

theorem mapM_eq_ok {ε α β : Type} {f : α → Except ε β} {l : List α} {bs : List β} :
    l.mapM f = .ok bs ↔ List.Forall₂ (fun a b => f a = .ok b) l bs := by
  induction l generalizing bs with
  | nil => simp [pure, Except.pure, eq_comm]
  | cons a rest ih =>
    rw [List.mapM_cons, bind_ok, List.forall₂_cons_left_iff]
    constructor
    · rintro ⟨b, hb, h⟩
      obtain ⟨bs', hrest, h⟩ := bind_ok.mp h
      obtain rfl := Except.ok.inj h
      exact ⟨b, bs', hb, ih.mp hrest, rfl⟩
    · rintro ⟨b, bs', hb, hrest, rfl⟩
      exact ⟨b, hb, bind_ok.mpr ⟨bs', ih.mpr hrest, rfl⟩⟩

theorem mem_of_mapM_ok {ε α β : Type} {f : α → Except ε β} {l : List α} {bs : List β}
    (h : l.mapM f = .ok bs) {b : β} : b ∈ bs ↔ ∃ a ∈ l, f a = .ok b := by
  have hpairs := mapM_eq_ok.mp h
  clear h
  induction hpairs with
  | nil => simp
  | cons ha _ ih => simp [ih, ha, eq_comm]

theorem exists_of_mapM_ok {ε α β : Type} {f : α → Except ε β} {l : List α} {bs : List β}
    (h : l.mapM f = .ok bs) {a : α} (ha : a ∈ l) : ∃ b, f a = .ok b := by
  have hpairs := mapM_eq_ok.mp h
  clear h
  induction hpairs with
  | nil => cases ha
  | cons hfirst _ ih =>
    rcases List.mem_cons.mp ha with rfl | ha
    · exact ⟨_, hfirst⟩
    · exact ih ha

theorem exists_mapM_ok {ε α β : Type} {f : α → Except ε β} {l : List α}
    (h : ∀ a ∈ l, ∃ b, f a = .ok b) : ∃ bs, l.mapM f = .ok bs := by
  cases hl : l.mapM f with
  | ok bs => exact ⟨bs, rfl⟩
  | error e =>
    obtain ⟨done, a, rest, rfl, _, ha⟩ := mapM_eq_error.mp hl
    obtain ⟨b, hb⟩ := h a (by simp)
    cases ha.symm.trans hb

theorem mapM_congr {ε α β : Type} {f g : α → Except ε β} {l : List α}
    (h : ∀ a ∈ l, f a = g a) : l.mapM f = l.mapM g := by
  induction l with
  | nil => rfl
  | cons a rest ih =>
    obtain ⟨ha, hrest⟩ := List.forall_mem_cons.mp h
    rw [List.mapM_cons, List.mapM_cons, ha, ih hrest]

namespace Program

variable {p : Program} {o : AliasOracle} {task : StmtId} {e : AccessError}

-- ---------------------------------------------------------------------------
-- One task
-- ---------------------------------------------------------------------------

theorem requireTaskKind_eq_ok {kind : TaskKind} :
    p.requireTaskKind task = .ok kind ↔
      ∃ container body, p.stmt? task = some (.task kind container body) := by
  rw [requireTaskKind, bind_ok]
  constructor
  · rintro ⟨s, hs, h⟩
    cases s with
    | task =>
      obtain rfl := Except.ok.inj h
      exact ⟨_, _, requireStmt_eq_ok.mp hs⟩
    | _ => cases h
  · rintro ⟨container, body, hs⟩
    exact ⟨_, requireStmt_eq_ok.mpr hs, rfl⟩

def shownContainers (p : Program) (o : AliasOracle) (task : StmtId) :
    TaskKind → Except AccessError (Option AccessMap)
  | .serial => .ok none
  | _ => some <$> p.packedContainers o task

def taskReport (p : Program) (o : AliasOracle) (task : StmtId) : Except AccessError TaskReport := do
  let kind ← p.requireTaskKind task
  let packed ← p.shownContainers o task kind
  p.reportTask o packed task

theorem packedContainers_of_error (h : p.uniquePointers o task = .error e) :
    p.packedContainers o task = .error e :=
  bind_error.mpr (.inl h)

/-- Which of the two is asked first, pointers or containers, makes no difference: no containers are
found without the pointers. -/
theorem reportOn_eq : p.reportOn o task = (fun t => ⟨[t]⟩) <$> p.taskReport o task := by
  unfold reportOn taskReport reportTask
  cases hkind : p.requireTaskKind task with
  | error e => rfl
  | ok kind =>
    cases hpointers : p.uniquePointers o task with
    | error e =>
      have hpacked := packedContainers_of_error hpointers
      cases kind <;> simp only [shownContainers, hpacked] <;> rfl
    | ok m =>
      cases hpacked : p.packedContainers o task <;> cases hdim : p.taskDimensions task <;>
        cases kind <;> simp only [shownContainers, hpacked] <;> rfl

theorem reportOn_eq_ok {r : AccessReport} :
    p.reportOn o task = .ok r ↔ ∃ t, p.taskReport o task = .ok t ∧ ⟨[t]⟩ = r := by
  rw [reportOn_eq, map_eq_ok]

theorem reportOn_eq_error : p.reportOn o task = .error e ↔ p.taskReport o task = .error e := by
  rw [reportOn_eq, map_eq_error]

theorem exists_reportOn_iff :
    (∃ r, p.reportOn o task = .ok r) ↔ ∃ t, p.taskReport o task = .ok t := by
  simp only [reportOn_eq_ok]
  exact ⟨fun ⟨_, t, ht, _⟩ => ⟨t, ht⟩, fun ⟨t, ht⟩ => ⟨_, t, ht, rfl⟩⟩

theorem reportTask_eq_ok {packed : Option AccessMap} {t : TaskReport} :
    p.reportTask o packed task = .ok t ↔ ∃ m kind dimensions, p.uniquePointers o task = .ok m ∧
      p.requireTaskKind task = .ok kind ∧ p.taskDimensions task = .ok dimensions ∧
      ⟨task, kind, dimensions, p.accessEntries m, packed.map p.accessEntries⟩ = t := by
  unfold reportTask
  constructor
  · intro h
    obtain ⟨m, hm, h⟩ := bind_ok.mp h
    obtain ⟨kind, hkind, h⟩ := bind_ok.mp h
    obtain ⟨dimensions, hdim, h⟩ := bind_ok.mp h
    exact ⟨m, kind, dimensions, hm, hkind, hdim, Except.ok.inj h⟩
  · rintro ⟨m, kind, dimensions, hm, hkind, hdim, rfl⟩
    exact bind_ok.mpr ⟨m, hm, bind_ok.mpr ⟨kind, hkind, bind_ok.mpr ⟨dimensions, hdim, rfl⟩⟩⟩

-- ---------------------------------------------------------------------------
-- Parallel tasks
-- ---------------------------------------------------------------------------

def namedContainers (p : Program) (o : AliasOracle) (task : StmtId) :
    Except AccessError (StmtId × AccessMap) := do
  return (task, ← p.packedContainers o task)

theorem namedContainers_eq_ok {entry : StmtId × AccessMap} :
    p.namedContainers o task = .ok entry ↔
      task = entry.1 ∧ p.packedContainers o task = .ok entry.2 := by
  unfold namedContainers
  cases p.packedContainers o task <;>
    simp [bind, Except.bind, pure, Except.pure, Prod.ext_iff]

theorem namedContainers_eq_error :
    p.namedContainers o task = .error e ↔ p.packedContainers o task = .error e := by
  unfold namedContainers
  cases p.packedContainers o task <;> simp [bind, Except.bind, pure, Except.pure]

theorem packedAccess_eq_ok {packed : PackedAccess} (h : p.packedAccess o = .ok packed) :
    ∃ entries, p.parallelTasks.mapM (p.namedContainers o) = .ok entries ∧
      .ofList entries = packed := by
  obtain ⟨entries, hentries, h⟩ := bind_ok.mp h
  exact ⟨entries, hentries, Except.ok.inj h⟩

theorem exists_packedContainers {packed : PackedAccess} (h : p.packedAccess o = .ok packed)
    (ht : task ∈ p.parallelTasks) : ∃ m, p.packedContainers o task = .ok m := by
  obtain ⟨entries, hentries, _⟩ := packedAccess_eq_ok h
  obtain ⟨entry, hentry⟩ := exists_of_mapM_ok hentries ht
  exact ⟨entry.2, (namedContainers_eq_ok.mp hentry).2⟩

theorem get?_packedAccess {packed : PackedAccess} (h : p.packedAccess o = .ok packed)
    {m : AccessMap} :
    packed.get? task = some m ↔ task ∈ p.parallelTasks ∧ p.packedContainers o task = .ok m := by
  obtain ⟨entries, hentries, rfl⟩ := packedAccess_eq_ok h
  have hkept {m : AccessMap} (hm : (OrderedMap.ofList entries).get? task = some m) :
      task ∈ p.parallelTasks ∧ p.packedContainers o task = .ok m := by
    obtain ⟨_, ht, hnamed⟩ := (mem_of_mapM_ok hentries).mp (OrderedMap.mem_of_get?_ofList hm)
    obtain ⟨rfl, hcontainers⟩ := namedContainers_eq_ok.mp hnamed
    exact ⟨ht, hcontainers⟩
  refine ⟨hkept, fun ⟨ht, hm⟩ => ?_⟩
  have hnamed : p.namedContainers o task = .ok (task, m) := namedContainers_eq_ok.mpr ⟨rfl, hm⟩
  have hmem := (mem_of_mapM_ok hentries).mpr ⟨task, ht, hnamed⟩
  obtain ⟨m', hm'⟩ := OrderedMap.exists_get?_ofList (List.mem_map_of_mem (f := Prod.fst) hmem)
  obtain rfl := Except.ok.inj ((hkept hm').2.symm.trans hm)
  exact hm'

theorem packedAccess_eq_error (h : p.packedAccess o = .error e) :
    ∃ done task rest, p.tasks = done ++ task :: rest ∧
      (∀ t ∈ done, t ∈ p.parallelTasks → ∃ m, p.packedContainers o t = .ok m) ∧
      task ∈ p.parallelTasks ∧ p.packedContainers o task = .error e := by
  rcases bind_error.mp h with h | ⟨_, _, h⟩
  · obtain ⟨done, task, rest, hparallel, hdone, h⟩ := mapM_eq_error.mp h
    -- Between the parallel tasks stand serial ones.
    obtain ⟨first, second, htasks, hfirst, hsecond⟩ := List.filter_eq_append_iff.mp hparallel
    obtain ⟨serial, rest', rfl, hserial, _, _⟩ := List.filter_eq_cons_iff.mp hsecond
    refine ⟨first ++ serial, task, rest', by simp [htasks], fun t ht hmem => ?_, ?_,
      namedContainers_eq_error.mp h⟩
    · have hparallel := (List.mem_filter.mp hmem).2
      rcases List.mem_append.mp ht with ht | ht
      · have hin : t ∈ done := hfirst ▸ List.mem_filter.mpr ⟨ht, hparallel⟩
        obtain ⟨entry, hentry⟩ := hdone t hin
        exact ⟨entry.2, (namedContainers_eq_ok.mp hentry).2⟩
      · exact absurd hparallel (hserial t ht)
    · simp [hparallel]
  · cases h

-- ---------------------------------------------------------------------------
-- All tasks
-- ---------------------------------------------------------------------------

theorem taskReport_eq_bind {kind : TaskKind} (hkind : p.requireTaskKind task = .ok kind) :
    p.taskReport o task =
      p.shownContainers o task kind >>= fun packed => p.reportTask o packed task := by
  rw [taskReport, hkind]
  rfl

theorem shownContainers_of_ne_serial {kind : TaskKind} (hkind : kind ≠ .serial) :
    p.shownContainers o task kind = some <$> p.packedContainers o task := by
  cases kind with
  | serial => exact absurd rfl hkind
  | _ => rfl

theorem isDataParallel_iff {kind : TaskKind} : kind.isDataParallel ↔ kind ≠ .serial := by
  cases kind <;> simp [TaskKind.isDataParallel]

theorem exists_requireTaskKind (ht : task ∈ p.tasks) :
    ∃ kind, p.requireTaskKind task = .ok kind ∧ (task ∈ p.parallelTasks ↔ kind ≠ .serial) := by
  obtain ⟨_, kind, container, body, hs⟩ := mem_tasks.mp ht
  refine ⟨kind, requireTaskKind_eq_ok.mpr ⟨container, body, hs⟩, ?_⟩
  rw [mem_parallelTasks, and_iff_right ht, ← isDataParallel_iff]
  constructor
  · rintro ⟨kind', container', body', hs', hparallel⟩
    cases hs.symm.trans hs'
    exact hparallel
  · exact fun hparallel => ⟨kind, container, body, hs, hparallel⟩

theorem taskReport_eq {packed : PackedAccess} (h : p.packedAccess o = .ok packed)
    (ht : task ∈ p.tasks) :
    p.taskReport o task = p.reportTask o (packed.get? task) task := by
  obtain ⟨kind, hkind, hparallel⟩ := exists_requireTaskKind ht
  rw [taskReport_eq_bind hkind]
  by_cases hserial : kind = .serial
  · subst hserial
    have hnone : packed.get? task = none := by
      refine Option.eq_none_iff_forall_ne_some.mpr fun m hm => ?_
      exact hparallel.mp ((get?_packedAccess h).mp hm).1 rfl
    rw [hnone]
    rfl
  · have hmem := hparallel.mpr hserial
    obtain ⟨m, hm⟩ := exists_packedContainers h hmem
    rw [shownContainers_of_ne_serial hserial, hm, (get?_packedAccess h).mpr ⟨hmem, hm⟩]
    rfl

theorem exists_taskReport (ht : task ∈ p.tasks)
    (h : task ∈ p.parallelTasks → ∃ m, p.packedContainers o task = .ok m) :
    ∃ t, p.taskReport o task = .ok t := by
  obtain ⟨kind, hkind, hparallel⟩ := exists_requireTaskKind ht
  rw [taskReport_eq_bind hkind]
  by_cases hserial : kind = .serial
  · subst hserial
    obtain ⟨container, body, hs⟩ := requireTaskKind_eq_ok.mp hkind
    have hdim : p.taskDimensions task = .ok 0 :=
      bind_ok.mpr ⟨_, requireStmt_eq_ok.mpr hs, rfl⟩
    obtain ⟨m, hm, _⟩ := uniquePointers_ok o hdim
    exact ⟨_, reportTask_eq_ok.mpr ⟨m, _, _, hm, hkind, hdim, rfl⟩⟩
  · obtain ⟨c, hc⟩ := h (hparallel.mpr hserial)
    obtain ⟨m, hm, _⟩ := bind_ok.mp hc
    obtain ⟨dimensions, hdim, _⟩ := bind_ok.mp hm
    rw [shownContainers_of_ne_serial hserial, hc]
    exact ⟨_, reportTask_eq_ok.mpr ⟨m, _, _, hm, hkind, hdim, rfl⟩⟩

theorem taskReport_of_error (ht : task ∈ p.parallelTasks)
    (h : p.packedContainers o task = .error e) : p.taskReport o task = .error e := by
  obtain ⟨kind, hkind, hparallel⟩ := exists_requireTaskKind (mem_tasks_of_mem_parallelTasks ht)
  rw [taskReport_eq_bind hkind, shownContainers_of_ne_serial (hparallel.mp ht), h]
  rfl

theorem reportWith_eq {packed : PackedAccess} (h : p.packedAccess o = .ok packed) :
    p.reportWith o packed = AccessReport.mk <$> p.tasks.mapM (p.taskReport o) := by
  rw [mapM_congr fun task ht => taskReport_eq h ht]
  rfl

theorem exists_reportWith {packed : PackedAccess} (h : p.packedAccess o = .ok packed) :
    ∃ r, p.reportWith o packed = .ok r := by
  obtain ⟨ts, hts⟩ := exists_mapM_ok fun task ht =>
    exists_taskReport (o := o) ht fun hparallel => exists_packedContainers h hparallel
  exact ⟨⟨ts⟩, by rw [reportWith_eq h, hts]; rfl⟩

variable {π : Type} [PassFamily π] [DecidableEq π] {c : ResultCache (AnyPass π)}

/-- Kept containers are used as they are. Others are gathered, and kept only if that goes well. -/
theorem report_cases (p : Program) (o : AliasOracle) (c : ResultCache (AnyPass π)) :
    (∃ packed, c.get? .packedAccess = some packed ∧ p.report o c = (p.reportWith o packed, c)) ∨
    (c.get? .packedAccess = none ∧
      ∃ e, p.packedAccess o = .error e ∧ p.report o c = (.error e, c)) ∨
    (c.get? .packedAccess = none ∧ ∃ packed r, p.packedAccess o = .ok packed ∧
      p.reportWith o packed = .ok r ∧ p.report o c = (.ok r, c.put .packedAccess packed)) := by
  cases hc : c.get? .packedAccess with
  | some packed =>
    refine .inl ⟨packed, rfl, ?_⟩
    rw [report, ResultCache.getOrCompute_of_some hc]
    rfl
  | none =>
    cases h : p.packedAccess o with
    | error e =>
      refine .inr (.inl ⟨rfl, e, rfl, ?_⟩)
      rw [report, ResultCache.getOrCompute_of_error hc h]
      rfl
    | ok packed =>
      obtain ⟨r, hr⟩ := exists_reportWith h
      refine .inr (.inr ⟨rfl, packed, r, rfl, hr, ?_⟩)
      rw [report, ResultCache.getOrCompute_of_ok hc h, ← hr]
      rfl

theorem report_fst (hc : c.get? .packedAccess = none) :
    (p.report o c).1 = AccessReport.mk <$> p.tasks.mapM (p.taskReport o) := by
  rcases p.report_cases o c with ⟨_, hkept, _⟩ | ⟨_, e, h, hreport⟩ | ⟨_, packed, r, h, hr, hreport⟩
  · cases hkept.symm.trans hc
  · obtain ⟨done, task, rest, htasks, hdone, hparallel, htask⟩ := packedAccess_eq_error h
    have hfails : p.tasks.mapM (p.taskReport o) = .error e := by
      refine mapM_eq_error.mpr ⟨done, task, rest, htasks, fun t ht => ?_,
        taskReport_of_error hparallel htask⟩
      exact exists_taskReport (by simp [htasks, ht]) (hdone t ht)
    rw [hreport, hfails]
    rfl
  · rw [hreport, ← reportWith_eq h, hr]

theorem taskReport_eq_ok {t : TaskReport} (h : p.taskReport o task = .ok t) :
    t.task = task ∧ p.requireTaskKind task = .ok t.kind ∧
      (t.packed = none ↔ t.kind = .serial) := by
  obtain ⟨kind, hkind, h⟩ := bind_ok.mp h
  obtain ⟨packed, hpacked, h⟩ := bind_ok.mp h
  obtain ⟨_, kind', _, _, hkind', _, rfl⟩ := reportTask_eq_ok.mp h
  obtain rfl := Except.ok.inj (hkind.symm.trans hkind')
  refine ⟨rfl, hkind, ?_⟩
  by_cases hserial : kind = .serial
  · subst hserial
    obtain rfl := Except.ok.inj hpacked
    simp
  · rw [shownContainers_of_ne_serial hserial] at hpacked
    obtain ⟨m, _, hpacked⟩ := bind_ok.mp hpacked
    obtain rfl := Except.ok.inj hpacked
    simp [hserial]

theorem text_eq_join (ts : List TaskReport) :
    AccessReport.text ⟨ts⟩ = String.join (ts.map fun t => AccessReport.text ⟨[t]⟩) := by
  induction ts with
  | nil => rfl
  | cons t rest ih =>
    rw [List.map_cons, String.join_cons, ← ih]
    simp [AccessReport.text, String.join_append]

/-- With no containers kept, the report on all tasks is made of the reports on each of them, and
fails where the first of those does. -/
theorem report_agrees (p : Program) (o : AliasOracle) (hc : c.get? .packedAccess = none) :
    ((∃ r, (p.report o c).1 = .ok r) ↔ ∀ task ∈ p.tasks, ∃ r, p.reportOn o task = .ok r) ∧
    (∀ r, (p.report o c).1 = .ok r →
      List.Forall₂ (fun task t => p.reportOn o task = .ok ⟨[t]⟩ ∧ t.task = task ∧
        (t.packed = none ↔ ∃ container body, p.stmt? task = some (.task .serial container body)))
        p.tasks r.tasks ∧
      r.text = String.join (r.tasks.map fun t => AccessReport.text ⟨[t]⟩)) ∧
    ∀ e, (p.report o c).1 = .error e ↔ ∃ done task rest, p.tasks = done ++ task :: rest ∧
      (∀ t ∈ done, ∃ r, p.reportOn o t = .ok r) ∧ p.reportOn o task = .error e := by
  simp only [report_fst hc, exists_reportOn_iff, reportOn_eq_error, map_eq_ok, map_eq_error]
  refine ⟨⟨?_, ?_⟩, ?_, fun e => mapM_eq_error⟩
  · rintro ⟨_, ts, hts, _⟩ task ht
    exact exists_of_mapM_ok hts ht
  · intro h
    obtain ⟨ts, hts⟩ := exists_mapM_ok h
    exact ⟨_, ts, hts, rfl⟩
  · rintro _ ⟨ts, hts, rfl⟩
    refine ⟨(mapM_eq_ok.mp hts).imp fun task t ht => ?_, text_eq_join ts⟩
    obtain ⟨htask, hkind, hpacked⟩ := taskReport_eq_ok ht
    refine ⟨reportOn_eq_ok.mpr ⟨t, ht, rfl⟩, htask, hpacked.trans ?_⟩
    rw [← requireTaskKind_eq_ok, hkind]
    simp

/-- A task over a range that reads a field of a bit-struct, and a serial task in it that does too. -/
def pairProgram : Program where
  version := currentVersion
  storage := ⟨#[
    { id := ⟨0⟩, kind := .root },
    { id := ⟨1⟩, kind := .bitStruct, parent := some ⟨0⟩ },
    { id := ⟨2⟩, kind := .place, parent := some ⟨1⟩, isBitLevel := true }]⟩
  stmts := #[
    .task .rangeFor none [⟨1⟩, ⟨2⟩, ⟨3⟩],
    .loopIndex ⟨0⟩ 0,
    .globalPtr [⟨2⟩] [⟨1⟩],
    .task .serial none [⟨4⟩],
    .globalPtr [⟨2⟩] []]
  root := [⟨0⟩]

def outerReport : TaskReport :=
  ⟨⟨0⟩, .rangeFor, 1, [⟨⟨2⟩, "S2:place", some ⟨2⟩⟩], some [⟨⟨1⟩, "S1:bit_struct", some ⟨2⟩⟩]⟩

def innerReport : TaskReport := ⟨⟨3⟩, .serial, 0, [⟨⟨2⟩, "S2:place", some ⟨4⟩⟩], none⟩

theorem pairProgram_reported :
    (ResultCache.empty : ResultCache (AnyPass Empty)).get? .packedAccess = none ∧
      (pairProgram.report pairProgram.structuralOracle
        (.empty : ResultCache (AnyPass Empty))).1 = .ok ⟨[outerReport, innerReport]⟩ := by
  have hempty : (ResultCache.empty : ResultCache (AnyPass Empty)).get? .packedAccess = none := rfl
  have htasks : pairProgram.tasks = [⟨0⟩, ⟨3⟩] := by decide +kernel
  have houter : pairProgram.reportOn pairProgram.structuralOracle ⟨0⟩ = .ok ⟨[outerReport]⟩ := by
    decide +kernel
  have hinner : pairProgram.reportOn pairProgram.structuralOracle ⟨3⟩ = .ok ⟨[innerReport]⟩ := by
    decide +kernel
  obtain ⟨hsucceeds, hmade, _⟩ := report_agrees pairProgram pairProgram.structuralOracle hempty
  obtain ⟨⟨ts⟩, hr⟩ := hsucceeds.mpr (by simp [htasks, houter, hinner])
  have hts := (hmade _ hr).1
  rw [htasks, List.forall₂_cons_left_iff] at hts
  obtain ⟨first, rest, ⟨hfirst, _⟩, hrest, rfl⟩ := hts
  rw [List.forall₂_cons_left_iff] at hrest
  obtain ⟨second, rest, ⟨hsecond, _⟩, hrest, rfl⟩ := hrest
  obtain rfl := List.forall₂_nil_left_iff.mp hrest
  cases houter.symm.trans hfirst
  cases hinner.symm.trans hsecond
  exact ⟨hempty, hr⟩

-- ---------------------------------------------------------------------------
-- The cache
-- ---------------------------------------------------------------------------

theorem gatherPacked_cases (p : Program) (o : AliasOracle) (c : ResultCache (AnyPass π)) :
    (∃ e, p.packedAccess o = .error e ∧ p.gatherPacked o c = (.error e, c)) ∨
      ∃ packed, p.packedAccess o = .ok packed ∧
        p.gatherPacked o c = (.ok (), c.put .packedAccess packed) := by
  unfold gatherPacked
  cases p.packedAccess o with
  | error e => exact .inl ⟨e, rfl, rfl⟩
  | ok packed => exact .inr ⟨packed, rfl, rfl⟩

/-- What fails leaves the cache as it was. A report that goes well keeps the containers of the
program if none were kept; gathering them by themselves replaces those that were. -/
theorem report_atomic (p : Program) (o : AliasOracle) (c : ResultCache (AnyPass π)) :
    (∀ e, (p.report o c).1 = .error e → (p.report o c).2 = c) ∧
    (∀ r, (p.report o c).1 = .ok r →
      ((∃ packed, c.get? .packedAccess = some packed) ∧ (p.report o c).2 = c) ∨
        (c.get? .packedAccess = none ∧ ∃ packed, p.packedAccess o = .ok packed ∧
          c.Gains .packedAccess packed (p.report o c).2)) ∧
    (∀ e, (p.gatherPacked o c).1 = .error e → (p.gatherPacked o c).2 = c) ∧
    ((p.gatherPacked o c).1 = .ok () → ∃ packed, p.packedAccess o = .ok packed ∧
      c.Gains .packedAccess packed (p.gatherPacked o c).2) := by
  have hgains (packed : PackedAccess) := c.gains_put .packedAccess packed
  refine ⟨fun e he => ?_, fun r hr => ?_, fun e he => ?_, fun hok => ?_⟩
  · rcases p.report_cases o c with ⟨_, _, hreport⟩ | ⟨_, _, _, hreport⟩ | ⟨_, _, _, _, _, hreport⟩
    · rw [hreport]
    · rw [hreport]
    · rw [hreport] at he
      cases he
  · rcases p.report_cases o c with ⟨packed, hkept, hreport⟩ | ⟨_, _, _, hreport⟩ |
      ⟨hc, packed, _, h, _, hreport⟩
    · exact .inl ⟨⟨packed, hkept⟩, by rw [hreport]⟩
    · rw [hreport] at hr
      cases hr
    · rw [hreport]
      exact .inr ⟨hc, packed, h, hgains packed⟩
  · rcases p.gatherPacked_cases o c with ⟨_, _, hgather⟩ | ⟨_, _, hgather⟩
    · rw [hgather]
    · rw [hgather] at he
      cases he
  · rcases p.gatherPacked_cases o c with ⟨_, _, hgather⟩ | ⟨packed, h, hgather⟩
    · rw [hgather] at hok
      cases hok
    · rw [hgather]
      exact ⟨packed, h, hgains packed⟩

end Program

end UniqueAccess
