import UniqueAccess.Proofs.Access.Packed

/-!
# How the analyses fail

A task fails by what is wrong with it or with the storage node it runs over, whichever oracle is
used. Folding its fields can fail in three more ways: a field is not in the tree, has a flag and no
container, or shares a container with a field that is accessed at another number of indices. No
lookup of a representative fails, because every representative is a pointer of the task. In a valid
program only the last two remain.
-/

namespace UniqueAccess

theorem bind_error {ε α β : Type} {x : Except ε α} {f : α → Except ε β} {e : ε} :
    x >>= f = .error e ↔ x = .error e ∨ ∃ a, x = .ok a ∧ f a = .error e := by
  cases x <;> simp [bind, Except.bind]

theorem mapM_eq_error {ε α β : Type} {f : α → Except ε β} {l : List α} {e : ε} :
    l.mapM f = .error e ↔ ∃ done a rest, l = done ++ a :: rest ∧
      (∀ a ∈ done, ∃ b, f a = .ok b) ∧ f a = .error e := by
  constructor
  · intro h
    induction l with
    | nil => cases h
    | cons a rest ih =>
      rw [List.mapM_cons] at h
      rcases bind_error.mp h with ha | ⟨b, ha, h⟩
      · exact ⟨[], a, rest, rfl, nofun, ha⟩
      · rcases bind_error.mp h with hrest | ⟨_, _, h⟩
        · obtain ⟨done, a', rest', rfl, hdone, ha'⟩ := ih hrest
          exact ⟨a :: done, a', rest', rfl, List.forall_mem_cons.mpr ⟨⟨b, ha⟩, hdone⟩, ha'⟩
        · cases h
  · rintro ⟨done, a, rest, rfl, hdone, ha⟩
    induction done with
    | nil => simp [ha, bind, Except.bind]
    | cons a' done ih =>
      obtain ⟨⟨b, ha'⟩, hdone⟩ := List.forall_mem_cons.mp hdone
      rw [List.cons_append, List.mapM_cons]
      exact bind_error.mpr (.inr ⟨b, ha', bind_error.mpr (.inl (ih hdone))⟩)

theorem foldlM_eq_error {ε α β : Type} {f : β → α → Except ε β} {l : List α} {b : β} {e : ε} :
    l.foldlM f b = .error e ↔
      ∃ done a rest b', l = done ++ a :: rest ∧ done.foldlM f b = .ok b' ∧ f b' a = .error e := by
  constructor
  · intro h
    induction l generalizing b with
    | nil => cases h
    | cons a rest ih =>
      rw [List.foldlM_cons] at h
      rcases bind_error.mp h with ha | ⟨b₁, hb₁, h⟩
      · exact ⟨[], a, rest, b, rfl, rfl, ha⟩
      · obtain ⟨done, a', rest', b', rfl, hdone, ha'⟩ := ih h
        refine ⟨a :: done, a', rest', b', rfl, ?_, ha'⟩
        rw [List.foldlM_cons]
        exact bind_ok.mpr ⟨b₁, hb₁, hdone⟩
  · rintro ⟨done, a, rest, b', rfl, hdone, ha⟩
    rw [List.foldlM_append]
    refine bind_error.mpr (.inr ⟨b', hdone, ?_⟩)
    rw [List.foldlM_cons]
    exact bind_error.mpr (.inl ha)

namespace Program

variable {p : Program} {o : AliasOracle} {task : StmtId} {e : AccessError}

-- ---------------------------------------------------------------------------
-- Tasks
-- ---------------------------------------------------------------------------

inductive TaskFailure (p : Program) (task : StmtId) : AccessError → Prop where
  | stmtMissing (hs : p.stmt? task = none) : TaskFailure p task (.stmtMissing task)
  | notATask {s : Stmt} (hs : p.stmt? task = some s) (hkind : s.isTask = false) :
      TaskFailure p task (.notATask task)
  | containerMissing {body : Block} (hs : p.stmt? task = some (.task .structFor none body)) :
      TaskFailure p task (.containerMissing task)
  | nodeMissing {container : NodeId} {body : Block}
      (hs : p.stmt? task = some (.task .structFor (some container) body))
      (hnode : p.storage.get? container = none) : TaskFailure p task (.nodeMissing container)

theorem requireStmt_eq_error {id : StmtId} :
    p.requireStmt id = .error e ↔ p.stmt? id = none ∧ e = .stmtMissing id := by
  unfold requireStmt
  cases p.stmt? id <;> simp [eq_comm]

theorem requireNode_eq_error {id : NodeId} :
    p.requireNode id = .error e ↔ p.storage.get? id = none ∧ e = .nodeMissing id := by
  unfold requireNode
  cases p.storage.get? id <;> simp [eq_comm]

theorem taskDimensions_eq_error : p.taskDimensions task = .error e ↔ p.TaskFailure task e := by
  constructor
  · intro h
    rcases bind_error.mp h with h | ⟨s, hs, h⟩
    · obtain ⟨hs, rfl⟩ := requireStmt_eq_error.mp h
      exact .stmtMissing hs
    · have hs := requireStmt_eq_ok.mp hs
      cases s with
      | task kind container body =>
        cases kind with
        | serial => cases h
        | rangeFor => cases h
        | meshFor => cases h
        | structFor =>
          cases container with
          | none =>
            obtain rfl := Except.error.inj h
            exact .containerMissing hs
          | some container =>
            rcases bind_error.mp h with h | ⟨n, _, h⟩
            · obtain ⟨hnode, rfl⟩ := requireNode_eq_error.mp h
              exact .nodeMissing hs hnode
            · cases h
      | _ =>
        obtain rfl := Except.error.inj h
        exact .notATask hs rfl
  · intro h
    refine bind_error.mpr ?_
    cases h with
    | stmtMissing hs => exact .inl (requireStmt_eq_error.mpr ⟨hs, rfl⟩)
    | @notATask s hs hkind =>
      refine .inr ⟨s, requireStmt_eq_ok.mpr hs, ?_⟩
      cases s with
      | task kind container body => cases hkind
      | _ => rfl
    | containerMissing hs => exact .inr ⟨_, requireStmt_eq_ok.mpr hs, rfl⟩
    | nodeMissing hs hnode =>
      have hnode := requireNode_eq_error.mpr ⟨hnode, rfl⟩
      exact .inr ⟨_, requireStmt_eq_ok.mpr hs, bind_error.mpr (.inl hnode)⟩

theorem uniquePointers_eq_error : p.uniquePointers o task = .error e ↔ p.TaskFailure task e := by
  rw [← taskDimensions_eq_error]
  refine ⟨fun h => ?_, fun h => bind_error.mpr (.inl h)⟩
  rcases bind_error.mp h with h | ⟨dimensions, hdim, _⟩
  · exact h
  · obtain ⟨m, hok, _⟩ := uniquePointers_ok o hdim
    cases h.symm.trans hok

-- ---------------------------------------------------------------------------
-- Fields
-- ---------------------------------------------------------------------------

inductive FieldFailure (p : Program) (task : StmtId) : AccessError → Prop where
  | nodeMissing {field : NodeId} {ptr : StmtId} {indices : List StmtId}
      (hleads : p.LeadsTo task field ptr indices) (hnode : p.storage.get? field = none) :
      FieldFailure p task (.nodeMissing field)
  | orphan {field : NodeId} {ptr : StmtId} {indices : List StmtId}
      (hleads : p.LeadsTo task field ptr indices) (hflag : p.storage.isBitLevel field)
      (hnone : p.storage.container? field = none) : FieldFailure p task (.orphanField field)
  | arityMismatch {container : NodeId} {a b : StmtId} {x y : List StmtId}
      (ha : p.LeadsInto task container a x) (hb : p.LeadsInto task container b y)
      (hlength : x.length ≠ y.length) :
      FieldFailure p task (.arityMismatch container a b x.length y.length)

theorem packedInto_error {node : NodeId} (h : p.packedInto node = .error e) :
    p.storage.get? node = none ∧ e = .nodeMissing node ∨
      p.storage.isBitLevel node ∧ p.storage.container? node = none ∧ e = .orphanField node := by
  rcases bind_error.mp h with h | ⟨n, hn, h⟩
  · exact .inl (requireNode_eq_error.mp h)
  · have hn := requireNode_eq_ok.mp hn
    split at h
    · next hflag =>
      split at h
      · cases h
      · next hnone =>
        obtain rfl := Except.error.inj h
        exact .inr ⟨by simp [StorageTree.isBitLevel, hn, hflag], hnone, rfl⟩
    · cases h

theorem compareFields_error {container : NodeId} {r field : StmtId} {x y : List StmtId}
    (hx : p.indices? r = some x) (hy : p.indices? field = some y)
    (h : p.compareFields o container r field = .error e) :
    x.length ≠ y.length ∧ e = .arityMismatch container r field x.length y.length := by
  rcases bind_error.mp h with h | ⟨y', hy', h⟩
  · cases h.symm.trans (requireIndices_eq_ok.mpr hy)
  obtain rfl : y' = y := Except.ok.inj (hy'.symm.trans (requireIndices_eq_ok.mpr hy))
  rcases bind_error.mp h with h | ⟨x', hx', h⟩
  · cases h.symm.trans (requireIndices_eq_ok.mpr hx)
  obtain rfl : x' = x := Except.ok.inj (hx'.symm.trans (requireIndices_eq_ok.mpr hx))
  by_cases hlength : y'.length = x'.length
  · simp only [hlength, ne_eq, not_true, if_false] at h
    split at h <;> cases h
  · simp only [hlength, ne_eq, not_false_eq_true, if_true] at h
    obtain rfl := Except.error.inj h
    exact ⟨Ne.symm hlength, rfl⟩

theorem judgeField_error {c : AccessMap} {container : NodeId} {entry : Option StmtId}
    (h : p.judgeField o c container entry = .error e) :
    ∃ r field, c.get? container = some (some r) ∧ entry = some field ∧
      p.compareFields o container r field = .error e := by
  unfold judgeField at h
  split at h
  · cases h
  · next r field hr => exact ⟨r, field, hr, rfl, h⟩
  · cases h

theorem PackedReflects.recordField_error {c m : AccessMap} {dimensions : Nat}
    {done : List (NodeId × Option StmtId)} {access : NodeId × Option StmtId}
    (hm : p.Reflects o task dimensions m (p.accesses task)) (hc : p.PackedReflects o c done)
    (hdone : ∀ a ∈ done, m.get? a.1 = some a.2) (haccess : m.get? access.1 = some access.2)
    (h : p.recordField o c access = .error e) : p.FieldFailure task e := by
  rcases bind_error.mp h with h | ⟨container, hpacked, h⟩
  · obtain ⟨ptr, indices, hleads⟩ := hm.exists_entry_iff.mp ⟨_, haccess⟩
    rcases packedInto_error h with ⟨hnode, rfl⟩ | ⟨hflag, hnone, rfl⟩
    · exact .nodeMissing hleads hnode
    · exact .orphan hleads hflag hnone
  cases container with
  | none => cases h
  | some container =>
    rcases bind_error.mp h with h | ⟨verdict, _, h⟩
    · obtain ⟨r, ptr, hr, hptr, h⟩ := judgeField_error h
      -- The container has its representative from an earlier field, so that both are pointers.
      obtain ⟨field, hfield, hin⟩ := mem_fieldsOf.mp (hc.representative hr).1
      obtain ⟨⟨x, hx, _⟩, _⟩ := hm.representative (hdone _ hfield)
      obtain ⟨⟨y, hy, _⟩, _⟩ := hm.representative (haccess.trans (congrArg some hptr))
      obtain ⟨hlength, rfl⟩ :=
        compareFields_error (indices?_of_leadsTo hx) (indices?_of_leadsTo hy) h
      have hin' := (packedInto_eq_ok hpacked container).mpr rfl
      exact .arityMismatch ⟨field, hx, hin⟩ ⟨access.1, hy, hin'⟩ hlength
    · cases h

theorem packedContainers_error (h : p.packedContainers o task = .error e) :
    p.TaskFailure task e ∨ p.FieldFailure task e := by
  rcases bind_error.mp h with h | ⟨m, hok, h⟩
  · exact .inl (uniquePointers_eq_error.mp h)
  obtain ⟨dimensions, hdim, _⟩ := bind_ok.mp hok
  obtain ⟨m', hok', hm⟩ := uniquePointers_ok o hdim
  obtain rfl : m' = m := Except.ok.inj (hok'.symm.trans hok)
  obtain ⟨done, access, rest, c, hentries, hdone, h⟩ := foldlM_eq_error.mp h
  have hempty : p.PackedReflects o .empty [] := fun _ => rfl
  have hc : p.PackedReflects o c done := by simpa using hempty.foldlM_recordField hdone
  have hentry : ∀ a ∈ done ++ access :: rest, m'.get? a.1 = some a.2 := fun a ha =>
    (m'.mem_entries_iff a.1 a.2).mp (hentries ▸ ha)
  exact .inr (hc.recordField_error hm (fun a ha => hentry a (by simp [ha]))
    (hentry access (by simp)) h)

theorem packedAccess_error (h : p.packedAccess o = .error e) :
    ∃ task ∈ p.parallelTasks, p.TaskFailure task e ∨ p.FieldFailure task e := by
  rcases bind_error.mp h with h | ⟨_, _, h⟩
  · obtain ⟨done, task, rest, htasks, _, h⟩ := mapM_eq_error.mp h
    rcases bind_error.mp h with h | ⟨_, _, h⟩
    · exact ⟨task, by simp [htasks], packedContainers_error h⟩
    · cases h
  · cases h

-- ---------------------------------------------------------------------------
-- Valid programs
-- ---------------------------------------------------------------------------

theorem not_taskFailure (hp : p.isValid) (ht : task ∈ p.tasks) : ¬ p.TaskFailure task e := by
  intro h
  obtain ⟨dimensions, hdim⟩ := taskDimensions_of_mem_tasks hp ht
  cases hdim.symm.trans (taskDimensions_eq_error.mpr h)

theorem LeadsTo.exists_node (hp : p.isValid) (ht : task ∈ p.tasks) {node : NodeId} {ptr : StmtId}
    {indices : List StmtId} (h : p.LeadsTo task node ptr indices) :
    ∃ n, p.storage.get? node = some n := by
  obtain ⟨candidates, hmem, hnode⟩ := h
  obtain ⟨_, hflaws⟩ := stmtFlaws_of_mem_taskVisits hp ht hmem
  exact StorageTree.contains_iff.mp
    (nodeFlaws_eq_nil.mp ((stmtFlaws_eq_nil.mp hflaws).2.1 node hnode))

theorem FieldFailure.of_isValid (hp : p.isValid) (ht : task ∈ p.tasks)
    (h : p.FieldFailure task e) :
    (∃ field, e = .orphanField field) ∨
      ∃ container a b arity arity', e = .arityMismatch container a b arity arity' := by
  cases h with
  | nodeMissing hleads hnode =>
    obtain ⟨n, hn⟩ := hleads.exists_node hp ht
    cases hnode.symm.trans hn
  | orphan => exact .inl ⟨_, rfl⟩
  | arityMismatch => exact .inr ⟨_, _, _, _, _, rfl⟩

/-- No analysis of any program asks for dimensions that are not set, or for the indices of what is
not a pointer. In a valid program the nodes that a task accesses are always found, and folding them
stops only at a flagged field without a container or at two numbers of indices. -/
theorem failures_limited (p : Program) (o : AliasOracle) :
    (∀ e, (∃ task, p.uniquePointers o task = .error e) ∨
        (∃ task, p.packedContainers o task = .error e) ∨ p.packedAccess o = .error e →
      (∀ task, e ≠ .dimensionsUnset task) ∧ ∀ stmt, e ≠ .notAPointer stmt) ∧
    (p.isValid →
      (∀ e, p.packedAccess o = .error e → (∃ field, e = .orphanField field) ∨
        ∃ container a b arity arity', e = .arityMismatch container a b arity arity') ∧
      ∀ task ∈ p.tasks, ∃ m, p.uniquePointers o task = .ok m) := by
  refine ⟨fun e h => ?_, fun hp => ⟨fun e h => ?_, fun task ht => ?_⟩⟩
  · have hcause : ∃ task, p.TaskFailure task e ∨ p.FieldFailure task e := by
      rcases h with ⟨task, h⟩ | ⟨task, h⟩ | h
      · exact ⟨task, .inl (uniquePointers_eq_error.mp h)⟩
      · exact ⟨task, packedContainers_error h⟩
      · obtain ⟨task, _, h⟩ := packedAccess_error h
        exact ⟨task, h⟩
    obtain ⟨task, h | h⟩ := hcause
    · cases h <;> exact ⟨nofun, nofun⟩
    · cases h <;> exact ⟨nofun, nofun⟩
  · obtain ⟨task, ht, h⟩ := packedAccess_error h
    have ht := mem_tasks_of_mem_parallelTasks ht
    rcases h with h | h
    · exact absurd h (not_taskFailure hp ht)
    · exact h.of_isValid hp ht
  · obtain ⟨dimensions, hdim⟩ := taskDimensions_of_mem_tasks hp ht
    obtain ⟨m, hok, _⟩ := uniquePointers_ok o hdim
    exact ⟨m, hok⟩

/-- A task over a range with pointers to two fields of a bit-struct, at `i` and at `i, i`. -/
def raggedProgram : Program where
  version := currentVersion
  storage := ⟨#[
    { id := ⟨0⟩, kind := .root },
    { id := ⟨1⟩, kind := .bitStruct, parent := some ⟨0⟩ },
    { id := ⟨2⟩, kind := .place, parent := some ⟨1⟩, isBitLevel := true },
    { id := ⟨3⟩, kind := .place, parent := some ⟨1⟩, isBitLevel := true }]⟩
  stmts := #[
    .task .rangeFor none [⟨1⟩, ⟨2⟩, ⟨3⟩],
    .loopIndex ⟨0⟩ 0,
    .globalPtr [⟨2⟩] [⟨1⟩],
    .globalPtr [⟨3⟩] [⟨1⟩, ⟨1⟩]]
  root := [⟨0⟩]

theorem raggedProgram_fails : ∃ e, raggedProgram.packedAccess raggedProgram.structuralOracle =
      .error e ∧ e = .arityMismatch ⟨1⟩ ⟨2⟩ ⟨3⟩ 1 2 ∧
      (∀ task, e ≠ .dimensionsUnset task) ∧
      ((∃ field, e = .orphanField field) ∨
        ∃ container a b arity arity', e = .arityMismatch container a b arity arity') ∧
      ∃ m, raggedProgram.uniquePointers raggedProgram.structuralOracle ⟨0⟩ = .ok m := by
  have hvalid : raggedProgram.isValid :=
    isValid_iff.mpr ⟨by decide, [⟨0⟩, ⟨1⟩, ⟨2⟩, ⟨3⟩], trail?_eq_some.mp (by decide +kernel),
      by decide, by decide⟩
  have htask : (⟨0⟩ : StmtId) ∈ raggedProgram.tasks := by decide +kernel
  have herror : raggedProgram.packedAccess raggedProgram.structuralOracle =
      .error (.arityMismatch ⟨1⟩ ⟨2⟩ ⟨3⟩ 1 2) := by decide +kernel
  obtain ⟨hnever, hvalidOnly⟩ := failures_limited raggedProgram raggedProgram.structuralOracle
  obtain ⟨honly, hfound⟩ := hvalidOnly hvalid
  exact ⟨_, herror, rfl, (hnever _ (.inr (.inr herror))).1, honly _ herror, hfound _ htask⟩

end Program

end UniqueAccess
