import UniqueAccess.Access.Packed
import UniqueAccess.Proofs.Access.Pointers

/-!
# The representatives of packed containers

The entry of a container is decided by the entries of its accessed fields: the first brings its own,
and every later one must be a representative with the same coordinates. With the structural oracle
all pointers into the fields of a container that has a representative therefore have the same
coordinates within an iteration, and never the same in two iterations.
-/

namespace UniqueAccess

theorem bind_ok {ε α β : Type} {x : Except ε α} {f : α → Except ε β} {b : β} :
    x >>= f = .ok b ↔ ∃ a, x = .ok a ∧ f a = .ok b := by
  cases x <;> simp [bind, Except.bind]

namespace Program

variable {p : Program} {o : AliasOracle} {task : StmtId} {dimensions : Nat}

-- ---------------------------------------------------------------------------
-- Lookups
-- ---------------------------------------------------------------------------

theorem requireStmt_eq_ok {id : StmtId} {s : Stmt} :
    p.requireStmt id = .ok s ↔ p.stmt? id = some s := by
  unfold requireStmt
  cases p.stmt? id <;> simp

theorem requireNode_eq_ok {id : NodeId} {n : StorageNode} :
    p.requireNode id = .ok n ↔ p.storage.get? id = some n := by
  unfold requireNode
  cases p.storage.get? id <;> simp

def indices? (p : Program) (ptr : StmtId) : Option (List StmtId) :=
  (p.stmt? ptr).bind Stmt.ptrIndices?

theorem requireIndices_eq_ok {ptr : StmtId} {indices : List StmtId} :
    p.requireIndices ptr = .ok indices ↔ p.indices? ptr = some indices := by
  rw [requireIndices, bind_ok, indices?, Option.bind_eq_some_iff]
  refine exists_congr fun s => and_congr requireStmt_eq_ok ?_
  cases s.ptrIndices? with
  | none => simp [throw, throwThe, MonadExceptOf.throw]
  | some indices' => simp [pure, Except.pure]

-- ---------------------------------------------------------------------------
-- Fields
-- ---------------------------------------------------------------------------

theorem isBitLevel_iff {node : NodeId} :
    p.storage.isBitLevel node ↔ ∃ n, p.storage.get? node = some n ∧ n.isBitLevel := by
  unfold StorageTree.isBitLevel
  cases p.storage.get? node with
  | none => simp
  | some n => simp

def IsPackedInto (p : Program) (node container : NodeId) : Prop :=
  p.storage.isBitLevel node ∧ p.storage.container? node = some container

instance (p : Program) (node container : NodeId) : Decidable (p.IsPackedInto node container) :=
  inferInstanceAs (Decidable (_ ∧ _))

theorem packedInto_eq_ok {node : NodeId} {container : Option NodeId}
    (h : p.packedInto node = .ok container) (k : NodeId) :
    p.IsPackedInto node k ↔ container = some k := by
  obtain ⟨n, hn, h⟩ := bind_ok.mp h
  have hget := requireNode_eq_ok.mp hn
  have hbit : p.storage.isBitLevel node = n.isBitLevel := by
    simp [StorageTree.isBitLevel, hget]
  unfold IsPackedInto
  rw [hbit]
  split at h
  · next hlevel =>
    split at h
    · next c hc =>
      obtain rfl := Except.ok.inj h
      simp [hlevel, hc]
    · cases h
  · next hlevel =>
    obtain rfl := Except.ok.inj h
    simp [hlevel]

def fieldsOf (p : Program) (container : NodeId) (fields : List (NodeId × Option StmtId)) :
    List (Option StmtId) :=
  (fields.filter fun f => p.IsPackedInto f.1 container).map Prod.snd

theorem mem_fieldsOf {container : NodeId} {fields : List (NodeId × Option StmtId)}
    {entry : Option StmtId} :
    entry ∈ p.fieldsOf container fields ↔
      ∃ node, (node, entry) ∈ fields ∧ p.IsPackedInto node container := by
  simp [fieldsOf]

theorem fieldsOf_append_singleton (container : NodeId) (fields : List (NodeId × Option StmtId))
    (field : NodeId × Option StmtId) :
    p.fieldsOf container (fields ++ [field]) =
      if p.IsPackedInto field.1 container then p.fieldsOf container fields ++ [field.2]
      else p.fieldsOf container fields := by
  by_cases h : p.IsPackedInto field.1 container <;> simp [fieldsOf, h]

def agreesWith (p : Program) (o : AliasOracle) (representative : StmtId) (entry : Option StmtId) :
    Bool :=
  match entry.bind p.indices?, p.indices? representative with
  | some x, some y => x.length == y.length && allSame o.sameValue x y
  | _, _ => false

theorem compareFields_ok {container : NodeId} {m : AccessMap} {r field : StmtId}
    {verdict : FieldVerdict} (h : p.compareFields o container r field = .ok verdict)
    (hm : m.get? container = some (some r)) :
    (m.recordField container (some field) verdict).get? container =
        some ((some r).filter (p.agreesWith o · (some field))) ∧
      ∀ k, k ≠ container → (m.recordField container (some field) verdict).get? k = m.get? k := by
  obtain ⟨x, hx, h⟩ := bind_ok.mp h
  obtain ⟨y, hy, h⟩ := bind_ok.mp h
  have hagrees : p.agreesWith o r (some field) =
      (x.length == y.length && allSame o.sameValue x y) := by
    simp only [agreesWith, Option.bind_some, requireIndices_eq_ok.mp hx,
      requireIndices_eq_ok.mp hy]
  by_cases hlen : x.length = y.length
  · by_cases hall : allSame o.sameValue x y
    · simp only [hlen, hall, ne_eq, not_true, if_false, if_true] at h
      obtain rfl := Except.ok.inj h
      simp [AccessMap.recordField, hm, Option.filter, hagrees, hlen, hall]
    · simp only [hlen, hall, ne_eq, not_true, if_false] at h
      obtain rfl := Except.ok.inj h
      refine ⟨?_, fun k hk => OrderedMap.get?_insert_of_ne m _ hk⟩
      simp [AccessMap.recordField, Option.filter, hagrees, hall]
  · simp only [hlen, ne_eq, not_false_eq_true, if_true] at h
    cases h

theorem judgeField_ok {container : NodeId} {m : AccessMap} {entry : Option StmtId}
    {verdict : FieldVerdict} (h : p.judgeField o m container entry = .ok verdict) :
    (m.recordField container entry verdict).get? container =
        some (nextEntry (fun e => e) (p.agreesWith o) entry (m.get? container)) ∧
      ∀ k, k ≠ container → (m.recordField container entry verdict).get? k = m.get? k := by
  cases hm : m.get? container with
  | none =>
    simp only [judgeField, hm] at h
    obtain rfl := Except.ok.inj h
    exact ⟨by simp [AccessMap.recordField, nextEntry],
      fun k hk => OrderedMap.get?_insert_of_ne m _ hk⟩
  | some current =>
    rcases current with _ | r
    · simp only [judgeField, hm] at h
      obtain rfl := Except.ok.inj h
      exact ⟨by simp [AccessMap.recordField, nextEntry],
        fun k hk => OrderedMap.get?_insert_of_ne m _ hk⟩
    · rcases entry with _ | field
      · simp only [judgeField, hm] at h
        obtain rfl := Except.ok.inj h
        exact ⟨by simp [AccessMap.recordField, nextEntry, Option.filter, agreesWith],
          fun k hk => OrderedMap.get?_insert_of_ne m _ hk⟩
      · simp only [judgeField, hm] at h
        exact compareFields_ok h hm

def PackedReflects (p : Program) (o : AliasOracle) (m : AccessMap)
    (fields : List (NodeId × Option StmtId)) : Prop :=
  ∀ container, m.get? container =
    entryOf (fun e => e) (p.agreesWith o) (p.fieldsOf container fields)

theorem PackedReflects.recordField {m m' : AccessMap} {done : List (NodeId × Option StmtId)}
    {field : NodeId × Option StmtId} (hm : p.PackedReflects o m done)
    (h : p.recordField o m field = .ok m') : p.PackedReflects o m' (done ++ [field]) := by
  intro k
  rw [fieldsOf_append_singleton]
  obtain ⟨container, hpacked, h⟩ := bind_ok.mp h
  have hiff := packedInto_eq_ok hpacked
  cases container with
  | none =>
    obtain rfl := Except.ok.inj h
    rw [if_neg fun hk => nomatch (hiff k).mp hk]
    exact hm k
  | some container =>
    obtain ⟨verdict, hverdict, h⟩ := bind_ok.mp h
    obtain rfl := Except.ok.inj h
    obtain ⟨hself, hother⟩ := judgeField_ok hverdict
    by_cases hk : k = container
    · subst hk
      rw [if_pos ((hiff k).mpr rfl), entryOf_append_singleton, hself, hm k]
    · rw [if_neg fun hin => hk (Option.some.inj ((hiff k).mp hin)).symm, hother k hk, hm k]

theorem PackedReflects.foldlM_recordField {m m' : AccessMap}
    {done todo : List (NodeId × Option StmtId)} (hm : p.PackedReflects o m done)
    (h : todo.foldlM (p.recordField o) m = .ok m') : p.PackedReflects o m' (done ++ todo) := by
  induction todo generalizing m done with
  | nil =>
    obtain rfl := Except.ok.inj h
    simpa using hm
  | cons field rest ih =>
    rw [List.foldlM_cons] at h
    obtain ⟨m₁, hm₁, h⟩ := bind_ok.mp h
    simpa using ih (hm.recordField hm₁) h

theorem packedContainers_eq_ok {c : AccessMap} (h : p.packedContainers o task = .ok c) :
    ∃ m, p.uniquePointers o task = .ok m ∧ p.PackedReflects o c m.entries := by
  obtain ⟨m, hm, h⟩ := bind_ok.mp h
  have hempty : p.PackedReflects o .empty [] := fun _ => rfl
  exact ⟨m, hm, by simpa using hempty.foldlM_recordField h⟩

-- ---------------------------------------------------------------------------
-- Representatives
-- ---------------------------------------------------------------------------

/-- A pointer of a task, with its indices, that may lead to some field of a container. -/
def LeadsInto (p : Program) (task : StmtId) (container : NodeId) (ptr : StmtId)
    (indices : List StmtId) : Prop :=
  ∃ field, p.LeadsTo task field ptr indices ∧ p.IsPackedInto field container

theorem indices?_of_leadsTo {node : NodeId} {ptr : StmtId} {indices : List StmtId}
    (h : p.LeadsTo task node ptr indices) : p.indices? ptr = some indices := by
  obtain ⟨_, hmem, _⟩ := h
  simp [indices?, stmt?_of_mem_taskVisits hmem, Stmt.ptrIndices?]

theorem Reflects.exists_entry_iff {m : AccessMap}
    (hm : p.Reflects o task dimensions m (p.accesses task)) {node : NodeId} :
    (∃ entry, m.get? node = some entry) ↔ ∃ ptr indices, p.LeadsTo task node ptr indices := by
  rw [hm node, exists_entryOf_iff]
  exact exists_congr fun ptr => mem_pointersTo.trans mem_accesses

theorem PackedReflects.representative {c : AccessMap} {fields : List (NodeId × Option StmtId)}
    (hc : p.PackedReflects o c fields) {container : NodeId} {r : StmtId}
    (hr : c.get? container = some (some r)) :
    some r ∈ p.fieldsOf container fields ∧
      ∀ entry ∈ p.fieldsOf container fields, entry = some r ∨ p.agreesWith o r entry := by
  obtain ⟨first, later, hitems, rfl, hlater⟩ := entryOf_eq_some.mp ((hc container).symm.trans hr)
  rw [hitems]
  refine ⟨List.mem_cons_self, fun entry hentry => ?_⟩
  rcases List.mem_cons.mp hentry with rfl | hentry
  · exact .inl rfl
  · exact .inr (hlater entry hentry)

theorem agreesWith_eq_true {r : StmtId} {entry : Option StmtId} (h : p.agreesWith o r entry) :
    ∃ field x y, entry = some field ∧ p.indices? field = some x ∧ p.indices? r = some y ∧
      x.length = y.length ∧ allSame o.sameValue x y := by
  unfold agreesWith at h
  split at h
  · next x y hx hy =>
    obtain ⟨field, rfl, hx⟩ := Option.bind_eq_some_iff.mp hx
    rw [Bool.and_eq_true, beq_iff_eq] at h
    exact ⟨field, x, y, rfl, hx, hy, h⟩
  · cases h

variable {ι ν : Type} {V : Valuation dimensions ι ν} {ops : Operators ν}

theorem PackedReflects.tuple_eq {c m : AccessMap}
    (hm : p.Reflects p.structuralOracle task dimensions m (p.accesses task))
    (hc : p.PackedReflects p.structuralOracle c m.entries) (hV : V.Respects p task ops)
    {container : NodeId} {r ptr : StmtId} {x z : List StmtId}
    (hr : c.get? container = some (some r)) (hz : p.indices? r = some z)
    (hptr : p.LeadsInto task container ptr x) (i : ι) : V.tuple i x = V.tuple i z := by
  obtain ⟨field, hleads, hpacked⟩ := hptr
  obtain ⟨entry, hentry⟩ := hm.exists_entry_iff.mpr ⟨ptr, x, hleads⟩
  have hmem : entry ∈ p.fieldsOf container m.entries :=
    mem_fieldsOf.mpr ⟨field, (m.mem_entries_iff field entry).mpr hentry, hpacked⟩
  -- The entry of the field is a pointer with the coordinates of `r`, and `ptr` holds its address.
  obtain ⟨q, y, rfl, hy, heq⟩ : ∃ q y, entry = some q ∧ p.indices? q = some y ∧
      V.tuple i y = V.tuple i z := by
    rcases (hc.representative hr).2 entry hmem with rfl | hagrees
    · exact ⟨r, z, rfl, hz, rfl⟩
    · obtain ⟨q, y, z', rfl, hy, hz', hlen, hall⟩ := agreesWith_eq_true hagrees
      obtain rfl := Option.some.inj (hz'.symm.trans hz)
      exact ⟨q, y, rfl, hy, map_value_eq (hV.congruent i) hlen hall⟩
  obtain ⟨⟨y', hleads', _⟩, _⟩ := hm.representative hentry
  obtain rfl := Option.some.inj ((indices?_of_leadsTo hleads').symm.trans hy)
  exact (hm.tuple_eq hV hentry hleads' hleads i).trans heq

theorem mem_tasks_of_mem_parallelTasks (h : task ∈ p.parallelTasks) : task ∈ p.tasks :=
  (List.mem_filter.mp h).1

/-- In a valid program, the pointers of a parallel task into any fields of a container with a
representative have one tuple of coordinates within an iteration, and never the same in two. -/
theorem packedContainers_sound (hp : p.isValid) (ht : task ∈ p.parallelTasks) {c : AccessMap}
    (h : p.packedContainers p.structuralOracle task = .ok c) :
    ∃ dimensions, p.taskDimensions task = .ok dimensions ∧
      ∀ container r, c.get? container = some (some r) →
        (∃ z, p.LeadsInto task container r z) ∧
        ∀ {ι ν : Type} (V : Valuation dimensions ι ν) (ops : Operators ν), V.Respects p task ops →
          ∀ a b x y, p.LeadsInto task container a x → p.LeadsInto task container b y →
            (∀ i, V.tuple i x = V.tuple i y) ∧
            ∀ i j, V.iteration i ≠ V.iteration j → V.tuple i x ≠ V.tuple j y := by
  have ht := mem_tasks_of_mem_parallelTasks ht
  obtain ⟨dimensions, hdim⟩ := taskDimensions_of_mem_tasks hp ht
  obtain ⟨m, hok, hm⟩ := uniquePointers_ok p.structuralOracle hdim
  obtain ⟨m', hok', hc⟩ := packedContainers_eq_ok h
  obtain rfl := Except.ok.inj (hok'.symm.trans hok)
  refine ⟨dimensions, hdim, fun container r hr => ?_⟩
  -- The representative is that of the first field.
  obtain ⟨field, hentry, hpacked⟩ := mem_fieldsOf.mp (hc.representative hr).1
  have hentry := (m'.mem_entries_iff field (some r)).mp hentry
  obtain ⟨⟨z, hleads, hunique⟩, _⟩ := hm.representative hentry
  have hz := indices?_of_leadsTo hleads
  refine ⟨⟨z, field, hleads, hpacked⟩, fun V ops hV a b x y ha hb => ⟨fun i => ?_, ?_⟩⟩
  · rw [hc.tuple_eq hm hV hr hz ha i, hc.tuple_eq hm hV hr hz hb i]
  · intro i j hij
    rw [hc.tuple_eq hm hV hr hz ha i, hc.tuple_eq hm hV hr hz hb j]
    exact tuple_ne hp ht hdim hV hunique hij

theorem neighborProgram_packedContainers :
    neighborProgram.packedContainers neighborProgram.structuralOracle ⟨0⟩ =
      .ok (.ofList [(⟨1⟩, some ⟨5⟩)]) := by
  decide +kernel

theorem neighborFields_distinct : ∃ c,
    neighborProgram.packedContainers neighborProgram.structuralOracle ⟨0⟩ = .ok c ∧
      c.get? ⟨1⟩ = some (some ⟨5⟩) ∧
      (∀ i, neighborValuation.tuple i [⟨3⟩] = neighborValuation.tuple i [⟨4⟩]) ∧
      ∀ i j, neighborValuation.iteration i ≠ neighborValuation.iteration j →
        neighborValuation.tuple i [⟨3⟩] ≠ neighborValuation.tuple j [⟨4⟩] := by
  have htask : (⟨0⟩ : StmtId) ∈ neighborProgram.parallelTasks := by decide +kernel
  obtain ⟨dimensions, hdim, hsound⟩ :=
    packedContainers_sound neighborProgram_isValid htask neighborProgram_packedContainers
  obtain rfl : 1 = dimensions := Except.ok.inj hdim
  have hfive : neighborProgram.LeadsInto ⟨0⟩ ⟨1⟩ ⟨5⟩ [⟨3⟩] :=
    ⟨⟨2⟩, ⟨[⟨2⟩], by decide +kernel, by decide⟩, by decide⟩
  have hseven : neighborProgram.LeadsInto ⟨0⟩ ⟨1⟩ ⟨7⟩ [⟨4⟩] :=
    ⟨⟨3⟩, ⟨[⟨3⟩], by decide +kernel, by decide⟩, by decide⟩
  exact ⟨_, neighborProgram_packedContainers, rfl,
    (hsound ⟨1⟩ ⟨5⟩ rfl).2 _ _ neighborValuation_respects ⟨5⟩ ⟨7⟩ [⟨3⟩] [⟨4⟩] hfive hseven⟩

end Program

end UniqueAccess
