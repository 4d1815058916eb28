import UniqueAccess.Proofs.Access.Packed

/-!
# What makes an address unique

An address is unique to its iteration because of what its indices are: where a task has dimensions,
one of them must be known to differ between iterations. A task without dimensions has none to cover,
and every address is unique in it. Serial tasks are such tasks, but so are the parallel ones over a
storage node without dimensions.
-/

namespace UniqueAccess

theorem exists_tag_of_isUniqueAddress {tags : List (Option LoopTag)} {dimensions : Nat}
    (h : isUniqueAddress tags dimensions) (hdim : dimensions ≠ 0) : ∃ tag, some tag ∈ tags := by
  rcases Bool.or_eq_true_iff.mp h with hfull | hcovered
  · exact ⟨.full, by simpa using hfull⟩
  · cases hdims : coveredDimensions tags with
    | nil =>
      rw [hdims] at hcovered
      exact absurd (beq_iff_eq.mp hcovered).symm hdim
    | cons d rest => exact ⟨_, mem_coveredDimensions.mp (hdims ▸ List.mem_cons_self)⟩

namespace Program

variable {p : Program} {o : AliasOracle} {task : StmtId} {dimensions : Nat}

def LacksDimensions (p : Program) (task : StmtId) : Prop :=
  ∃ container node body, p.stmt? task = some (.task .structFor (some container) body) ∧
    p.storage.get? container = some node ∧ node.dimensions = 0

/-- The name is a pointer, and one of its indices is known to differ between iterations. -/
def HasTaggedIndex (p : Program) (task ptr : StmtId) : Prop :=
  ∃ candidates indices, p.stmt? ptr = some (.globalPtr candidates indices) ∧
    ∃ x ∈ indices, ∃ tag, (p.loopFacts task).tag? x = some tag

theorem mem_parallelTasks :
    task ∈ p.parallelTasks ↔ task ∈ p.tasks ∧
      ∃ kind container body, p.stmt? task = some (.task kind container body) ∧
        kind.isDataParallel := by
  rw [parallelTasks, List.mem_filter]
  refine and_congr_right fun _ => ?_
  constructor
  · intro h
    split at h
    · next kind container body hs => exact ⟨kind, container, body, hs, h⟩
    · cases h
  · rintro ⟨kind, container, body, hs, hkind⟩
    rw [hs]
    exact hkind

theorem taskDimensions_ne_zero (hp : p.isValid) (ht : task ∈ p.parallelTasks)
    (hover : ¬ p.LacksDimensions task) (hdim : p.taskDimensions task = .ok dimensions) :
    dimensions ≠ 0 := by
  obtain ⟨htask, kind, container, body, hs, hkind⟩ := mem_parallelTasks.mp ht
  obtain ⟨owned, howned, hdim'⟩ := taskDimensions_of_admits hs (admits_of_mem_tasks hp htask)
  obtain rfl : owned.toNat = dimensions := Except.ok.inj (hdim'.symm.trans hdim)
  rintro hzero
  obtain rfl : owned = 0 := UInt64.toNat_inj.mp hzero
  cases kind with
  | serial => cases hkind
  | rangeFor => cases howned
  | meshFor => cases howned
  | structFor =>
    obtain ⟨node, rfl, hnode⟩ := Option.bind_eq_some_iff.mp howned
    obtain ⟨n, hn, hzero⟩ := Option.map_eq_some_iff.mp hnode
    exact hover ⟨node, n, body, hs, hn, hzero⟩

theorem Reflects.hasTaggedIndex {m : AccessMap}
    (hm : p.Reflects o task dimensions m (p.accesses task)) (hdim : dimensions ≠ 0)
    {node : NodeId} {r : StmtId} (hr : m.get? node = some (some r)) : p.HasTaggedIndex task r := by
  obtain ⟨⟨indices, ⟨candidates, hmem, _⟩, hunique⟩, _⟩ := hm.representative hr
  obtain ⟨tag, htag⟩ := exists_tag_of_isUniqueAddress hunique hdim
  obtain ⟨x, hx, htag⟩ := List.mem_map.mp htag
  exact ⟨candidates, indices, stmt?_of_mem_taskVisits hmem, x, hx, tag, htag⟩

/-- Representatives of nodes and containers have an index that is known to differ between
iterations, in every parallel task that has dimensions, and for every oracle. -/
theorem representatives_tagged (hp : p.isValid) (ht : task ∈ p.parallelTasks)
    (hover : ¬ p.LacksDimensions task) (o : AliasOracle) :
    (∃ m, p.uniquePointers o task = .ok m ∧
      ∀ node r, m.get? node = some (some r) → p.HasTaggedIndex task r) ∧
    ∀ c, p.packedContainers o task = .ok c →
      ∀ container r, c.get? container = some (some r) → p.HasTaggedIndex task r := by
  obtain ⟨dimensions, hdim⟩ := taskDimensions_of_mem_tasks hp (mem_parallelTasks.mp ht).1
  have hne := taskDimensions_ne_zero hp ht hover hdim
  obtain ⟨m, hok, hm⟩ := uniquePointers_ok o hdim
  refine ⟨⟨m, hok, fun node r hr => hm.hasTaggedIndex hne hr⟩, fun c h container r hr => ?_⟩
  obtain ⟨m', hok', hc⟩ := packedContainers_eq_ok h
  obtain rfl := Except.ok.inj (hok'.symm.trans hok)
  -- The representative of a container is that of one of its fields.
  obtain ⟨field, hentry, _⟩ := mem_fieldsOf.mp (hc.representative hr).1
  exact hm.hasTaggedIndex hne ((m'.mem_entries_iff field (some r)).mp hentry)

def gridProgram : Program where
  version := currentVersion
  storage := ⟨#[
    { id := ⟨0⟩, kind := .root },
    { id := ⟨1⟩, kind := .dense, parent := some ⟨0⟩, dimensions := 2 },
    { id := ⟨2⟩, kind := .bitStruct, parent := some ⟨1⟩ },
    { id := ⟨3⟩, kind := .place, parent := some ⟨2⟩, isBitLevel := true }]⟩
  stmts := #[
    .task .structFor (some ⟨1⟩) [⟨1⟩, ⟨2⟩, ⟨3⟩],
    .loopIndex ⟨0⟩ 0,
    .loopIndex ⟨0⟩ 1,
    .globalPtr [⟨3⟩] [⟨2⟩, ⟨1⟩]]
  root := [⟨0⟩]

theorem gridPointer_tagged :
    gridProgram.uniquePointers gridProgram.structuralOracle ⟨0⟩ =
        .ok (.ofList [(⟨3⟩, some ⟨3⟩)]) ∧
      gridProgram.packedContainers gridProgram.structuralOracle ⟨0⟩ =
        .ok (.ofList [(⟨2⟩, some ⟨3⟩)]) ∧
      gridProgram.HasTaggedIndex ⟨0⟩ ⟨3⟩ := by
  have hvalid : gridProgram.isValid :=
    isValid_iff.mpr ⟨by decide, [⟨0⟩, ⟨1⟩, ⟨2⟩, ⟨3⟩], trail?_eq_some.mp (by decide +kernel),
      by decide, by decide⟩
  have htask : (⟨0⟩ : StmtId) ∈ gridProgram.parallelTasks := by decide +kernel
  have hover : ¬ gridProgram.LacksDimensions ⟨0⟩ := by
    rintro ⟨container, node, body, hs, hnode, hzero⟩
    obtain ⟨_, ⟨⟩, _⟩ := Stmt.task.inj (Option.some.inj hs)
    obtain rfl := Option.some.inj hnode
    cases hzero
  have hpointers : gridProgram.uniquePointers gridProgram.structuralOracle ⟨0⟩ =
      .ok (.ofList [(⟨3⟩, some ⟨3⟩)]) := by decide +kernel
  have hpacked : gridProgram.packedContainers gridProgram.structuralOracle ⟨0⟩ =
      .ok (.ofList [(⟨2⟩, some ⟨3⟩)]) := by decide +kernel
  have htagged := representatives_tagged hvalid htask hover gridProgram.structuralOracle
  exact ⟨hpointers, hpacked, htagged.2 _ hpacked ⟨2⟩ ⟨3⟩ rfl⟩

def cellProgram : Program where
  version := currentVersion
  storage := ⟨#[
    { id := ⟨0⟩, kind := .root },
    { id := ⟨1⟩, kind := .place, parent := some ⟨0⟩ }]⟩
  stmts := #[
    .task .structFor (some ⟨1⟩) [⟨1⟩, ⟨2⟩],
    .const (.i32 5),
    .globalPtr [⟨1⟩] [⟨1⟩]]
  root := [⟨0⟩]

theorem cellPointer_untagged :
    cellProgram.isValid ∧ ⟨0⟩ ∈ cellProgram.parallelTasks ∧
      cellProgram.uniquePointers cellProgram.structuralOracle ⟨0⟩ =
        .ok (.ofList [(⟨1⟩, some ⟨2⟩)]) ∧
      ¬ cellProgram.HasTaggedIndex ⟨0⟩ ⟨2⟩ := by
  refine ⟨isValid_iff.mpr ⟨by decide, [⟨0⟩, ⟨1⟩, ⟨2⟩], trail?_eq_some.mp (by decide +kernel),
    by decide, by decide⟩, by decide +kernel, by decide +kernel, ?_⟩
  rintro ⟨candidates, indices, hs, x, hx, tag, htag⟩
  obtain ⟨rfl, rfl⟩ := Stmt.globalPtr.inj (Option.some.inj hs)
  obtain rfl := List.mem_singleton.mp hx
  have hnone : (cellProgram.loopFacts ⟨0⟩).tag? ⟨1⟩ = none := by decide +kernel
  exact nomatch hnone.symm.trans htag

end Program

end UniqueAccess
