import UniqueAccess.Proofs.Access.Coverage
import UniqueAccess.Proofs.Access.Rules

/-!
# Addresses that cover all dimensions

An address counts as unique if one of its indices is `full`, or if its indices are tagged with as
many dimensions as the task has. In a valid program no tag names a dimension that the task does not
have, so that as many dimensions are all of them.
-/

namespace UniqueAccess

variable {dimensions : Nat} {tags : List (Option LoopTag)} {f : LoopFacts} {x y : List StmtId}

theorem length_coveredDimensions_iff (hlt : ∀ d, some (.along d) ∈ tags → d < dimensions) :
    (coveredDimensions tags).length = dimensions ↔ ∀ d < dimensions, some (.along d) ∈ tags := by
  have hnodup : (coveredDimensions tags).Nodup := nodup_eraseDups _
  simp only [← mem_coveredDimensions] at hlt ⊢
  constructor
  · intro hlen d hd
    exact mem_of_length_eq hnodup hlt hlen hd
  · intro hall
    have hperm : (coveredDimensions tags).Perm (List.range dimensions) := by
      rw [List.perm_ext_iff_of_nodup hnodup List.nodup_range]
      intro d
      rw [List.mem_range]
      exact ⟨hlt d, hall d⟩
    simpa using hperm.length_eq

namespace LoopFacts

/-- One of the values tells all iterations apart, or each dimension is told apart by one of them. -/
def Covers (f : LoopFacts) (dimensions : Nat) (values : List StmtId) : Prop :=
  (∃ x ∈ values, f.tag? x = some .full) ∨
    ∀ d < dimensions, ∃ x ∈ values, f.tag? x = some (.along d)

instance (f : LoopFacts) (dimensions : Nat) (values : List StmtId) :
    Decidable (f.Covers dimensions values) :=
  inferInstanceAs (Decidable (_ ∨ _))

theorem Covers.mono (hsub : x ⊆ y) (h : f.Covers dimensions x) : f.Covers dimensions y := by
  rcases h with ⟨i, hi, hfull⟩ | hall
  · exact .inl ⟨i, hsub hi, hfull⟩
  · refine .inr fun d hd => ?_
    obtain ⟨i, hi, htag⟩ := hall d hd
    exact ⟨i, hsub hi, htag⟩

theorem isUniqueAddress_iff_covers
    (hlt : ∀ id d, f.tag? id = some (.along d) → d < dimensions) :
    isUniqueAddress (x.map f.tag?) dimensions ↔ f.Covers dimensions x := by
  have htags : ∀ d, some (.along d) ∈ x.map f.tag? → d < dimensions := by
    intro d hd
    obtain ⟨i, _, htag⟩ := List.mem_map.mp hd
    exact hlt i d htag
  simp only [isUniqueAddress, Bool.or_eq_true, beq_iff_eq, length_coveredDimensions_iff htags,
    List.contains_iff_mem, List.mem_map, Covers]

end LoopFacts

namespace Program

variable {p : Program} {task id : StmtId} {tag : LoopTag}

theorem HasTag.dimension_lt (hp : p.isValid) (ht : task ∈ p.tasks)
    (hdim : p.taskDimensions task = .ok dimensions) (h : p.HasTag task id tag) :
    ∀ d, tag = .along d → d < dimensions := by
  induction h with
  | loopIndex hs =>
    rintro d ⟨⟩
    exact Program.dimension_lt hp ht hs hdim
  | loopUnique => exact nofun
  | neg _ _ ih => exact ih
  | left _ _ _ _ ih => exact ih
  | right _ _ _ _ ih => exact ih

/-- In a task of a valid program all tags are along dimensions of the task, and an address is unique
exactly if its indices cover them all. More indices, in any order, cover no less. -/
theorem uniqueAddress_iff_covers (hp : p.isValid) (ht : task ∈ p.tasks) :
    ∃ dimensions, p.taskDimensions task = .ok dimensions ∧
      (∀ id d, (p.loopFacts task).tag? id = some (.along d) → d < dimensions) ∧
      (∀ ptr candidates indices, (ptr, .globalPtr candidates indices) ∈ p.taskVisits task →
        ∃ unique, p.isUniquePtr task (p.loopFacts task) (some dimensions) ptr = .ok unique ∧
          (unique = true ↔ (p.loopFacts task).Covers dimensions indices)) ∧
      ∀ indices indices' : List StmtId, indices ⊆ indices' →
        isUniqueAddress (indices.map (p.loopFacts task).tag?) dimensions →
        isUniqueAddress (indices'.map (p.loopFacts task).tag?) dimensions := by
  obtain ⟨dimensions, hdim⟩ := taskDimensions_of_mem_tasks hp ht
  have hlt : ∀ id d, (p.loopFacts task).tag? id = some (.along d) → d < dimensions :=
    fun id d htag => (justifies_loopFacts.tag htag).dimension_lt hp ht hdim d rfl
  refine ⟨dimensions, hdim, hlt, ?_, ?_⟩
  · intro ptr candidates indices hptr
    exact ⟨_, isUniquePtr_eq _ (stmt?_of_mem_taskVisits hptr),
      LoopFacts.isUniqueAddress_iff_covers hlt⟩
  · intro indices indices' hsub hunique
    rw [LoopFacts.isUniqueAddress_iff_covers hlt] at hunique ⊢
    exact hunique.mono hsub

/-- A task over a grid with pointers at `i, 1 - j` and at `i, i + 1`. -/
def plateProgram : Program where
  version := currentVersion
  storage := ⟨#[
    { id := ⟨0⟩, kind := .root },
    { id := ⟨1⟩, kind := .dense, parent := some ⟨0⟩, dimensions := 2 },
    { id := ⟨2⟩, kind := .place, parent := some ⟨1⟩ }]⟩
  stmts := #[
    .task .structFor (some ⟨1⟩) [⟨1⟩, ⟨2⟩, ⟨3⟩, ⟨4⟩, ⟨5⟩, ⟨6⟩, ⟨7⟩],
    .loopIndex ⟨0⟩ 0,
    .loopIndex ⟨0⟩ 1,
    .const (.i32 1),
    .binary .add ⟨1⟩ ⟨3⟩,
    .binary .sub ⟨3⟩ ⟨2⟩,
    .globalPtr [⟨2⟩] [⟨1⟩, ⟨5⟩],
    .globalPtr [⟨2⟩] [⟨1⟩, ⟨4⟩]]
  root := [⟨0⟩]

/-- The first pointer has a unique address, also with `i + 1` before its indices and these turned
round; the second has two indices, but both are along one dimension. -/
theorem platePointers_cover :
    plateProgram.isUniquePtr ⟨0⟩ (plateProgram.loopFacts ⟨0⟩) (some 2) ⟨6⟩ = .ok true ∧
      plateProgram.isUniquePtr ⟨0⟩ (plateProgram.loopFacts ⟨0⟩) (some 2) ⟨7⟩ = .ok false ∧
      isUniqueAddress ([⟨4⟩, ⟨5⟩, ⟨1⟩].map (plateProgram.loopFacts ⟨0⟩).tag?) 2 := by
  have hvalid : plateProgram.isValid :=
    isValid_iff.mpr ⟨by decide, [⟨0⟩, ⟨1⟩, ⟨2⟩, ⟨3⟩, ⟨4⟩, ⟨5⟩, ⟨6⟩, ⟨7⟩],
      trail?_eq_some.mp (by decide +kernel), by decide, by decide⟩
  have htask : (⟨0⟩ : StmtId) ∈ plateProgram.tasks := by decide +kernel
  obtain ⟨dimensions, hdim, _, hpointers, hmore⟩ := uniqueAddress_iff_covers hvalid htask
  obtain rfl : 2 = dimensions := Except.ok.inj hdim
  obtain ⟨first, hfirst, hfirst'⟩ := hpointers ⟨6⟩ [⟨2⟩] [⟨1⟩, ⟨5⟩] (by decide +kernel)
  obtain ⟨second, hsecond, hsecond'⟩ := hpointers ⟨7⟩ [⟨2⟩] [⟨1⟩, ⟨4⟩] (by decide +kernel)
  obtain rfl : first = true := hfirst'.mpr (by decide +kernel)
  obtain rfl : second = false := by
    rw [Bool.eq_false_iff, Ne, hsecond']
    decide +kernel
  exact ⟨hfirst, hsecond, hmore [⟨1⟩, ⟨5⟩] _ (by decide) (by decide +kernel)⟩

end Program

end UniqueAccess
