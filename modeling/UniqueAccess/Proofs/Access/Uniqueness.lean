import UniqueAccess.Access.Uniqueness
import UniqueAccess.Proofs.Access.Evaluation
import UniqueAccess.Proofs.OrderedMap
import UniqueAccess.Proofs.Program.Validity
import Mathlib.Data.Fin.VecNotation
import Mathlib.Data.Finset.Card
import Mathlib.Data.Nat.Pairing

/-!
# Facts about the values of a task hold

Whatever a walk through a task records of a value holds in every valuation: invariant values are the
same in all instances, a tag `along d` is an injective function of the `d`-th index of the
iteration, a tag `full` differs wherever iterations do. A unique address therefore has an index
that differs.
-/

namespace UniqueAccess

variable {dimensions : Nat} {ι ν : Type} {V : Valuation dimensions ι ν} {p : Program}
  {task : StmtId} {ops : Operators ν}

-- ---------------------------------------------------------------------------
-- Tags
-- ---------------------------------------------------------------------------

namespace LoopTag

def Holds (V : Valuation dimensions ι ν) (id : StmtId) : LoopTag → Prop
  | along d => ∃ (h : d < dimensions) (f : ν → ν),
      Function.Injective f ∧ ∀ i, V.value i id = f (V.iteration i ⟨d, h⟩)
  | full => ∀ i j, V.iteration i ≠ V.iteration j → V.value i id ≠ V.value j id

/-- An injective function of a tagged value has the same tag. The function may depend on values
that are only known where there is an instance at all. -/
theorem Holds.map {x id : StmtId} {tag : LoopTag} (h : tag.Holds V x)
    (hid : ι → ∃ f : ν → ν, Function.Injective f ∧ ∀ i, V.value i id = f (V.value i x)) :
    tag.Holds V id := by
  cases tag with
  | along d =>
    obtain ⟨hd, f, hf, hx⟩ := h
    rcases isEmpty_or_nonempty ι with hempty | ⟨⟨i⟩⟩
    · exact ⟨hd, f, hf, fun i => (hempty.false i).elim⟩
    · obtain ⟨g, hg, hid⟩ := hid i
      exact ⟨hd, g ∘ f, hg.comp hf, fun i => by rw [hid, hx]; rfl⟩
  | full =>
    intro i j hij heq
    obtain ⟨g, hg, hid⟩ := hid i
    rw [hid, hid] at heq
    exact h i j hij (hg heq)

end LoopTag

-- ---------------------------------------------------------------------------
-- Facts
-- ---------------------------------------------------------------------------

namespace LoopFacts

structure Sound (f : LoopFacts) (V : Valuation dimensions ι ν) : Prop where
  invariant : f.isInvariant a → ∀ i j, V.value i a = V.value j a
  tag {t : LoopTag} : f.tag? a = some t → t.Holds V a

variable {f : LoopFacts} {id : StmtId} {s : Stmt}

theorem sound_none : LoopFacts.none.Sound V where
  invariant h := by simp [none, isInvariant] at h
  tag h := by simp [none, tag?] at h

theorem isInvariant_addInvariant {id' : StmtId} :
    (f.addInvariant id).isInvariant id' ↔ id' = id ∨ f.isInvariant id' := by
  simp [addInvariant, isInvariant]

@[simp] theorem isInvariant_addTag {tag : Option LoopTag} :
    (f.addTag id tag).isInvariant = f.isInvariant := by
  cases tag <;> rfl

theorem tag?_addTag {id' : StmtId} {tag : Option LoopTag} :
    (f.addTag id tag).tag? id' = if id' = id then tag.or (f.tag? id') else f.tag? id' := by
  cases tag with
  | none => simp [addTag]
  | some tag =>
    by_cases h : id' = id
    · subst h
      simp [addTag, tag?]
    · simp [addTag, tag?, h, OrderedMap.get?_insert_of_ne]

theorem Sound.addInvariant (hf : f.Sound V) (h : ∀ i j, V.value i id = V.value j id) :
    (f.addInvariant id).Sound V where
  invariant hinv := by
    rcases isInvariant_addInvariant.mp hinv with rfl | hinv
    · exact h
    · exact hf.invariant hinv
  tag htag := hf.tag htag

theorem Sound.addTag {tag : Option LoopTag} (hf : f.Sound V)
    (h : ∀ t, tag = some t → t.Holds V id) : (f.addTag id tag).Sound V where
  invariant hinv := hf.invariant (by simpa using hinv)
  tag {id' t} htag := by
    rw [tag?_addTag] at htag
    split at htag
    · next hid =>
      subst hid
      cases tag with
      | none => exact hf.tag htag
      | some tag => exact h t htag
    · exact hf.tag htag

theorem combinedTag?_eq_some {lhs rhs : StmtId} {tag : LoopTag}
    (h : f.combinedTag? lhs rhs = some tag) :
    (f.tag? lhs = some tag ∧ f.isInvariant rhs) ∨ (f.tag? rhs = some tag ∧ f.isInvariant lhs) := by
  unfold combinedTag? at h
  split at h
  · next htag _ =>
    split at h
    · next hinv => exact .inl ⟨htag.trans h, hinv⟩
    · cases h
  · next _ htag =>
    split at h
    · next hinv => exact .inr ⟨htag.trans h, hinv⟩
    · cases h
  · cases h

theorem isInjectiveInEach_iff {op : BinaryOp} :
    op.isInjectiveInEach ↔ op ∈ [BinaryOp.add, .sub, .bitXor] := by
  cases op <;> simp [BinaryOp.isInjectiveInEach]

theorem Sound.visit (hV : V.Separates p task ops) (hf : f.Sound V) (hs : p.stmt? id = some s)
    (hdim : ∀ k, s = .loopIndex task k → k.toNat < dimensions) : (f.visit task id s).Sound V := by
  cases s with
  | const v => exact hf.addInvariant (hV.const hs)
  | loopIndex owner k =>
    simp only [LoopFacts.visit]
    split
    · next howner =>
      subst howner
      refine hf.addTag fun t ht => ?_
      obtain rfl := Option.some.inj ht
      have hk := hdim k rfl
      exact ⟨hk, fun x => x, fun _ _ h => h, fun i => hV.loopIndex hs hk i⟩
    · exact hf
  | loopUnique x =>
    simp only [LoopFacts.visit]
    refine hf.addTag fun t ht => ?_
    obtain rfl := Option.some.inj ht
    exact hV.loopUnique hs
  | unary op x =>
    have hvalue : ∀ i, V.value i id = ops.unary op (V.value i x) := fun i => (hV.computes i).unary hs
    refine Sound.addTag ?_ fun t ht => ?_
    · split
      · next hinv =>
        exact hf.addInvariant fun i j => by rw [hvalue, hvalue, hf.invariant hinv i j]
      · exact hf
    · cases op <;> simp [UnaryOp.isInjective] at ht
      exact (hf.tag ht).map fun _ => ⟨_, hV.injective.neg, hvalue⟩
  | binary op x y =>
    have hvalue : ∀ i, V.value i id = ops.binary op (V.value i x) (V.value i y) :=
      fun i => (hV.computes i).binary hs
    refine Sound.addTag ?_ fun t ht => ?_
    · split
      · next hinv =>
        rw [Bool.and_eq_true] at hinv
        exact hf.addInvariant fun i j => by
          rw [hvalue, hvalue, hf.invariant hinv.1 i j, hf.invariant hinv.2 i j]
      · exact hf
    · split at ht
      · next hop =>
        have hmem := isInjectiveInEach_iff.mp hop
        -- One operand is invariant, so that the result is an injective function of the other.
        rcases combinedTag?_eq_some ht with ⟨htag, hinv⟩ | ⟨htag, hinv⟩
        · exact (hf.tag htag).map fun j => ⟨_, hV.injective.left hmem (V.value j y),
            fun i => by rw [hvalue, hf.invariant hinv i j]⟩
        · exact (hf.tag htag).map fun j => ⟨_, hV.injective.right hmem (V.value j x),
            fun i => by rw [hvalue, hf.invariant hinv i j]⟩
      · cases ht
  | _ => exact hf

theorem Sound.visitAll (hV : V.Separates p task ops) {visits : List (StmtId × Stmt)}
    (hvisits : ∀ id s, (id, s) ∈ visits →
      p.stmt? id = some s ∧ ∀ k, s = .loopIndex task k → k.toNat < dimensions)
    (hf : f.Sound V) : (f.visitAll task visits).Sound V := by
  induction visits generalizing f with
  | nil => exact hf
  | cons v rest ih =>
    obtain ⟨hs, hdim⟩ := hvisits v.1 v.2 List.mem_cons_self
    exact ih (fun id s hmem => hvisits id s (List.mem_cons_of_mem _ hmem)) (hf.visit hV hs hdim)

end LoopFacts

theorem Program.loopFacts_sound (hp : p.isValid) (ht : task ∈ p.tasks)
    (hdim : p.taskDimensions task = .ok dimensions) (hV : V.Separates p task ops) :
    (p.loopFacts task).Sound V := by
  refine LoopFacts.sound_none.visitAll hV fun id s hmem => ?_
  refine ⟨(stmtFlaws_of_mem_taskVisits hp ht hmem).1, fun k hk => ?_⟩
  subst hk
  exact dimension_lt hp ht hmem hdim

-- ---------------------------------------------------------------------------
-- Addresses
-- ---------------------------------------------------------------------------

theorem mem_coveredDimensions {tags : List (Option LoopTag)} {d : Nat} :
    d ∈ coveredDimensions tags ↔ some (.along d) ∈ tags := by
  simp only [coveredDimensions, List.mem_eraseDups, List.mem_filterMap]
  constructor
  · rintro ⟨tag, hmem, htag⟩
    split at htag
    · obtain rfl := Option.some.inj htag
      exact hmem
    · cases htag
  · exact fun hmem => ⟨_, hmem, rfl⟩

/-- Dimensions that all exist and are as many as there are, are all of them. -/
theorem mem_of_length_eq {l : List Nat} (hnodup : l.Nodup) (hlt : ∀ d ∈ l, d < dimensions)
    (hlen : l.length = dimensions) {d : Nat} (hd : d < dimensions) : d ∈ l := by
  have hsub : l.toFinset ⊆ Finset.range dimensions := fun x hx =>
    Finset.mem_range.mpr (hlt x (List.mem_toFinset.mp hx))
  have hcard : (Finset.range dimensions).card ≤ l.toFinset.card := by
    rw [Finset.card_range, List.toFinset_card_of_nodup hnodup, hlen]
  have heq := Finset.eq_of_subset_of_card_le hsub hcard
  exact List.mem_toFinset.mp (heq ▸ Finset.mem_range.mpr hd)

/-- Where iterations differ, a unique address has an index that differs. -/
theorem exists_value_ne {f : LoopFacts} (hf : f.Sound V) {indices : List StmtId}
    (h : isUniqueAddress (indices.map f.tag?) dimensions) {i j : ι}
    (hij : V.iteration i ≠ V.iteration j) : ∃ x ∈ indices, V.value i x ≠ V.value j x := by
  have htagged : ∀ tag, some tag ∈ indices.map f.tag? → ∃ x ∈ indices, tag.Holds V x := by
    intro tag hmem
    obtain ⟨x, hx, htag⟩ := List.mem_map.mp hmem
    exact ⟨x, hx, hf.tag htag⟩
  rcases Bool.or_eq_true_iff.mp h with hfull | hcovered
  · obtain ⟨x, hx, hholds⟩ := htagged .full (by simpa using hfull)
    exact ⟨x, hx, hholds i j hij⟩
  · obtain ⟨d, hd⟩ := Function.ne_iff.mp hij
    have hmem : d.val ∈ coveredDimensions (indices.map f.tag?) := by
      refine mem_of_length_eq (nodup_eraseDups _) (fun d' hd' => ?_) (beq_iff_eq.mp hcovered) d.isLt
      obtain ⟨_, _, hlt, _⟩ := htagged _ (mem_coveredDimensions.mp hd')
      exact hlt
    obtain ⟨x, hx, _, g, hg, hvalue⟩ := htagged _ (mem_coveredDimensions.mp hmem)
    refine ⟨x, hx, fun heq => hd ?_⟩
    rw [hvalue, hvalue] at heq
    exact hg heq

-- ---------------------------------------------------------------------------
-- All facts of a task
-- ---------------------------------------------------------------------------

namespace Program

/-- In a valid program the pass over a task is right about every value: the invariant ones are the
same in all instances, one tagged with a dimension is an injective function of that index of the
iteration, and one tagged `full` tells all iterations apart. -/
theorem facts_hold (hp : p.isValid) (ht : task ∈ p.tasks) :
    ∃ dimensions, p.taskDimensions task = .ok dimensions ∧
      ∀ {ι ν : Type} (V : Valuation dimensions ι ν) (ops : Operators ν), V.Separates p task ops →
        ∀ a, ((p.loopFacts task).isInvariant a → ∀ i j, V.value i a = V.value j a) ∧
          (∀ d, (p.loopFacts task).tag? a = some (.along d) →
            ∃ (h : d < dimensions) (f : ν → ν), Function.Injective f ∧
              ∀ i, V.value i a = f (V.iteration i ⟨d, h⟩)) ∧
          ((p.loopFacts task).tag? a = some .full →
            ∀ i j, V.iteration i ≠ V.iteration j → V.value i a ≠ V.value j a) := by
  obtain ⟨dimensions, hdim⟩ := taskDimensions_of_mem_tasks hp ht
  refine ⟨dimensions, hdim, fun V ops hV a => ?_⟩
  have hfacts := loopFacts_sound hp ht hdim hV
  exact ⟨hfacts.invariant, fun d htag => hfacts.tag htag, fun htag => hfacts.tag htag⟩

/-- A task over a grid that computes `4 - i`, `-j` and `4 * 4`, loads and marks the number of its
cell, and adds `i` to the index of a loop inside. -/
def markedProgram : Program where
  version := currentVersion
  storage := ⟨#[
    { id := ⟨0⟩, kind := .root },
    { id := ⟨1⟩, kind := .dense, parent := some ⟨0⟩, dimensions := 2 },
    { id := ⟨2⟩, kind := .place, parent := some ⟨1⟩ }]⟩
  stmts := #[
    .task .structFor (some ⟨1⟩) [⟨1⟩, ⟨2⟩, ⟨3⟩, ⟨4⟩, ⟨5⟩, ⟨6⟩, ⟨7⟩, ⟨8⟩, ⟨9⟩, ⟨10⟩, ⟨11⟩],
    .loopIndex ⟨0⟩ 0,
    .loopIndex ⟨0⟩ 1,
    .const (.i32 4),
    .binary .sub ⟨3⟩ ⟨1⟩,
    .unary .neg ⟨2⟩,
    .binary .mul ⟨3⟩ ⟨3⟩,
    .globalPtr [⟨2⟩] [⟨1⟩, ⟨2⟩],
    .globalLoad ⟨7⟩,
    .loopUnique ⟨8⟩,
    .binary .add ⟨9⟩ ⟨6⟩,
    .rangeFor ⟨3⟩ ⟨6⟩ [⟨12⟩, ⟨13⟩],
    .loopIndex ⟨11⟩ 0,
    .binary .add ⟨12⟩ ⟨1⟩]
  root := [⟨0⟩]

theorem markedProgram_isValid : markedProgram.isValid :=
  isValid_iff.mpr ⟨by decide,
    [⟨0⟩, ⟨1⟩, ⟨2⟩, ⟨3⟩, ⟨4⟩, ⟨5⟩, ⟨6⟩, ⟨7⟩, ⟨8⟩, ⟨9⟩, ⟨10⟩, ⟨11⟩, ⟨12⟩, ⟨13⟩],
    trail?_eq_some.mp (by decide +kernel), by decide, by decide⟩

theorem markedProgram_ordered : markedProgram.Ordered := ordered_of_zipIdx (by decide)

/-- In a pass of the inner loop at the cell `i, j`, memory holds the number of the cell. -/
def markedInputs (i j pass : ℕ) : Inputs ℤ :=
  { Inputs.integers fun owner k => if owner = ⟨11⟩ then pass else if k = 0 then i else j with
    other := fun _ => Nat.pair i j }

/-- The cells of the grid, each with all passes of the inner loop. -/
def markedValuation : Valuation 2 (ℕ × ℕ × ℕ) ℤ :=
  evaluation markedProgram_ordered .integers (fun (i, j, _) => ![(i : ℤ), (j : ℤ)])
    fun (i, j, pass) => markedInputs i j pass

theorem load_of_loopUnique {a x : StmtId} (h : markedProgram.stmt? a = some (.loopUnique x)) :
    x = ⟨8⟩ := by
  have hmem := mem_zipIdx_of_stmt? h
  simp [markedProgram] at hmem
  exact hmem.1

theorem markedValuation_separates : markedValuation.Separates markedProgram ⟨0⟩ .integers := by
  refine evaluation_separates markedProgram_ordered Operators.integers_injective (fun _ _ => rfl)
    ?_ ?_
  · rintro ⟨i, j, pass⟩ k hk
    have hcases : k = 0 ∨ k = 1 := by
      simp only [← UInt64.toNat_inj]
      exact Nat.le_one_iff_eq_zero_or_eq_one.mp (Nat.le_of_lt_succ hk)
    rcases hcases with rfl | rfl
    · rfl
    · rfl
  · rintro a x hx ⟨i, j, pass⟩ ⟨i', j', pass'⟩ hne
    obtain rfl := load_of_loopUnique hx
    have hload : markedProgram.stmt? ⟨8⟩ = some (.globalLoad ⟨7⟩) := rfl
    rw [evaluate_eq _ _ hload, evaluate_eq _ _ hload]
    intro heq
    obtain ⟨rfl, rfl⟩ := Nat.pair_eq_pair.mp (Int.ofNat_inj.mp heq)
    exact hne rfl

theorem markedFacts_hold :
    (markedProgram.loopFacts ⟨0⟩).isInvariant ⟨6⟩ ∧
    (markedProgram.loopFacts ⟨0⟩).tag? ⟨4⟩ = some (.along 0) ∧
    (markedProgram.loopFacts ⟨0⟩).tag? ⟨10⟩ = some .full ∧
    markedValuation.Separates markedProgram ⟨0⟩ .integers ∧
    (∀ i j, markedValuation.value i ⟨6⟩ = markedValuation.value j ⟨6⟩) ∧
    (∃ f : ℤ → ℤ, Function.Injective f ∧
      ∀ i, markedValuation.value i ⟨4⟩ = f (markedValuation.iteration i 0)) ∧
    ∀ i j, markedValuation.iteration i ≠ markedValuation.iteration j →
      markedValuation.value i ⟨10⟩ ≠ markedValuation.value j ⟨10⟩ := by
  have htask : (⟨0⟩ : StmtId) ∈ markedProgram.tasks := by decide +kernel
  have hinvariant : (markedProgram.loopFacts ⟨0⟩).isInvariant ⟨6⟩ := by decide +kernel
  have halong : (markedProgram.loopFacts ⟨0⟩).tag? ⟨4⟩ = some (.along 0) := by decide +kernel
  have hfull : (markedProgram.loopFacts ⟨0⟩).tag? ⟨10⟩ = some .full := by decide +kernel
  obtain ⟨dimensions, hdim, hholds⟩ := facts_hold markedProgram_isValid htask
  obtain rfl : 2 = dimensions := Except.ok.inj hdim
  have hholds := hholds markedValuation .integers markedValuation_separates
  obtain ⟨_, f, hf, hvalue⟩ := (hholds ⟨4⟩).2.1 0 halong
  exact ⟨hinvariant, halong, hfull, markedValuation_separates, (hholds ⟨6⟩).1 hinvariant,
    ⟨f, hf, hvalue⟩, (hholds ⟨10⟩).2.2 hfull⟩

end Program

end UniqueAccess
