import UniqueAccess.Proofs.Access.Equality
import UniqueAccess.Proofs.Access.Evaluation

/-!
# What the structural oracle says of two addresses is so

Both definite answers are certain. Where the oracle says that two pointers hold the same address
they lead to the same node at the same indices; where it says that they differ, no node is a
candidate of both, or their indices have different values. The latter it knows only of constants,
whose numbers are their values.
-/

namespace UniqueAccess

/-- Integer constants are worth their numbers, and different numbers are different values. -/
structure Denotes (p : Program) (number : ℤ → ν) (value : StmtId → ν) : Prop where
  injective : Function.Injective number
  const : p.stmt? a = some (.const v) → v.asInt? = some n → value a = number n

namespace Program

variable {p : Program} {ν : Type} {ops : Operators ν} {number : ℤ → ν} {value : StmtId → ν}
  {a b : StmtId} {x y : List StmtId}

-- ---------------------------------------------------------------------------
-- Different addresses
-- ---------------------------------------------------------------------------

theorem distinctConstants_iff : p.distinctConstants a b ↔ ∃ v w m n,
    p.stmt? a = some (.const v) ∧ p.stmt? b = some (.const w) ∧
      v.asInt? = some m ∧ w.asInt? = some n ∧ m ≠ n := by
  unfold distinctConstants
  constructor
  · intro h
    split at h
    · next v w ha hb =>
      split at h
      · next m n hm hn => exact ⟨v, w, m, n, ha, hb, hm, hn, bne_iff_ne.mp h⟩
      · cases h
    · cases h
  · rintro ⟨v, w, m, n, ha, hb, hm, hn, hne⟩
    simp [ha, hb, hm, hn, hne]

theorem distinctConstants_sound (hn : Denotes p number value) (h : p.distinctConstants a b) :
    value a ≠ value b := by
  obtain ⟨v, w, m, n, ha, hb, hv, hw, hne⟩ := distinctConstants_iff.mp h
  rw [hn.const ha hv, hn.const hb hw]
  exact hn.injective.ne hne

theorem value_eq_of_mem_zip (h : x.map value = y.map value) {q : StmtId × StmtId}
    (hq : q ∈ x.zip y) : value q.1 = value q.2 := by
  induction x generalizing y with
  | nil => cases hq
  | cons i rest ih =>
    cases y with
    | nil => cases hq
    | cons j rest' =>
      rw [List.map_cons, List.map_cons, List.cons.injEq] at h
      rcases List.mem_cons.mp hq with rfl | hq
      · exact h.1
      · exact ih h.2 hq

theorem map_value_ne (hn : Denotes p number value) (h : p.someDiffer p.sameValue x y) :
    x.map value ≠ y.map value := by
  obtain ⟨q, hq, hdiffers⟩ := List.any_eq_true.mp h
  have hne := distinctConstants_sound hn ((Bool.and_eq_true _ _).mp hdiffers).2
  exact fun heq => hne (value_eq_of_mem_zip heq hq)

theorem aliasIndices_eq_different (h : p.aliasIndices p.sameValue x y = .different) :
    p.someDiffer p.sameValue x y := by
  unfold aliasIndices at h
  split at h
  · cases h
  · split at h
    · next hdiffers => exact hdiffers
    · split at h <;> cases h

theorem aliasPointers_eq_different {candidates candidates' : List NodeId}
    (h : p.aliasPointers p.sameValue candidates candidates' x y = .different) :
    candidates.Disjoint candidates' ∨ p.someDiffer p.sameValue x y := by
  unfold aliasPointers at h
  split at h
  · next node node' =>
    split at h
    · exact .inr (aliasIndices_eq_different h)
    · next hne => exact .inl (by simpa using Ne.symm hne)
  · split at h
    · cases h
    · next hnone =>
      refine .inl fun node hnode hnode' => hnone ?_
      exact List.any_eq_true.mpr ⟨node, hnode, List.contains_iff_mem.mpr hnode'⟩

theorem aliasAnswer_eq_different (h : p.aliasAnswer a b = .different) :
    ∃ candidates x candidates' y, p.stmt? a = some (.globalPtr candidates x) ∧
      p.stmt? b = some (.globalPtr candidates' y) ∧
      (candidates.Disjoint candidates' ∨ p.someDiffer p.sameValue x y) := by
  unfold aliasAnswer aliasAnswerBy at h
  split at h
  · cases h
  · split at h
    · next candidates x candidates' y ha hb =>
      exact ⟨candidates, x, candidates', y, ha, hb, aliasPointers_eq_different h⟩
    · cases h

-- ---------------------------------------------------------------------------
-- The same address
-- ---------------------------------------------------------------------------

theorem aliasAnswer_eq_same_iff : p.aliasAnswer a b = .same ↔ p.structuralOracle.sameAddress a b :=
  beq_iff_eq.symm

theorem candidates_eq_of_same {candidates candidates' : List NodeId}
    (ha : p.stmt? a = some (.globalPtr candidates x))
    (hb : p.stmt? b = some (.globalPtr candidates' y)) (h : p.aliasAnswer a b = .same) :
    candidates = candidates' := by
  rcases sameAddress_iff.mp (aliasAnswer_eq_same_iff.mp h) with rfl | ⟨node, _, _, ha', hb', _⟩
  · cases ha.symm.trans hb
    rfl
  · cases ha.symm.trans ha'
    cases hb.symm.trans hb'
    rfl

-- ---------------------------------------------------------------------------
-- All answers
-- ---------------------------------------------------------------------------

/-- In an ordered table every comparison of values has an answer, and whatever the oracle claims to
know about two values or two addresses is so in every instance. -/
theorem definite_answers_sound (hp : p.Ordered) (hc : Congruent p ops value)
    (hn : Denotes p number value) (a b : StmtId) :
    (∃ answer, p.sameValue? a b = some answer ∧ (answer = true → value a = value b)) ∧
    (p.aliasAnswer a b = .same → ∀ candidates x candidates' y,
      p.stmt? a = some (.globalPtr candidates x) → p.stmt? b = some (.globalPtr candidates' y) →
        candidates = candidates' ∧ x.map value = y.map value) ∧
    (p.aliasAnswer a b = .different → ∃ candidates x candidates' y,
      p.stmt? a = some (.globalPtr candidates x) ∧ p.stmt? b = some (.globalPtr candidates' y) ∧
        (candidates.Disjoint candidates' ∨ x.map value ≠ y.map value)) := by
  refine ⟨?_, fun h candidates x candidates' y ha hb => ⟨?_, ?_⟩, fun h => ?_⟩
  · obtain ⟨answer, hanswer⟩ := Option.isSome_iff_exists.mp (hp.isSome_sameValue? a b)
    refine ⟨answer, hanswer, fun htrue => ?_⟩
    exact sameValueWithin?_sound hc (hanswer.trans (congrArg some htrue))
  · exact candidates_eq_of_same ha hb h
  · exact sameAddress_sound hc ha hb (aliasAnswer_eq_same_iff.mp h)
  · obtain ⟨candidates, x, candidates', y, ha, hb, hapart⟩ := aliasAnswer_eq_different h
    exact ⟨candidates, x, candidates', y, ha, hb, hapart.imp_right (map_value_ne hn)⟩

/-- A task over a grid with pointers into one field at `i + 1, j` and at `1 + i, j`, and into another
at `2, j` and at `1, j`. -/
def stencilProgram : Program where
  version := currentVersion
  storage := ⟨#[
    { id := ⟨0⟩, kind := .root },
    { id := ⟨1⟩, kind := .dense, parent := some ⟨0⟩, dimensions := 2 },
    { id := ⟨2⟩, kind := .place, parent := some ⟨1⟩ },
    { id := ⟨3⟩, kind := .place, parent := some ⟨1⟩ }]⟩
  stmts := #[
    .task .structFor (some ⟨1⟩) [⟨1⟩, ⟨2⟩, ⟨3⟩, ⟨4⟩, ⟨5⟩, ⟨6⟩, ⟨7⟩, ⟨8⟩, ⟨9⟩, ⟨10⟩],
    .loopIndex ⟨0⟩ 0,
    .loopIndex ⟨0⟩ 1,
    .const (.i32 1),
    .const (.i64 2),
    .binary .add ⟨1⟩ ⟨3⟩,
    .binary .add ⟨3⟩ ⟨1⟩,
    .globalPtr [⟨2⟩] [⟨5⟩, ⟨2⟩],
    .globalPtr [⟨2⟩] [⟨6⟩, ⟨2⟩],
    .globalPtr [⟨3⟩] [⟨4⟩, ⟨2⟩],
    .globalPtr [⟨3⟩] [⟨3⟩, ⟨2⟩]]
  root := [⟨0⟩]

theorem stencilProgram_ordered : stencilProgram.Ordered := ordered_of_zipIdx (by decide)

/-- The values of `stencilProgram` at the cell `i, j`. -/
def stencilValue (i j : ℤ) : StmtId → ℤ :=
  evaluate stencilProgram_ordered .integers (.integers fun _ k => if k = 0 then i else j)

theorem stencilValue_congruent (i j : ℤ) :
    Congruent stencilProgram .integers (stencilValue i j) :=
  evaluate_congruent _ _ Operators.integers_symmetric fun _ _ h =>
    congrArg (·.getD 0) (Constant.asInt?_congr h)

theorem stencilValue_denotes (i j : ℤ) : Denotes stencilProgram id (stencilValue i j) where
  injective := Function.injective_id
  const hs hn := by simp [stencilValue, evaluate_eq _ _ hs, Stmt.valueBy, Inputs.integers, hn]

/-- At the cell `3, 5` the first two pointers hold one address, and the others hold two. -/
theorem stencilPointers_compared :
    (stencilProgram.aliasAnswer ⟨7⟩ ⟨8⟩ = .same ∧
      [⟨5⟩, ⟨2⟩].map (stencilValue 3 5) = [⟨6⟩, ⟨2⟩].map (stencilValue 3 5)) ∧
    stencilProgram.aliasAnswer ⟨9⟩ ⟨10⟩ = .different ∧
      [⟨4⟩, ⟨2⟩].map (stencilValue 3 5) ≠ [⟨3⟩, ⟨2⟩].map (stencilValue 3 5) := by
  have hanswers : stencilProgram.aliasAnswer ⟨7⟩ ⟨8⟩ = .same ∧
      stencilProgram.aliasAnswer ⟨9⟩ ⟨10⟩ = .different := by decide +kernel
  have hsound := definite_answers_sound stencilProgram_ordered (stencilValue_congruent 3 5)
    (stencilValue_denotes 3 5)
  refine ⟨⟨hanswers.1, ?_⟩, hanswers.2, ?_⟩
  · exact ((hsound ⟨7⟩ ⟨8⟩).2.1 hanswers.1 _ _ _ _ rfl rfl).2
  · obtain ⟨_, _, _, _, ha, hb, hapart⟩ := (hsound ⟨9⟩ ⟨10⟩).2.2 hanswers.2
    cases ha
    cases hb
    exact hapart.resolve_left (by simp)

end Program

end UniqueAccess
