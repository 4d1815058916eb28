import UniqueAccess.Proofs.Access.Facts

/-!
# The rules behind the facts

Six rules say what is known about the values of a task: which of the statements that its walk visits
are invariant, and which have a tag. Whatever a walk learns follows from the rules, in whatever
order and however often it visits the statements; and nothing that follows is both invariant and
tagged, or has two tags. A walk that visits every statement once, and no operand after its user,
learns all that follows.
-/

namespace UniqueAccess.Program

inductive IsInvariant (p : Program) (task : StmtId) : StmtId → Prop
  | const {id : StmtId} : (id, .const v) ∈ p.taskVisits task → IsInvariant p task id
  | unary {id : StmtId} : (id, .unary op x) ∈ p.taskVisits task → IsInvariant p task x →
      IsInvariant p task id
  | binary {id : StmtId} : (id, .binary op x y) ∈ p.taskVisits task → IsInvariant p task x →
      IsInvariant p task y → IsInvariant p task id

inductive HasTag (p : Program) (task : StmtId) : StmtId → LoopTag → Prop
  | loopIndex {id : StmtId} {k : UInt64} : (id, .loopIndex task k) ∈ p.taskVisits task →
      HasTag p task id (.along k.toNat)
  | loopUnique {id : StmtId} : (id, .loopUnique x) ∈ p.taskVisits task → HasTag p task id .full
  | neg {id : StmtId} : (id, .unary .neg x) ∈ p.taskVisits task → HasTag p task x tag →
      HasTag p task id tag
  | left {id : StmtId} : op ∈ [BinaryOp.add, .sub, .bitXor] →
      (id, .binary op x y) ∈ p.taskVisits task → HasTag p task x tag → IsInvariant p task y →
      HasTag p task id tag
  | right {id : StmtId} : op ∈ [BinaryOp.add, .sub, .bitXor] →
      (id, .binary op x y) ∈ p.taskVisits task → IsInvariant p task x → HasTag p task y tag →
      HasTag p task id tag

variable {p : Program} {task id : StmtId} {s t : Stmt} {tag tag' : LoopTag} {f : LoopFacts}

-- ---------------------------------------------------------------------------
-- Rules that do not contradict each other
-- ---------------------------------------------------------------------------

theorem stmt_unique (hs : (id, s) ∈ p.taskVisits task) (ht : (id, t) ∈ p.taskVisits task) :
    s = t :=
  Option.some.inj ((mem_visits.mp hs).2.symm.trans (mem_visits.mp ht).2)

theorem IsInvariant.not_hasTag (h : p.IsInvariant task id) : ¬ p.HasTag task id tag := by
  induction h generalizing tag with
  | const hs =>
    rintro (ht | ht | ⟨ht, _⟩ | ⟨_, ht, _⟩ | ⟨_, ht, _⟩) <;> cases stmt_unique hs ht
  | unary hs _ ih =>
    rintro (ht | ht | ⟨ht, hx⟩ | ⟨_, ht, _⟩ | ⟨_, ht, _⟩) <;> cases stmt_unique hs ht
    exact ih hx
  | binary hs _ _ ihx ihy =>
    rintro (ht | ht | ⟨ht, _⟩ | ⟨_, ht, hx, _⟩ | ⟨_, ht, _, hy⟩) <;> cases stmt_unique hs ht
    · exact ihx hx
    · exact ihy hy

theorem HasTag.unique (h : p.HasTag task id tag) (h' : p.HasTag task id tag') : tag = tag' := by
  induction h generalizing tag' with
  | loopIndex hs =>
    rcases h' with ht | ht | ⟨ht, _⟩ | ⟨_, ht, _⟩ | ⟨_, ht, _⟩ <;> cases stmt_unique hs ht
    rfl
  | loopUnique hs =>
    rcases h' with ht | ht | ⟨ht, _⟩ | ⟨_, ht, _⟩ | ⟨_, ht, _⟩ <;> cases stmt_unique hs ht
    rfl
  | neg hs _ ih =>
    rcases h' with ht | ht | ⟨ht, hx⟩ | ⟨_, ht, _⟩ | ⟨_, ht, _⟩ <;> cases stmt_unique hs ht
    exact ih hx
  | left _ hs _ hy ih =>
    rcases h' with ht | ht | ⟨ht, _⟩ | ⟨_, ht, hx, _⟩ | ⟨_, ht, _, hy'⟩ <;> cases stmt_unique hs ht
    · exact ih hx
    · exact absurd hy' hy.not_hasTag
  | right _ hs hx _ ih =>
    rcases h' with ht | ht | ⟨ht, _⟩ | ⟨_, ht, hx', _⟩ | ⟨_, ht, _, hy⟩ <;> cases stmt_unique hs ht
    · exact absurd hx' hx.not_hasTag
    · exact ih hy

-- ---------------------------------------------------------------------------
-- What a walk learns
-- ---------------------------------------------------------------------------

structure Justifies (p : Program) (task : StmtId) (f : LoopFacts) : Prop where
  invariant {id : StmtId} : f.isInvariant id → p.IsInvariant task id
  tag {id : StmtId} {tag : LoopTag} : f.tag? id = some tag → p.HasTag task id tag

theorem justifies_none : p.Justifies task .none where
  invariant h := by simp [LoopFacts.none, LoopFacts.isInvariant] at h
  tag h := by simp [LoopFacts.none, LoopFacts.tag?] at h

namespace Justifies

theorem isInvariant (hf : p.Justifies task f) (hs : (id, s) ∈ p.taskVisits task)
    (h : f.derivesInvariant s) : p.IsInvariant task id := by
  cases s with
  | const v => exact .const hs
  | unary op x => exact .unary hs (hf.invariant h)
  | binary op x y =>
    simp only [LoopFacts.derivesInvariant, Bool.and_eq_true] at h
    exact .binary hs (hf.invariant h.1) (hf.invariant h.2)
  | _ => cases h

theorem hasTag (hf : p.Justifies task f) (hs : (id, s) ∈ p.taskVisits task)
    (h : f.derivedTag? task s = some tag) : p.HasTag task id tag := by
  cases s with
  | loopIndex owner k =>
    simp only [LoopFacts.derivedTag?, Option.ite_none_right_eq_some, Option.some.injEq] at h
    obtain ⟨rfl, rfl⟩ := h
    exact .loopIndex hs
  | loopUnique x =>
    cases h
    exact .loopUnique hs
  | unary op x =>
    simp only [LoopFacts.derivedTag?, Option.ite_none_right_eq_some] at h
    cases op with
    | neg => exact .neg hs (hf.tag h.2)
    | _ => cases h.1
  | binary op x y =>
    simp only [LoopFacts.derivedTag?, Option.ite_none_right_eq_some] at h
    have hop := LoopFacts.isInjectiveInEach_iff.mp h.1
    rcases LoopFacts.combinedTag?_eq_some h.2 with ⟨htag, hinv⟩ | ⟨htag, hinv⟩
    · exact .left hop hs (hf.tag htag) (hf.invariant hinv)
    · exact .right hop hs (hf.invariant hinv) (hf.tag htag)
  | _ => cases h

theorem visit (hf : p.Justifies task f) (hs : (id, s) ∈ p.taskVisits task) :
    p.Justifies task (f.visit task id s) where
  invariant {id'} h := by
    rw [LoopFacts.isInvariant_visit] at h
    split at h
    · next hid =>
      subst hid
      rcases Bool.or_eq_true_iff.mp h with h | h
      · exact hf.isInvariant hs h
      · exact hf.invariant h
    · exact hf.invariant h
  tag {id' tag} h := by
    rw [LoopFacts.tag?_visit] at h
    split at h
    · next hid =>
      subst hid
      rcases Option.or_eq_some_iff.mp h with h | ⟨_, h⟩
      · exact hf.hasTag hs h
      · exact hf.tag h
    · exact hf.tag h

theorem visitAll {visits : List (StmtId × Stmt)} (hf : p.Justifies task f)
    (hvisits : ∀ v ∈ visits, v ∈ p.taskVisits task) :
    p.Justifies task (f.visitAll task visits) := by
  induction visits generalizing f with
  | nil => exact hf
  | cons v rest ih =>
    rw [List.forall_mem_cons] at hvisits
    exact ih (hf.visit hvisits.1) hvisits.2

end Justifies

theorem justifies_loopFacts : p.Justifies task (p.loopFacts task) :=
  justifies_none.visitAll fun _ hv => hv

theorem IsInvariant.tag?_eq_none (hid : p.IsInvariant task id) :
    (p.loopFacts task).tag? id = none :=
  Option.eq_none_iff_forall_ne_some.mpr fun _ htag =>
    hid.not_hasTag (justifies_loopFacts.tag htag)

-- ---------------------------------------------------------------------------
-- What follows
-- ---------------------------------------------------------------------------

section
variable (h : FollowsOperands (p.taskVisits task))
include h

theorem solves_of_followsOperands (hs : (id, s) ∈ p.taskVisits task) :
    (p.loopFacts task).Solves task id s :=
  h.visitAll_solves _ hs

theorem IsInvariant.isInvariant (hid : p.IsInvariant task id) :
    (p.loopFacts task).isInvariant id := by
  induction hid with
  | const hs => exact (solves_of_followsOperands h hs).invariant
  | unary hs _ ih => exact (solves_of_followsOperands h hs).invariant.trans ih
  | binary hs _ _ ihx ihy =>
    rw [(solves_of_followsOperands h hs).invariant]
    simp [LoopFacts.derivesInvariant, ihx, ihy]

theorem HasTag.tag?_eq (hid : p.HasTag task id tag) :
    (p.loopFacts task).tag? id = some tag := by
  induction hid with
  | loopIndex hs =>
    rw [(solves_of_followsOperands h hs).tag]
    simp [LoopFacts.derivedTag?]
  | loopUnique hs => exact (solves_of_followsOperands h hs).tag
  | neg hs _ ih => exact (solves_of_followsOperands h hs).tag.trans ih
  | left hop hs _ hy ih =>
    -- An invariant operand has no tag of its own, which the walk asks for.
    rw [(solves_of_followsOperands h hs).tag]
    simp [LoopFacts.derivedTag?, LoopFacts.combinedTag?, LoopFacts.isInjectiveInEach_iff.mpr hop,
      ih, hy.tag?_eq_none, hy.isInvariant h]
  | right hop hs hx _ ih =>
    rw [(solves_of_followsOperands h hs).tag]
    simp [LoopFacts.derivedTag?, LoopFacts.combinedTag?, LoopFacts.isInjectiveInEach_iff.mpr hop,
      ih, hx.tag?_eq_none, hx.isInvariant h]

/-- A walk that visits every statement once, and after those of its operands that it visits at all,
learns exactly what follows from the rules. -/
theorem facts_iff_rules :
    (∀ id, (p.loopFacts task).isInvariant id ↔ p.IsInvariant task id) ∧
    (∀ id tag, (p.loopFacts task).tag? id = some tag ↔ p.HasTag task id tag) ∧
    ∀ id tag tag', p.HasTag task id tag → p.HasTag task id tag' → tag = tag' :=
  ⟨fun _ => ⟨justifies_loopFacts.invariant, fun hid => hid.isInvariant h⟩,
    fun _ _ => ⟨justifies_loopFacts.tag, fun hid => hid.tag?_eq h⟩,
    fun _ _ _ hid hid' => hid.unique hid'⟩

end

/-- A task over a range that computes `-(i + 5)`, `5 * 5` and, with a constant from outside,
`i + 3`. -/
def offsetProgram : Program where
  version := currentVersion
  storage := ⟨#[]⟩
  stmts := #[
    .const (.i32 3),
    .task .rangeFor none [⟨2⟩, ⟨3⟩, ⟨4⟩, ⟨5⟩, ⟨6⟩, ⟨7⟩],
    .loopIndex ⟨1⟩ 0,
    .const (.i32 5),
    .binary .add ⟨2⟩ ⟨3⟩,
    .unary .neg ⟨4⟩,
    .binary .mul ⟨3⟩ ⟨3⟩,
    .binary .add ⟨2⟩ ⟨0⟩]
  root := [⟨0⟩, ⟨1⟩]

/-- The walk does not visit the constant outside, so that no rule applies to the last sum. -/
theorem offsetFacts_follow :
    FollowsOperands (offsetProgram.taskVisits ⟨1⟩) ∧
      offsetProgram.HasTag ⟨1⟩ ⟨5⟩ (.along 0) ∧ offsetProgram.IsInvariant ⟨1⟩ ⟨6⟩ ∧
      ¬ offsetProgram.IsInvariant ⟨1⟩ ⟨0⟩ ∧ ∀ tag, ¬ offsetProgram.HasTag ⟨1⟩ ⟨7⟩ tag := by
  have hfollows : FollowsOperands (offsetProgram.taskVisits ⟨1⟩) :=
    ⟨by decide +kernel, by decide +kernel⟩
  obtain ⟨hinvariant, htag, _⟩ := facts_iff_rules hfollows
  refine ⟨hfollows, (htag _ _).mp (by decide +kernel), (hinvariant _).mp (by decide +kernel), ?_, ?_⟩
  · rw [← hinvariant]
    decide +kernel
  · intro tag
    have hnone : (offsetProgram.loopFacts ⟨1⟩).tag? ⟨7⟩ = none := by decide +kernel
    rw [← htag, hnone]
    exact nofun

end UniqueAccess.Program
