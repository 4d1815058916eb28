import UniqueAccess.Proofs.Access.Alias
import UniqueAccess.Proofs.Access.Comparison
import Mathlib.Data.List.Forall2

/-!
# Equality by form

Comparing forms is an equivalence on the statements whose operands lead down to an end, and so is
comparing addresses. Reflexivity comes from comparing names first: nothing is asked of constants, a
NaN is as equal to itself as any other statement is. Symmetry and transitivity go down both
statements at once; at a commutative operator two ways of matching operands are combined, each
straight or crossed.
-/

namespace UniqueAccess

-- ---------------------------------------------------------------------------
-- Constants
-- ---------------------------------------------------------------------------

theorem SignedPattern.numericallyEqual_iff {f : BinaryFormat} {x y : SignedPattern} :
    x.numericallyEqual f y ↔ x.isNaN f = false ∧ y.isNaN f = false ∧ x.pattern = y.pattern ∧
      (x.negative = y.negative ∨ x.pattern = 0) := by
  simp [numericallyEqual, and_assoc]

theorem SignedPattern.numericallyEqual_symm {f : BinaryFormat} {x y : SignedPattern}
    (h : x.numericallyEqual f y) : y.numericallyEqual f x := by
  obtain ⟨hx, hy, hpattern, hsign⟩ := numericallyEqual_iff.mp h
  exact numericallyEqual_iff.mpr
    ⟨hy, hx, hpattern.symm, hsign.imp Eq.symm fun hzero => hpattern ▸ hzero⟩

theorem SignedPattern.numericallyEqual_trans {f : BinaryFormat} {x y z : SignedPattern}
    (h : x.numericallyEqual f y) (h' : y.numericallyEqual f z) : x.numericallyEqual f z := by
  obtain ⟨hx, _, hpattern, hsign⟩ := numericallyEqual_iff.mp h
  obtain ⟨_, hz, hpattern', hsign'⟩ := numericallyEqual_iff.mp h'
  refine numericallyEqual_iff.mpr ⟨hx, hz, hpattern.trans hpattern', ?_⟩
  rcases hsign with hsign | hzero
  · exact hsign'.imp hsign.trans fun hzero => hpattern.trans hzero
  · exact .inr hzero

namespace Constant

theorem numericallyEqual_symm {v w : Constant} (h : v.numericallyEqual w) :
    w.numericallyEqual v := by
  cases v <;> cases w <;> simp only [numericallyEqual, beq_iff_eq, Bool.false_eq_true] at h ⊢
  case i32.i32 => exact h.symm
  case i64.i64 => exact h.symm
  case u32.u32 => exact h.symm
  case f32.f32 => exact SignedPattern.numericallyEqual_symm h
  case f64.f64 => exact SignedPattern.numericallyEqual_symm h

theorem numericallyEqual_trans {u v w : Constant} (h : u.numericallyEqual v)
    (h' : v.numericallyEqual w) : u.numericallyEqual w := by
  cases u <;> cases v <;> simp only [numericallyEqual, beq_iff_eq, Bool.false_eq_true] at h <;>
    cases w <;> simp only [numericallyEqual, beq_iff_eq, Bool.false_eq_true] at h' ⊢
  case i32.i32.i32 => exact h.trans h'
  case i64.i64.i64 => exact h.trans h'
  case u32.u32.u32 => exact h.trans h'
  case f32.f32.f32 => exact SignedPattern.numericallyEqual_trans h h'
  case f64.f64.f64 => exact SignedPattern.numericallyEqual_trans h h'

end Constant

namespace Program

variable {p : Program} {a b c : StmtId} {s t : Stmt}

-- ---------------------------------------------------------------------------
-- Statements that lead down to an end
-- ---------------------------------------------------------------------------

def Reads (p : Program) (user operand : StmtId) : Prop :=
  ∃ s, p.stmt? user = some s ∧ operand ∈ s.operands

/-- No chain of operands of operands goes on forever. -/
abbrev Grounded (p : Program) : StmtId → Prop := Acc fun operand user => p.Reads user operand

theorem Grounded.operand (h : p.Grounded a) (hs : p.stmt? a = some s) {x : StmtId}
    (hx : x ∈ s.operands) : p.Grounded x :=
  h.inv ⟨s, hs, hx⟩

theorem Grounded.of_decreasing {Q : StmtId → Prop}
    (hdecreasing : ∀ user operand, Q user → p.Reads user operand →
      Q operand ∧ operand.index < user.index) (ha : Q a) : p.Grounded a := by
  induction hn : a.index using Nat.strong_induction_on generalizing a with
  | _ n ih =>
    subst hn
    refine .intro a fun x hx => ?_
    obtain ⟨hQ, hlt⟩ := hdecreasing a x ha hx
    exact ih x.index hlt hQ rfl

theorem Grounded.ends (h : p.Grounded a) (b : StmtId) : p.Ends (a, b) := by
  induction h generalizing b with
  | intro a _ ih =>
    refine .intro _ fun q hcall => ?_
    obtain ⟨_, s, _, hs, _, htakes⟩ := hcall
    exact ih q.1 ⟨s, hs, htakes.mem_operands.1⟩ q.2

-- ---------------------------------------------------------------------------
-- Forms
-- ---------------------------------------------------------------------------

/-- Two statements have one form, if these are the operands that have the same value. -/
inductive SameForm (same : StmtId → StmtId → Prop) : Stmt → Stmt → Prop
  | const : v.numericallyEqual w → SameForm same (.const v) (.const w)
  | unary : same x y → SameForm same (.unary op x) (.unary op y)
  | straight : same l l' → same r r' → SameForm same (.binary op l r) (.binary op l' r')
  | crossed : op.isCommutative → same l r' → same r l' →
      SameForm same (.binary op l r) (.binary op l' r')
  | loopIndex : SameForm same (.loopIndex owner k) (.loopIndex owner k)
  | loopUnique : same x y → SameForm same (.loopUnique x) (.loopUnique y)

variable {same : StmtId → StmtId → Option Bool}

theorem sameForm_of_sameForm? (h : sameForm? same s t = some true) :
    SameForm (fun x y => same x y = some true) s t := by
  unfold sameForm? at h
  split at h
  · exact .const (Option.some.inj h)
  · split at h
    · next hop => exact hop ▸ .unary h
    · cases h
  · split at h
    · next hop =>
      subst hop
      rcases eitherHolds_eq_true.mp h with h | ⟨_, h⟩
      · obtain ⟨hl, hr⟩ := bothHold_eq_true.mp h
        exact .straight hl hr
      · split at h
        · next hcomm =>
          obtain ⟨hl, hr⟩ := bothHold_eq_true.mp h
          exact .crossed hcomm hl hr
        · cases h
    · cases h
  · simp only [Option.some.injEq, Bool.and_eq_true, beq_iff_eq] at h
    obtain ⟨rfl, rfl⟩ := h
    exact .loopIndex
  · exact .loopUnique h
  · cases h

theorem SameForm.sameForm?_eq_true (h : SameForm (fun x y => same x y = some true) s t)
    (hsome : (sameForm? same s t).isSome) : sameForm? same s t = some true := by
  cases h with
  | const h => simpa [sameForm?] using h
  | unary h => simpa [sameForm?] using h
  | straight hl hr => simp [sameForm?, eitherHolds_eq_true, bothHold_eq_true, hl, hr]
  | crossed hcomm hl hr =>
    obtain ⟨hstraight, _⟩ := isSome_eitherHolds.mp (by simpa [sameForm?, hcomm] using hsome)
    obtain ⟨answer, hanswer⟩ := Option.isSome_iff_exists.mp hstraight
    simp only [sameForm?, if_true, hcomm, eitherHolds_eq_true]
    cases answer with
    | true => exact .inl hanswer
    | false => exact .inr ⟨hanswer, bothHold_eq_true.mpr ⟨hl, hr⟩⟩
  | loopIndex => simp [sameForm?]
  | loopUnique h => exact h

theorem SameForm.mono {same same' : StmtId → StmtId → Prop}
    (himp : ∀ x ∈ s.operands, ∀ y ∈ t.operands, same x y → same' x y) (h : SameForm same s t) :
    SameForm same' s t := by
  cases h with
  | const h => exact .const h
  | unary h => exact .unary (himp _ (by simp [Stmt.operands]) _ (by simp [Stmt.operands]) h)
  | straight hl hr =>
    exact .straight (himp _ (by simp [Stmt.operands]) _ (by simp [Stmt.operands]) hl)
      (himp _ (by simp [Stmt.operands]) _ (by simp [Stmt.operands]) hr)
  | crossed hcomm hl hr =>
    exact .crossed hcomm (himp _ (by simp [Stmt.operands]) _ (by simp [Stmt.operands]) hl)
      (himp _ (by simp [Stmt.operands]) _ (by simp [Stmt.operands]) hr)
  | loopIndex => exact .loopIndex
  | loopUnique h =>
    exact .loopUnique (himp _ (by simp [Stmt.operands]) _ (by simp [Stmt.operands]) h)

theorem SameForm.swap {same : StmtId → StmtId → Prop} (h : SameForm same s t) :
    SameForm (fun x y => same y x) t s := by
  cases h with
  | const h => exact .const (Constant.numericallyEqual_symm h)
  | unary h => exact .unary h
  | straight hl hr => exact .straight hl hr
  | crossed hcomm hl hr => exact .crossed hcomm hr hl
  | loopIndex => exact .loopIndex
  | loopUnique h => exact .loopUnique h

theorem SameForm.trans {same same' same'' : StmtId → StmtId → Prop} {u : Stmt}
    (hcomp : ∀ x ∈ s.operands, ∀ y ∈ t.operands, ∀ z, same x y → same' y z → same'' x z)
    (h : SameForm same s t) (h' : SameForm same' t u) : SameForm same'' s u := by
  have hcomp' : ∀ {x y z}, x ∈ s.operands → y ∈ t.operands → same x y → same' y z → same'' x z :=
    fun hx hy => hcomp _ hx _ hy _
  cases h with
  | const h =>
    cases h' with
    | const h' => exact .const (Constant.numericallyEqual_trans h h')
  | unary h =>
    cases h' with
    | unary h' => exact .unary (hcomp' (by simp [Stmt.operands]) (by simp [Stmt.operands]) h h')
  | straight hl hr =>
    cases h' with
    | straight hl' hr' =>
      exact .straight (hcomp' (by simp [Stmt.operands]) (by simp [Stmt.operands]) hl hl')
        (hcomp' (by simp [Stmt.operands]) (by simp [Stmt.operands]) hr hr')
    | crossed hcomm hl' hr' =>
      exact .crossed hcomm (hcomp' (by simp [Stmt.operands]) (by simp [Stmt.operands]) hl hl')
        (hcomp' (by simp [Stmt.operands]) (by simp [Stmt.operands]) hr hr')
  | crossed hcomm hl hr =>
    cases h' with
    | straight hl' hr' =>
      exact .crossed hcomm (hcomp' (by simp [Stmt.operands]) (by simp [Stmt.operands]) hl hr')
        (hcomp' (by simp [Stmt.operands]) (by simp [Stmt.operands]) hr hl')
    | crossed _ hl' hr' =>
      exact .straight (hcomp' (by simp [Stmt.operands]) (by simp [Stmt.operands]) hl hr')
        (hcomp' (by simp [Stmt.operands]) (by simp [Stmt.operands]) hr hl')
  | loopIndex =>
    cases h' with
    | loopIndex => exact .loopIndex
  | loopUnique h =>
    cases h' with
    | loopUnique h' =>
      exact .loopUnique (hcomp' (by simp [Stmt.operands]) (by simp [Stmt.operands]) h h')

-- ---------------------------------------------------------------------------
-- Values
-- ---------------------------------------------------------------------------

theorem sameValue_eq_true : p.sameValue a b = true ↔ p.sameValue? a b = some true := by
  unfold sameValue
  cases p.sameValue? a b <;> simp

theorem Grounded.sameValue_iff (h : p.Grounded a) :
    p.sameValue a b ↔ a = b ∨ ∃ s t, p.stmt? a = some s ∧ p.stmt? b = some t ∧
      SameForm (fun x y => p.sameValue x y) s t := by
  have hsome : (p.sameValue? a b).isSome := isSome_iff_ends.mpr (h.ends b)
  simp only [sameValue_eq_true]
  rw [sameValue?_eq] at hsome ⊢
  unfold compare? at hsome ⊢
  by_cases hab : a = b
  · simp [hab]
  · simp only [hab, if_false, false_or] at hsome ⊢
    cases hs : p.stmt? a with
    | none => simp
    | some s =>
      cases ht : p.stmt? b with
      | none => simp
      | some t =>
        simp only [hs, ht] at hsome
        constructor
        · exact fun h => ⟨s, t, rfl, rfl, sameForm_of_sameForm? h⟩
        · rintro ⟨_, _, ⟨⟩, ⟨⟩, h⟩
          exact h.sameForm?_eq_true hsome

theorem sameValue_refl (a : StmtId) : p.sameValue a a := by
  rw [sameValue_eq_true, sameValue?_eq]
  simp [compare?]

theorem Grounded.sameValue_symm (ha : p.Grounded a) (hb : p.Grounded b)
    (h : p.sameValue a b) : p.sameValue b a := by
  induction ha generalizing b with
  | intro a hacc ih =>
    rcases (Grounded.sameValue_iff (.intro a hacc)).mp h with rfl | ⟨s, t, hs, ht, hform⟩
    · exact sameValue_refl a
    · refine hb.sameValue_iff.mpr (.inr ⟨t, s, ht, hs, hform.swap.mono fun y hy x hx hxy => ?_⟩)
      exact ih x ⟨s, hs, hx⟩ (hb.operand ht hy) hxy

theorem Grounded.sameValue_trans (ha : p.Grounded a) (hb : p.Grounded b)
    (h : p.sameValue a b) (h' : p.sameValue b c) : p.sameValue a c := by
  induction ha generalizing b c with
  | intro a hacc ih =>
    have ha : p.Grounded a := .intro a hacc
    rcases ha.sameValue_iff.mp h with rfl | ⟨s, t, hs, ht, hform⟩
    · exact h'
    · rcases hb.sameValue_iff.mp h' with rfl | ⟨t', u, ht', hu, hform'⟩
      · exact h
      · obtain rfl := Option.some.inj (ht'.symm.trans ht)
        refine ha.sameValue_iff.mpr (.inr ⟨s, u, hs, hu, hform.trans ?_ hform'⟩)
        intro x hx y hy z hxy hyz
        exact ih x ⟨s, hs, hx⟩ (hb.operand ht hy) hxy hyz

-- ---------------------------------------------------------------------------
-- Addresses
-- ---------------------------------------------------------------------------

abbrev SameValues (p : Program) : List StmtId → List StmtId → Prop :=
  List.Forall₂ fun x y => p.sameValue x y

theorem sameValues_iff {x y : List StmtId} :
    p.SameValues x y ↔ x.length = y.length ∧ allSame p.sameValue x y := by
  rw [SameValues, List.forall₂_iff_zip]
  simp [allSame]

theorem sameValues_symm {x y : List StmtId} (hx : ∀ i ∈ x, p.Grounded i)
    (hy : ∀ j ∈ y, p.Grounded j) (h : p.SameValues x y) : p.SameValues y x := by
  induction h with
  | nil => exact .nil
  | cons hij _ ih =>
    rw [List.forall_mem_cons] at hx hy
    exact .cons (hx.1.sameValue_symm hy.1 hij) (ih hx.2 hy.2)

theorem sameValues_trans {x y z : List StmtId} (hx : ∀ i ∈ x, p.Grounded i)
    (hy : ∀ j ∈ y, p.Grounded j) (h : p.SameValues x y) (h' : p.SameValues y z) :
    p.SameValues x z := by
  induction h generalizing z with
  | nil =>
    cases h' with
    | nil => exact .nil
  | cons hij _ ih =>
    rw [List.forall_mem_cons] at hx hy
    cases h' with
    | cons hjk h' => exact .cons (hx.1.sameValue_trans hy.1 hij hjk) (ih hx.2 hy.2 h')

/-- Where all items are the same, no two are different constants in between. -/
theorem aliasIndices_eq_same_iff {x y : List StmtId} :
    p.aliasIndices p.sameValue x y = .same ↔ p.SameValues x y := by
  rw [sameValues_iff]
  refine ⟨aliasIndices_eq_same, fun ⟨hlen, hall⟩ => ?_⟩
  have hnone : p.someDiffer p.sameValue x y = false := by
    simp only [someDiffer, List.any_eq_false, Bool.and_eq_true, Bool.not_eq_true', not_and]
    intro q hq hdiffers
    have hsame := List.all_eq_true.mp hall q hq
    exact absurd (hdiffers.symm.trans hsame) nofun
  simp [aliasIndices, hlen, hnone, hall]

theorem sameAddress_iff :
    p.structuralOracle.sameAddress a b ↔ a = b ∨ ∃ node x y,
      p.stmt? a = some (.globalPtr [node] x) ∧ p.stmt? b = some (.globalPtr [node] y) ∧
        p.SameValues x y := by
  have haddress : p.structuralOracle.sameAddress a b ↔ p.aliasAnswerBy p.sameValue a b = .same :=
    beq_iff_eq
  rw [haddress, aliasAnswerBy]
  constructor
  · intro h
    split at h
    · next hab => exact .inl hab
    · split at h
      · next candidates x candidates' y ha hb =>
        unfold aliasPointers at h
        split at h
        · next node node' =>
          split at h
          · next hnode =>
            subst hnode
            exact .inr ⟨node, x, y, ha, hb, aliasIndices_eq_same_iff.mp h⟩
          · cases h
        · split at h <;> cases h
      · cases h
  · rintro (rfl | ⟨node, x, y, ha, hb, h⟩)
    · simp
    · simp [ha, hb, aliasPointers, aliasIndices_eq_same_iff.mpr h]

theorem Grounded.indices (h : p.Grounded a) {candidates : List NodeId} {x : List StmtId}
    (hs : p.stmt? a = some (.globalPtr candidates x)) : ∀ i ∈ x, p.Grounded i :=
  fun _ hi => h.operand hs hi

theorem Grounded.sameAddress_symm (ha : p.Grounded a) (hb : p.Grounded b)
    (h : p.structuralOracle.sameAddress a b) : p.structuralOracle.sameAddress b a := by
  rcases sameAddress_iff.mp h with rfl | ⟨node, x, y, hs, ht, hsame⟩
  · exact h
  · exact sameAddress_iff.mpr
      (.inr ⟨node, y, x, ht, hs, sameValues_symm (ha.indices hs) (hb.indices ht) hsame⟩)

theorem Grounded.sameAddress_trans (ha : p.Grounded a) (hb : p.Grounded b)
    (h : p.structuralOracle.sameAddress a b) (h' : p.structuralOracle.sameAddress b c) :
    p.structuralOracle.sameAddress a c := by
  rcases sameAddress_iff.mp h with rfl | ⟨node, x, y, hs, ht, hsame⟩
  · exact h'
  · rcases sameAddress_iff.mp h' with rfl | ⟨node', y', z, ht', hu, hsame'⟩
    · exact h
    · obtain ⟨hnode, rfl⟩ := Stmt.globalPtr.inj (Option.some.inj (ht'.symm.trans ht))
      obtain rfl := List.singleton_inj.mp hnode
      exact sameAddress_iff.mpr
        (.inr ⟨node', x, z, hs, hu, sameValues_trans (ha.indices hs) (hb.indices ht) hsame hsame'⟩)

end Program

end UniqueAccess
