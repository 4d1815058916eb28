import UniqueAccess.Access.Alias
import UniqueAccess.Proofs.Program.Walk
import Mathlib.Data.Finite.Prod
import Mathlib.Data.Fintype.Pigeonhole
import Mathlib.Data.List.ProdSigma
import Mathlib.Order.WellFounded

/-!
# Comparisons that end

To compare two statements may take comparisons of their operands. `sameValue?` has an answer exactly
if no chain of comparisons, each inside the one before it, goes on forever; and a chain that does
comes back to a pair. The fuel of `sameValue?` never cuts off a comparison that ends. Where every
statement uses only earlier ones, all of them end.
-/

namespace UniqueAccess

theorem isSome_bothHold {a : Option Bool} {b : Unit → Option Bool} :
    (bothHold a b).isSome ↔ a.isSome ∧ (a = some true → (b ()).isSome) := by
  rcases a with _ | _ | _ <;> simp [bothHold]

theorem isSome_eitherHolds {a : Option Bool} {b : Unit → Option Bool} :
    (eitherHolds a b).isSome ↔ a.isSome ∧ (a = some false → (b ()).isSome) := by
  rcases a with _ | _ | _ <;> simp [eitherHolds]

theorem bothHold_mono {a a' : Option Bool} {b b' : Unit → Option Bool}
    (ha : ∀ answer, a = some answer → a' = some answer)
    (hb : ∀ answer, b () = some answer → b' () = some answer) {answer : Bool}
    (h : bothHold a b = some answer) : bothHold a' b' = some answer := by
  rcases a with _ | _ | _
  · cases h
  · rwa [ha false rfl]
  · rw [ha true rfl]
    exact hb answer h

theorem eitherHolds_mono {a a' : Option Bool} {b b' : Unit → Option Bool}
    (ha : ∀ answer, a = some answer → a' = some answer)
    (hb : ∀ answer, b () = some answer → b' () = some answer) {answer : Bool}
    (h : eitherHolds a b = some answer) : eitherHolds a' b' = some answer := by
  rcases a with _ | _ | _
  · cases h
  · rw [ha false rfl]
    exact hb answer h
  · rwa [ha true rfl]

namespace Program

variable {p : Program}

-- ---------------------------------------------------------------------------
-- Fuel
-- ---------------------------------------------------------------------------

theorem sameForm?_mono {same same' : StmtId → StmtId → Option Bool}
    (h : ∀ x y answer, same x y = some answer → same' x y = some answer) {s t : Stmt}
    {answer : Bool} : sameForm? same s t = some answer → sameForm? same' s t = some answer := by
  unfold sameForm?
  split
  · exact fun hsame => hsame
  · split
    · exact h _ _ _
    · exact fun hsame => hsame
  · split
    · refine eitherHolds_mono (fun _ => bothHold_mono (h _ _) (h _ _)) ?_
      split
      · exact fun _ => bothHold_mono (h _ _) (h _ _)
      · exact fun _ hfalse => hfalse
    · exact fun hsame => hsame
  · exact fun hsame => hsame
  · exact h _ _ _
  · exact fun hsame => hsame

theorem compare?_mono {same same' : StmtId → StmtId → Option Bool}
    (h : ∀ x y answer, same x y = some answer → same' x y = some answer) {a b : StmtId}
    {answer : Bool} : p.compare? same a b = some answer → p.compare? same' a b = some answer := by
  unfold compare?
  split
  · exact fun hsame => hsame
  · split
    · exact sameForm?_mono h
    · exact fun hsame => hsame

theorem sameValueWithin?_succ {n : Nat} {a b : StmtId} {answer : Bool}
    (h : p.sameValueWithin? n a b = some answer) :
    p.sameValueWithin? (n + 1) a b = some answer := by
  induction n generalizing a b answer with
  | zero => cases h
  | succ n ih => exact compare?_mono (fun _ _ _ => ih) h

def comparisonRounds (p : Program) : Rounds (StmtId × StmtId) Bool where
  answer n q := p.sameValueWithin? n q.1 q.2
  grows := sameValueWithin?_succ
  determined {m n} h := by
    have hsame : p.sameValueWithin? m = p.sameValueWithin? n := by
      funext a b
      exact congrFun h (a, b)
    funext q
    simp only [sameValueWithin?, hsame]

def names : List StmtId := (List.range UInt32.size).map StmtId.ofIndex

theorem mem_names (id : StmtId) : id ∈ names :=
  List.mem_map.mpr ⟨id.index, List.mem_range.mpr id.number.toNat_lt_size, ofIndex_index id⟩

theorem length_pairs_names : (names ×ˢ names).length = UInt32.size * UInt32.size := by
  simp only [List.length_product, names, List.length_map, List.length_range]

/-- No comparison that ends needs more levels than there are. -/
theorem sameValueWithin?_eq {n : Nat} (h : UInt32.size * UInt32.size ≤ n) :
    p.sameValueWithin? n = p.sameValue? := by
  have hrounds : ∀ m, UInt32.size * UInt32.size ≤ m → (p.comparisonRounds).answer m =
      (p.comparisonRounds).answer (UInt32.size * UInt32.size) := by
    intro m hm
    rw [← length_pairs_names] at hm ⊢
    refine p.comparisonRounds.answer_eq (fun _ q hq => absurd ?_ hq) hm
    exact List.mem_product.mpr ⟨mem_names q.1, mem_names q.2⟩
  funext a b
  have hn := congrFun (hrounds n h) (a, b)
  have hdepth := congrFun (hrounds comparisonDepth (Nat.le_succ _)) (a, b)
  exact hn.trans hdepth.symm

theorem sameValue?_of_within {n : Nat} {a b : StmtId} {answer : Bool}
    (h : p.sameValueWithin? n a b = some answer) : p.sameValue? a b = some answer := by
  rw [← sameValueWithin?_eq (Nat.le_max_right n (UInt32.size * UInt32.size))]
  exact p.comparisonRounds.grows_le (s := (a, b)) (Nat.le_max_left ..) h

theorem sameValue?_eq (a b : StmtId) : p.sameValue? a b = p.compare? p.sameValue? a b := by
  rw [← sameValueWithin?_eq (Nat.le_refl (UInt32.size * UInt32.size)), ← sameValueWithin?,
    sameValueWithin?_eq (Nat.le_refl _), sameValueWithin?_eq (Nat.le_succ _)]

-- ---------------------------------------------------------------------------
-- Nested comparisons
-- ---------------------------------------------------------------------------

/-- To compare two forms takes the answer about these operands. -/
inductive Takes (same : StmtId → StmtId → Option Bool) : Stmt → Stmt → StmtId × StmtId → Prop
  | unary {op : UnaryOp} : Takes same (.unary op x) (.unary op y) (x, y)
  | loopUnique : Takes same (.loopUnique x) (.loopUnique y) (x, y)
  | left {op : BinaryOp} : Takes same (.binary op l r) (.binary op l' r') (l, l')
  | right {op : BinaryOp} : same l l' = some true →
      Takes same (.binary op l r) (.binary op l' r') (r, r')
  | crossLeft {op : BinaryOp} : bothHold (same l l') (fun _ => same r r') = some false →
      op.isCommutative → Takes same (.binary op l r) (.binary op l' r') (l, r')
  | crossRight {op : BinaryOp} : bothHold (same l l') (fun _ => same r r') = some false →
      op.isCommutative → same l r' = some true →
      Takes same (.binary op l r) (.binary op l' r') (r, l')

variable {same same' : StmtId → StmtId → Option Bool} {s t : Stmt} {q q' : StmtId × StmtId}

theorem Takes.mem_operands (h : Takes same s t q) : q.1 ∈ s.operands ∧ q.2 ∈ t.operands := by
  cases h <;> simp [Stmt.operands]

theorem isSome_sameForm? (h : ∀ q, Takes same s t q → (same q.1 q.2).isSome) :
    (sameForm? same s t).isSome := by
  unfold sameForm?
  split
  · rfl
  · split
    · next hop =>
      subst hop
      exact h _ .unary
    · rfl
  · next l r op' l' r' =>
    split
    · next hop =>
      subst hop
      refine isSome_eitherHolds.mpr ⟨isSome_bothHold.mpr ⟨h _ .left, fun hl => h _ (.right hl)⟩, ?_⟩
      intro hfalse
      split
      · next hcomm =>
        exact isSome_bothHold.mpr ⟨h _ (.crossLeft hfalse hcomm),
          fun hl => h _ (.crossRight hfalse hcomm hl)⟩
      · rfl
    · rfl
  · rfl
  · exact h _ .loopUnique
  · rfl

theorem Takes.isSome (hsame : ∀ x y answer, same x y = some answer → same' x y = some answer)
    (h : (sameForm? same s t).isSome) (hq : Takes same' s t q) : (same q.1 q.2).isSome := by
  have hagree : ∀ {x y answer}, (same x y).isSome → same' x y = some answer →
      same x y = some answer := by
    intro x y answer hsome h'
    obtain ⟨v, hv⟩ := Option.isSome_iff_exists.mp hsome
    rw [hv, ← h', hsame x y v hv]
  have hagrees : ∀ {l l' r r'}, (bothHold (same l l') fun _ => same r r').isSome →
      (bothHold (same' l l') fun _ => same' r r') = some false →
      (bothHold (same l l') fun _ => same r r') = some false := by
    intro l l' r r' hsome h'
    obtain ⟨v, hv⟩ := Option.isSome_iff_exists.mp hsome
    rw [hv, ← h', bothHold_mono (hsame _ _) (hsame _ _) hv]
  cases hq with
  | unary => simpa [sameForm?] using h
  | loopUnique => exact h
  | left =>
    simp only [sameForm?, if_true, isSome_eitherHolds, isSome_bothHold] at h
    exact h.1.1
  | right hl =>
    simp only [sameForm?, if_true, isSome_eitherHolds, isSome_bothHold] at h
    exact h.1.2 (hagree h.1.1 hl)
  | crossLeft hfalse hcomm =>
    simp only [sameForm?, if_true, isSome_eitherHolds, hcomm] at h
    exact (isSome_bothHold.mp (h.2 (hagrees h.1 hfalse))).1
  | crossRight hfalse hcomm hl =>
    simp only [sameForm?, if_true, isSome_eitherHolds, hcomm] at h
    obtain ⟨hleft, hright⟩ := isSome_bothHold.mp (h.2 (hagrees h.1 hfalse))
    exact hright (hagree hleft hl)

def Calls (p : Program) (outer inner : StmtId × StmtId) : Prop :=
  outer.1 ≠ outer.2 ∧ ∃ s t, p.stmt? outer.1 = some s ∧ p.stmt? outer.2 = some t ∧
    Takes p.sameValue? s t inner

theorem isSome_of_calls (h : ∀ q', p.Calls q q' → (p.sameValue? q'.1 q'.2).isSome) :
    (p.sameValue? q.1 q.2).isSome := by
  rw [sameValue?_eq, compare?]
  split
  · rfl
  · next hne =>
    split
    · next s t hs ht => exact isSome_sameForm? fun q' hq' => h q' ⟨hne, s, t, hs, ht, hq'⟩
    · rfl

theorem Calls.isSome_within {n : Nat} (hq : p.Calls q q')
    (h : (p.sameValueWithin? (n + 1) q.1 q.2).isSome) :
    (p.sameValueWithin? n q'.1 q'.2).isSome := by
  obtain ⟨hne, s, t, hs, ht, htakes⟩ := hq
  simp only [sameValueWithin?, compare?, if_neg hne, hs, ht] at h
  exact htakes.isSome (fun _ _ _ => sameValue?_of_within) h

/-- No chain of comparisons inside the comparison of a pair goes on forever. -/
abbrev Ends (p : Program) : StmtId × StmtId → Prop := Acc fun inner outer => p.Calls outer inner

theorem ends_of_within {n : Nat} (h : (p.sameValueWithin? n q.1 q.2).isSome) : p.Ends q := by
  induction n generalizing q with
  | zero => cases h
  | succ n ih => exact .intro _ fun _ hq => ih (hq.isSome_within h)

theorem isSome_iff_ends : (p.sameValue? q.1 q.2).isSome ↔ p.Ends q := by
  refine ⟨fun h => ends_of_within h, fun h => ?_⟩
  induction h with
  | intro q _ ih => exact isSome_of_calls ih

-- ---------------------------------------------------------------------------
-- Circles
-- ---------------------------------------------------------------------------

def Endless (p : Program) (q : StmtId × StmtId) : Prop :=
  ∃ chain : ℕ → StmtId × StmtId, chain 0 = q ∧ ∀ n, p.Calls (chain n) (chain (n + 1))

theorem not_ends_iff : ¬ p.Ends q ↔ p.Endless q :=
  not_acc_iff_exists_descending_chain

/-- The comparison of a pair leads to that of a pair which leads back to itself. -/
def Circles (p : Program) (q : StmtId × StmtId) : Prop :=
  ∃ q', Relation.ReflTransGen p.Calls q q' ∧ Relation.TransGen p.Calls q' q'

theorem transGen_chain {chain : ℕ → StmtId × StmtId}
    (h : ∀ n, p.Calls (chain n) (chain (n + 1))) {m n : ℕ} (hlt : m < n) :
    Relation.TransGen p.Calls (chain m) (chain n) := by
  induction hlt with
  | refl => exact .single (h m)
  | step _ ih => exact ih.tail (h _)

theorem exists_repeated (chain : ℕ → StmtId × StmtId) : ∃ m n, m < n ∧ chain m = chain n := by
  obtain ⟨m, n, hne, heq⟩ := Finite.exists_ne_map_eq_of_infinite chain
  rcases Nat.lt_or_gt_of_ne hne with hlt | hlt
  · exact ⟨m, n, hlt, heq⟩
  · exact ⟨n, m, hlt, heq.symm⟩

theorem ends_of_reflTransGen (h : p.Ends q) (hreach : Relation.ReflTransGen p.Calls q q') :
    p.Ends q' := by
  induction hreach with
  | refl => exact h
  | tail _ hcall ih => exact ih.inv hcall

theorem not_transGen_self (h : p.Ends q) : ¬ Relation.TransGen p.Calls q q := by
  induction h with
  | intro q _ ih =>
    intro hcircle
    obtain ⟨q', hcall, hback⟩ := Relation.TransGen.head'_iff.mp hcircle
    exact ih q' hcall (Relation.TransGen.tail' hback hcall)

theorem endless_iff : p.Endless q ↔ p.Circles q := by
  constructor
  · rintro ⟨chain, rfl, hchain⟩
    -- There are finitely many names, so that some pair comes twice.
    obtain ⟨m, n, hlt, heq⟩ := exists_repeated chain
    refine ⟨chain m, ?_, ?_⟩
    · rcases Nat.eq_zero_or_pos m with rfl | hpos
      · exact .refl
      · exact (transGen_chain hchain hpos).to_reflTransGen
    · have hcircle := transGen_chain hchain hlt
      rwa [← heq] at hcircle
  · rintro ⟨q', hreach, hcircle⟩
    exact not_ends_iff.mp fun hends =>
      not_transGen_self (ends_of_reflTransGen hends hreach) hcircle

-- ---------------------------------------------------------------------------
-- Ordered tables
-- ---------------------------------------------------------------------------

/-- Every statement uses only what stands before it in the table. -/
def Ordered (p : Program) : Prop :=
  ∀ id s, p.stmt? id = some s → ∀ operand ∈ s.operands, operand.index < id.index

theorem mem_zipIdx_of_stmt? {id : StmtId} {s : Stmt} (h : p.stmt? id = some s) :
    (s, id.index) ∈ p.stmts.toList.zipIdx := by
  rw [List.mem_zipIdx_iff_getElem?]
  simpa [stmt?] using h

theorem ordered_of_zipIdx
    (h : ∀ x ∈ p.stmts.toList.zipIdx, ∀ operand ∈ x.1.operands, operand.index < x.2) :
    p.Ordered :=
  fun _ _ hs => h _ (mem_zipIdx_of_stmt? hs)

theorem Ordered.index_lt_of_calls (h : p.Ordered) (hcall : p.Calls q q') :
    q'.1.index < q.1.index := by
  obtain ⟨_, s, _, hs, _, htakes⟩ := hcall
  exact h q.1 s hs q'.1 htakes.mem_operands.1

theorem Ordered.ends (h : p.Ordered) (q : StmtId × StmtId) : p.Ends q := by
  induction hn : q.1.index using Nat.strong_induction_on generalizing q with
  | _ n ih =>
    subst hn
    exact .intro q fun q' hcall => ih q'.1.index (h.index_lt_of_calls hcall) q' rfl

theorem Ordered.isSome_sameValue? (h : p.Ordered) (a b : StmtId) : (p.sameValue? a b).isSome :=
  isSome_iff_ends.mpr (h.ends (a, b))

end Program

end UniqueAccess
