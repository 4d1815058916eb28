import UniqueAccess.Access.Packed
import UniqueAccess.Proofs.Access.Pointers
import UniqueAccess.Proofs.Program.Tasks

/-!
# The passes of inner loops

A serial loop in the body of a task runs many passes within one iteration, and what is computed
inside may change from pass to pass. Whether the address of a representative is unique to its
iteration is decided without looking at this: indices without a tag are left aside, and the index of
an inner loop has none. All accesses within an iteration have one address if no index of the
representative varies with an inner loop. If one varies with a loop around the representative, they
have not.
-/

namespace UniqueAccess

open Relation (TransGen ReflTransGen)

/-- Whether the value follows from what the operands are worth in the same instance. -/
def Stmt.isDerived : Stmt → Bool
  | const _ => true
  | unary .. => true
  | binary .. => true
  | loopUnique _ => true
  | _ => false

namespace Program

variable {p : Program} {task loop a x : StmtId} {s : Stmt} {dimensions : Nat} {ι ν : Type}

-- ---------------------------------------------------------------------------
-- What varies
-- ---------------------------------------------------------------------------

/-- A serial loop that runs as part of the task. -/
structure InnerLoop (p : Program) (task loop : StmtId) : Prop where
  isLoop : ∃ first last body, p.stmt? loop = some (.rangeFor first last body)
  under : p.Under .taskLocal (p.taskBody task) loop

/-- The value may be another one in the next pass of the loop: it is an index of the loop or of a
loop inside, it is no operator and computed anew in every pass, or an operand varies. -/
inductive VariesWith (p : Program) (loop : StmtId) : StmtId → Prop
  | index {a owner : StmtId} {k : UInt64} : p.stmt? a = some (.loopIndex owner k) →
      p.Encloses .taskLocal loop owner → VariesWith p loop a
  | inside {a : StmtId} {s : Stmt} : p.stmt? a = some s → s.isDerived = false →
      (∀ owner k, s ≠ .loopIndex owner k) → TransGen (p.Owns .taskLocal) loop a →
      VariesWith p loop a
  | operand {a x : StmtId} {s : Stmt} : p.stmt? a = some s → s.isDerived → x ∈ s.operands →
      VariesWith p loop x → VariesWith p loop a

theorem variesWith_derived (hs : p.stmt? a = some s) (hderived : s.isDerived) :
    p.VariesWith loop a ↔ ∃ x ∈ s.operands, p.VariesWith loop x := by
  constructor
  · rintro (⟨hs', _⟩ | ⟨hs', hnot, _, _⟩ | ⟨hs', _, hx, hvaries⟩)
    · cases hs'.symm.trans hs
      cases hderived
    · cases hs'.symm.trans hs
      exact absurd hderived (by simp [hnot])
    · cases hs'.symm.trans hs
      exact ⟨_, hx, hvaries⟩
  · rintro ⟨x, hx, hvaries⟩
    exact .operand hs hderived hx hvaries

theorem variesWith_loopIndex {owner : StmtId} {k : UInt64}
    (hs : p.stmt? a = some (.loopIndex owner k)) :
    p.VariesWith loop a ↔ p.Encloses .taskLocal loop owner := by
  constructor
  · rintro (⟨hs', hencl⟩ | ⟨hs', _, hnot, _⟩ | ⟨hs', hderived, _, _⟩)
    · cases hs'.symm.trans hs
      exact hencl
    · cases hs'.symm.trans hs
      exact absurd rfl (hnot owner k)
    · cases hs'.symm.trans hs
      cases hderived
  · exact .index hs

theorem Owns.everything {outer inner : StmtId} (h : p.Owns .taskLocal outer inner) :
    p.Owns .everything outer inner := by
  obtain ⟨s, hs, hinner⟩ := h
  refine ⟨s, hs, ?_⟩
  unfold nested at hinner
  split at hinner
  · cases hinner
  · simpa using hinner

theorem InnerLoop.not_variesWith (hp : p.isValid) (ht : task ∈ p.tasks)
    (hloop : p.InnerLoop task loop) {k : UInt64} (hs : p.stmt? a = some (.loopIndex task k)) :
    ¬ p.VariesWith loop a := by
  rw [variesWith_loopIndex hs]
  intro hencl
  have htask := (mem_tasks_iff hp).mp ht
  have haround := ((under_taskBody_iff hp htask).mp hloop.under).around
  have hback : p.Encloses .everything loop task :=
    ReflTransGen.mono (fun _ _ => Owns.everything) _ _ hencl
  exact not_owns_itself (listedOnce_of_isValid hp) htask.reachable (haround.trans_left hback)

-- ---------------------------------------------------------------------------
-- Passes
-- ---------------------------------------------------------------------------

/-- In every instance a pointer of the task is evaluated, at its site, while every inner loop is in
some pass. -/
structure Paced (p : Program) (task : StmtId) (V : Valuation dimensions ι ν) (site : ι → StmtId)
    (pass : ι → StmtId → ℕ) : Prop where
  /-- A site is reached once in every pass of the loops around it. -/
  once {i j : ι} : V.iteration i = V.iteration j → site i = site j →
    (∀ loop, p.InnerLoop task loop → TransGen (p.Owns .taskLocal) loop (site i) →
      pass i loop = pass j loop) → V.value i = V.value j
  /-- What is no operator is computed once in every pass of the loops that it varies with. -/
  steady {i j : ι} {a : StmtId} : (∀ s, p.stmt? a = some s → s.isDerived = false) →
    V.iteration i = V.iteration j →
    (∀ loop, p.InnerLoop task loop → p.VariesWith loop a → pass i loop = pass j loop) →
      V.value i a = V.value j a

/-- All accesses to a node within one iteration have the same address, in whatever pass. -/
def OneAddress (p : Program) (task : StmtId) (node : NodeId) (dimensions : Nat) : Prop :=
  ∀ (ι ν : Type) (V : Valuation dimensions ι ν) (ops : Operators ν) (site : ι → StmtId)
    (pass : ι → StmtId → ℕ), V.Respects p task ops → p.Paced task V site pass →
    ∀ i j x y, p.LeadsTo task node (site i) x → p.LeadsTo task node (site j) y →
      V.iteration i = V.iteration j → V.tuple i x = V.tuple j y

theorem Paced.value_eq {V : Valuation dimensions ι ν} {ops : Operators ν} {site : ι → StmtId}
    {pass : ι → StmtId → ℕ} (hpaced : p.Paced task V site pass) (hV : V.Respects p task ops)
    (hordered : p.Ordered) (hsteady : ∀ loop, p.InnerLoop task loop → ¬ p.VariesWith loop a)
    {i j : ι} (hij : V.iteration i = V.iteration j) : V.value i a = V.value j a := by
  induction hn : a.index using Nat.strong_induction_on generalizing a with
  | _ n ih =>
    subst hn
    have hoperand : ∀ {s}, p.stmt? a = some s → s.isDerived → ∀ x ∈ s.operands,
        V.value i x = V.value j x := fun hs hderived x hx =>
      ih x.index (hordered a _ hs x hx)
        (fun loop hloop hvaries => hsteady loop hloop (.operand hs hderived hx hvaries)) rfl
    by_cases hderived : ∃ s, p.stmt? a = some s ∧ s.isDerived
    · obtain ⟨s, hs, hderived⟩ := hderived
      have hoperand := hoperand hs hderived
      cases s with
      | const v => exact hV.const hs i j
      | unary op x =>
        rw [(hV.computes i).unary hs, (hV.computes j).unary hs,
          hoperand x (by simp [Stmt.operands])]
      | binary op x y =>
        rw [(hV.computes i).binary hs, (hV.computes j).binary hs,
          hoperand x (by simp [Stmt.operands]), hoperand y (by simp [Stmt.operands])]
      | loopUnique x =>
        rw [(hV.congruent i).loopUnique hs, (hV.congruent j).loopUnique hs,
          hoperand x (by simp [Stmt.operands])]
      | _ => cases hderived
    · refine hpaced.steady (fun s hs => ?_) hij fun loop hloop hvaries =>
        absurd hvaries (hsteady loop hloop)
      simpa using fun hd => hderived ⟨s, hs, hd⟩

theorem oneAddress {m : AccessMap}
    (hm : p.Reflects p.structuralOracle task dimensions m (p.accesses task)) (hordered : p.Ordered)
    {node : NodeId} {r : StmtId} {z : List StmtId} (hr : m.get? node = some (some r))
    (hz : p.LeadsTo task node r z)
    (hsteady : ∀ x ∈ z, ∀ loop, p.InnerLoop task loop → ¬ p.VariesWith loop x) :
    p.OneAddress task node dimensions := by
  intro ι ν V ops site pass hV hpaced i j x y hx hy hij
  have htuple : V.tuple i z = V.tuple j z :=
    List.map_congr_left fun k hk => hpaced.value_eq hV hordered (hsteady k hk) hij
  rw [hm.tuple_eq hV hr hz hx i, hm.tuple_eq hV hr hz hy j, htuple]

-- ---------------------------------------------------------------------------
-- A run in which passes differ
-- ---------------------------------------------------------------------------

/-- The sum, over all ways down from a statement, of what is counted at their ends. -/
def total (h : p.Ordered) (count : StmtId → ℕ) (a : StmtId) : ℕ :=
  match _hs : p.stmt? a with
  | some (.const _) => 0
  | some (.unary _ x) => total h count x
  | some (.binary _ x y) => total h count x + total h count y
  | some (.loopUnique x) => total h count x
  | _ => count a
termination_by a.index
decreasing_by
  all_goals exact h a _ (by assumption) _ (by simp [Stmt.operands])

section
variable (h : p.Ordered) (count : StmtId → ℕ)

theorem total_const {v : Constant} (hs : p.stmt? a = some (.const v)) : total h count a = 0 := by
  rw [total]
  split <;> simp_all

theorem total_unary {op : UnaryOp} (hs : p.stmt? a = some (.unary op x)) :
    total h count a = total h count x := by
  rw [total]
  split <;> simp_all

theorem total_binary {op : BinaryOp} {y : StmtId} (hs : p.stmt? a = some (.binary op x y)) :
    total h count a = total h count x + total h count y := by
  rw [total]
  split <;> simp_all

theorem total_loopUnique (hs : p.stmt? a = some (.loopUnique x)) :
    total h count a = total h count x := by
  rw [total]
  split <;> simp_all

theorem total_other (hs : ∀ s, p.stmt? a = some s → s.isDerived = false) :
    total h count a = count a := by
  rw [total]
  split <;> simp_all [Stmt.isDerived]

end

open Classical in
/-- How often a statement reads what varies with a loop. -/
noncomputable def share (h : p.Ordered) (loop : StmtId) : StmtId → ℕ :=
  total h fun a => if p.VariesWith loop a then 1 else 0

section
variable {h : p.Ordered}

theorem share_pos (hvaries : p.VariesWith loop a) : 0 < share h loop a := by
  induction hvaries with
  | @index a owner k hs hencl =>
    rw [share, total_other h _ (by simp [hs, Stmt.isDerived]), if_pos (.index hs hencl)]
    exact Nat.one_pos
  | @inside a s hs hnot hindex howns =>
    rw [share, total_other h _ (by simp [hs, hnot]), if_pos (.inside hs hnot hindex howns)]
    exact Nat.one_pos
  | @operand a x s hs hderived hx _ ih =>
    rw [share] at ih ⊢
    cases s with
    | const v => cases hx
    | unary op y =>
      obtain rfl := List.mem_singleton.mp hx
      rwa [total_unary h _ hs]
    | binary op y z =>
      rw [total_binary h _ hs]
      rcases List.mem_cons.mp hx with rfl | hx
      · exact Nat.add_pos_left ih _
      · obtain rfl := List.mem_singleton.mp hx
        exact Nat.add_pos_right _ ih
    | loopUnique y =>
      obtain rfl := List.mem_singleton.mp hx
      rwa [total_loopUnique h _ hs]
    | _ => cases hderived

theorem share_eq_zero (hs : ∀ s, p.stmt? a = some s → s.isDerived = false)
    (hnot : ¬ p.VariesWith loop a) : share h loop a = 0 := by
  rw [share, total_other h _ hs, if_neg hnot]

theorem share_loopIndex {b owner : StmtId} {k : UInt64}
    (ha : p.stmt? a = some (.loopIndex owner k)) (hb : p.stmt? b = some (.loopIndex owner k)) :
    share h loop a = share h loop b := by
  rw [share, total_other h _ (by simp [ha, Stmt.isDerived]),
    total_other h _ (by simp [hb, Stmt.isDerived])]
  have hiff : p.VariesWith loop a ↔ p.VariesWith loop b := by
    rw [variesWith_loopIndex ha, variesWith_loopIndex hb]
  by_cases hvaries : p.VariesWith loop b
  · rw [if_pos hvaries, if_pos (hiff.mpr hvaries)]
  · rw [if_neg hvaries, if_neg fun h => hvaries (hiff.mp h)]

end

def counting : Operators ℕ where
  unary _ x := x
  binary _ x y := x + y

/-- One iteration, and in it one instance for every pass of a loop: what varies with the loop grows
with every pass, and nothing else is worth anything. -/
noncomputable def passValuation (h : p.Ordered) (loop : StmtId) (dimensions : Nat) :
    Valuation dimensions ℕ ℕ where
  iteration _ _ := 0
  value n a := n * share h loop a

theorem passValuation_computes (h : p.Ordered) (loop : StmtId) (n : ℕ) :
    Computes p counting ((passValuation h loop dimensions).value n) where
  unary hs := congrArg (n * ·) (total_unary h _ hs)
  binary hs := (congrArg (n * ·) (total_binary h _ hs)).trans (Nat.mul_add ..)

theorem passValuation_respects (hp : p.isValid) (ht : task ∈ p.tasks) (h : p.Ordered)
    (hloop : p.InnerLoop task loop) :
    (passValuation h loop dimensions).Respects p task counting where
  computes := passValuation_computes h loop
  injective := {
    neg := fun _ _ h => h
    left := fun _ _ _ _ h => Nat.add_right_cancel h
    right := fun _ _ _ _ h => Nat.add_left_cancel h }
  const hs i j := by simp [passValuation, share, total_const h _ hs]
  loopIndex hs _ i := by
    have hzero := share_eq_zero (h := h) (by simp [hs, Stmt.isDerived])
      (hloop.not_variesWith hp ht hs)
    simp [passValuation, hzero]
  loopUnique _ i j hij := absurd rfl hij
  congruent n := {
    toComputes := passValuation_computes h loop n
    symmetric := fun _ _ => Nat.add_comm
    const := fun hs hs' _ => by simp [passValuation, share, total_const h _ hs, total_const h _ hs']
    loopIndex := fun hs hs' => congrArg (n * ·) (share_loopIndex hs hs')
    loopUnique := fun hs => congrArg (n * ·) (total_loopUnique h _ hs) }

theorem passValuation_paced (h : p.Ordered) {ptr : StmtId} (hloop : p.InnerLoop task loop)
    (haround : TransGen (p.Owns .taskLocal) loop ptr) :
    p.Paced task (passValuation h loop dimensions) (fun _ => ptr)
      fun n l => if l = loop then n else 0 where
  once {i j} _ _ hpass := by
    have hij : i = j := by simpa using hpass loop hloop haround
    rw [hij]
  steady {i j a} hs _ hpass := by
    by_cases hvaries : p.VariesWith loop a
    · have hij : i = j := by simpa using hpass loop hloop hvaries
      rw [hij]
    · simp [passValuation, share_eq_zero hs hvaries]

theorem not_oneAddress (hp : p.isValid) (hordered : p.Ordered) (ht : task ∈ p.tasks)
    {node : NodeId} {ptr : StmtId} {indices : List StmtId}
    (hleads : p.LeadsTo task node ptr indices) (hloop : p.InnerLoop task loop)
    (haround : TransGen (p.Owns .taskLocal) loop ptr) (hx : x ∈ indices)
    (hvaries : p.VariesWith loop x) : ¬ p.OneAddress task node dimensions := by
  intro hone
  have htuple := hone _ _ (passValuation hordered loop dimensions) counting _ _
    (passValuation_respects hp ht hordered hloop) (passValuation_paced hordered hloop haround)
    0 1 indices indices hleads hleads rfl
  have hvalue : 0 * share hordered loop x = 1 * share hordered loop x :=
    List.map_inj_left.mp htuple x hx
  have hpos : 0 < share hordered loop x := share_pos hvaries
  omega

/-- The accesses within an iteration to a node with a representative have one address, if no index
of the representative varies with an inner loop, and only then as far as loops around it go. -/
theorem oneAddress_of_steady (hp : p.isValid) (hordered : p.Ordered) (ht : task ∈ p.tasks) :
    ∃ dimensions m, p.taskDimensions task = .ok dimensions ∧
      p.uniquePointers p.structuralOracle task = .ok m ∧
      ∀ node r, m.get? node = some (some r) → ∃ z, p.LeadsTo task node r z ∧
        ((∀ x ∈ z, ∀ loop, p.InnerLoop task loop → ¬ p.VariesWith loop x) →
          p.OneAddress task node dimensions) ∧
        ∀ x ∈ z, ∀ loop, p.InnerLoop task loop → TransGen (p.Owns .taskLocal) loop r →
          p.VariesWith loop x → ¬ p.OneAddress task node dimensions := by
  obtain ⟨dimensions, hdim⟩ := taskDimensions_of_mem_tasks hp ht
  obtain ⟨m, hok, hm⟩ := uniquePointers_ok p.structuralOracle hdim
  refine ⟨dimensions, m, hdim, hok, fun node r hr => ?_⟩
  obtain ⟨⟨z, hz, _⟩, _⟩ := hm.representative hr
  exact ⟨z, hz, oneAddress hm hordered hr hz, fun x hx loop hloop haround hvaries =>
    not_oneAddress hp hordered ht hz hloop haround hx hvaries⟩

/-- A task over a range with a loop inside, and in the loop a pointer at `i` and one more index. -/
def rowProgram (column : StmtId) : Program where
  version := currentVersion
  storage := ⟨#[{ id := ⟨0⟩, kind := .root }, { id := ⟨1⟩, kind := .place, parent := some ⟨0⟩ }]⟩
  stmts := #[
    .task .rangeFor none [⟨1⟩, ⟨2⟩, ⟨3⟩, ⟨4⟩],
    .loopIndex ⟨0⟩ 0,
    .const (.i32 0),
    .const (.i32 4),
    .rangeFor ⟨2⟩ ⟨3⟩ [⟨5⟩, ⟨6⟩],
    .loopIndex ⟨4⟩ 0,
    .globalPtr [⟨1⟩] [⟨1⟩, column]]
  root := [⟨0⟩]

theorem rowProgram_innerLoop (column : StmtId) : (rowProgram column).InnerLoop ⟨0⟩ ⟨4⟩ :=
  ⟨⟨⟨2⟩, ⟨3⟩, [⟨5⟩, ⟨6⟩], rfl⟩, ⟨4⟩, by simp [taskBody, rowProgram, stmt?, StmtId.index], .refl⟩

theorem rowProgram_oneAddress : (rowProgram ⟨2⟩).OneAddress ⟨0⟩ ⟨1⟩ 1 := by
  have hvalid : (rowProgram ⟨2⟩).isValid :=
    isValid_iff.mpr ⟨by decide, [⟨0⟩, ⟨1⟩, ⟨2⟩, ⟨3⟩, ⟨4⟩, ⟨5⟩, ⟨6⟩],
      trail?_eq_some.mp (by decide +kernel), by decide, by decide⟩
  have hordered : (rowProgram ⟨2⟩).Ordered := ordered_of_zipIdx (by decide)
  have htask : (⟨0⟩ : StmtId) ∈ (rowProgram ⟨2⟩).tasks := by decide +kernel
  have hpointers : (rowProgram ⟨2⟩).uniquePointers (rowProgram ⟨2⟩).structuralOracle ⟨0⟩ =
      .ok (.ofList [(⟨1⟩, some ⟨6⟩)]) := by decide +kernel
  obtain ⟨dimensions, m, hdim, hok, hone⟩ := oneAddress_of_steady hvalid hordered htask
  obtain rfl : 1 = dimensions := Except.ok.inj hdim
  obtain rfl := Except.ok.inj (hpointers.symm.trans hok)
  obtain ⟨z, ⟨candidates, hz, _⟩, hsteady, _⟩ := hone ⟨1⟩ ⟨6⟩ rfl
  cases stmt?_of_mem_taskVisits hz
  refine hsteady fun x hx loop hloop => ?_
  rcases List.mem_cons.mp hx with rfl | hx
  · exact hloop.not_variesWith hvalid htask rfl
  · obtain rfl := List.mem_singleton.mp hx
    have hconst : (rowProgram ⟨2⟩).stmt? ⟨2⟩ = some (.const (.i32 0)) := rfl
    simp [variesWith_derived hconst rfl, Stmt.operands]

/-- The cell at `i, k` is another one in every pass, and still the pointer represents its node. -/
theorem rowProgram_manyAddresses :
    (rowProgram ⟨5⟩).isValid ∧ (rowProgram ⟨5⟩).Ordered ∧
      ⟨0⟩ ∈ (rowProgram ⟨5⟩).parallelTasks ∧ ∃ m,
        (rowProgram ⟨5⟩).uniquePointers (rowProgram ⟨5⟩).structuralOracle ⟨0⟩ = .ok m ∧
        m.get? ⟨1⟩ = some (some ⟨6⟩) ∧ ¬ (rowProgram ⟨5⟩).OneAddress ⟨0⟩ ⟨1⟩ 1 := by
  have hvalid : (rowProgram ⟨5⟩).isValid :=
    isValid_iff.mpr ⟨by decide, [⟨0⟩, ⟨1⟩, ⟨2⟩, ⟨3⟩, ⟨4⟩, ⟨5⟩, ⟨6⟩],
      trail?_eq_some.mp (by decide +kernel), by decide, by decide⟩
  have hordered : (rowProgram ⟨5⟩).Ordered := ordered_of_zipIdx (by decide)
  have hpointers : (rowProgram ⟨5⟩).uniquePointers (rowProgram ⟨5⟩).structuralOracle ⟨0⟩ =
      .ok (.ofList [(⟨1⟩, some ⟨6⟩)]) := by decide +kernel
  have hleads : (rowProgram ⟨5⟩).LeadsTo ⟨0⟩ ⟨1⟩ ⟨6⟩ [⟨1⟩, ⟨5⟩] :=
    ⟨[⟨1⟩], by decide +kernel, by decide⟩
  have haround : TransGen ((rowProgram ⟨5⟩).Owns .taskLocal) ⟨4⟩ ⟨6⟩ :=
    .single ⟨_, rfl, by decide⟩
  have hvaries : (rowProgram ⟨5⟩).VariesWith ⟨4⟩ ⟨5⟩ := .index rfl .refl
  exact ⟨hvalid, hordered, by decide +kernel, _, hpointers, rfl,
    not_oneAddress hvalid hordered (by decide +kernel) hleads (rowProgram_innerLoop ⟨5⟩) haround
      (by decide) hvaries⟩

end Program

end UniqueAccess
