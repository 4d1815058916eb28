import UniqueAccess.Proofs.Access.Packed

/-!
# What the analyses of a task ask

The analyses of a task ask the structural oracle to compare values. All these comparisons end if
every statement uses only what stands before it in the table, but validity asks that of listed
statements alone: those that no block lists may use one another in circles.
-/

namespace UniqueAccess.Program

open Relation (ReflTransGen TransGen)

variable {p : Program} {q q' : StmtId × StmtId}

-- ---------------------------------------------------------------------------
-- Questions
-- ---------------------------------------------------------------------------

/-- The indices of two pointers are compared pair by pair, until constants are found to differ. -/
def AddressTakes (p : Program) (a b : StmtId) (q : StmtId × StmtId) : Prop :=
  a ≠ b ∧ ∃ node x y before after,
    p.stmt? a = some (.globalPtr [node] x) ∧ p.stmt? b = some (.globalPtr [node] y) ∧
      x.length = y.length ∧ x.zip y = before ++ q :: after ∧
      ∀ q' ∈ before, p.sameValue q'.1 q'.2 ∨ ¬ p.distinctConstants q'.1 q'.2

/-- The comparisons that the analyses of a task ask for: of the indices of a pointer with those of
the representative of a node it leads to, and of the indices of the representatives of two fields,
until a pair is not the same. -/
inductive Asks (p : Program) (task : StmtId) : StmtId × StmtId → Prop
  | address {dimensions : Nat} {done rest : List (StmtId × NodeId)} {ptr r : StmtId}
      {node : NodeId} {m : AccessMap} {q : StmtId × StmtId} :
      p.taskDimensions task = .ok dimensions →
      p.accesses task = done ++ (ptr, node) :: rest →
      done.foldlM (p.recordAccess p.structuralOracle task (p.loopFacts task) dimensions) .empty =
        .ok m →
      m.get? node = some (some r) → p.AddressTakes r ptr q → Asks p task q
  | field {m c : AccessMap} {done rest : List (NodeId × Option StmtId)} {node container : NodeId}
      {field r : StmtId} {x y : List StmtId} {before after : List (StmtId × StmtId)}
      {q : StmtId × StmtId} :
      p.uniquePointers p.structuralOracle task = .ok m →
      m.entries = done ++ (node, some field) :: rest →
      done.foldlM (p.recordField p.structuralOracle) .empty = .ok c →
      p.packedInto node = .ok (some container) → c.get? container = some (some r) →
      p.requireIndices field = .ok x → p.requireIndices r = .ok y → x.length = y.length →
      x.zip y = before ++ q :: after → (∀ q' ∈ before, p.sameValue q'.1 q'.2) → Asks p task q

/-- What decides where `all` stops decides all. -/
theorem all_congr_of_before {α : Type} {f g : α → Bool} {l : List α}
    (h : ∀ before a after, l = before ++ a :: after → (∀ b ∈ before, f b) → g a = f a) :
    l.all g = l.all f := by
  induction l with
  | nil => rfl
  | cons a rest ih =>
    have hfirst : g a = f a := h [] a rest rfl (by simp)
    cases hf : f a with
    | false => simp [hfirst, hf]
    | true =>
      have hrest : rest.all g = rest.all f := ih fun before b after hsplit hbefore =>
        h (a :: before) b after (by simp [hsplit]) (List.forall_mem_cons.mpr ⟨hf, hbefore⟩)
      simp [hfirst, hf, hrest]

theorem foldlM_congr {ε α β : Type} {f g : β → α → Except ε β} {l : List α} {b : β}
    (h : ∀ done a rest m, l = done ++ a :: rest → done.foldlM f b = .ok m → g m a = f m a) :
    l.foldlM g b = l.foldlM f b := by
  induction l generalizing b with
  | nil => rfl
  | cons a rest ih =>
    have hfirst : g b a = f b a := h [] a rest b rfl rfl
    rw [List.foldlM_cons, List.foldlM_cons, hfirst]
    cases hb : f b a with
    | error e => rfl
    | ok b' =>
      refine ih fun done a' rest' m hsplit hm => h (a :: done) a' rest' m (by simp [hsplit]) ?_
      rw [List.foldlM_cons, hb]
      exact hm

variable {same : StmtId → StmtId → Bool} {task : StmtId}

theorem allSame_congr {same' : StmtId → StmtId → Bool} {x y : List StmtId}
    (h : ∀ before q after, x.zip y = before ++ q :: after →
      (∀ q' ∈ before, same q'.1 q'.2) → same' q.1 q.2 = same q.1 q.2) :
    allSame same' x y = allSame same x y :=
  all_congr_of_before h

theorem aliasIndices_congr {x y : List StmtId}
    (h : x.length = y.length → ∀ before q after, x.zip y = before ++ q :: after →
      (∀ q' ∈ before, p.sameValue q'.1 q'.2 ∨ ¬ p.distinctConstants q'.1 q'.2) →
        same q.1 q.2 = p.sameValue q.1 q.2) :
    p.aliasIndices same x y = p.aliasIndices p.sameValue x y := by
  unfold aliasIndices
  split
  · rfl
  · next hlen =>
    have h := h (not_not.mp hlen)
    have hgoes : ∀ q : StmtId × StmtId,
        (!(!p.sameValue q.1 q.2 && p.distinctConstants q.1 q.2)) = true →
          p.sameValue q.1 q.2 ∨ ¬ p.distinctConstants q.1 q.2 := by
      intro q
      cases p.sameValue q.1 q.2 <;> simp
    have hdiffer : p.someDiffer same x y = p.someDiffer p.sameValue x y := by
      rw [someDiffer, someDiffer, List.any_eq_not_all_not, List.any_eq_not_all_not]
      refine congrArg _ (all_congr_of_before fun before q after hsplit hbefore => ?_)
      have hq := h before q after hsplit fun q' hq' => hgoes q' (hbefore q' hq')
      show (!(!same q.1 q.2 && p.distinctConstants q.1 q.2)) =
        !(!p.sameValue q.1 q.2 && p.distinctConstants q.1 q.2)
      rw [hq]
    rw [hdiffer]
    split
    · rfl
    · next hnone =>
      -- No pair differs for certain, so that all of them are compared.
      have hall : allSame same x y = allSame p.sameValue x y := by
        refine allSame_congr fun before q after hsplit _ => ?_
        refine h before q after hsplit fun q' hq' => hgoes q' ?_
        rw [someDiffer, List.any_eq_true, not_exists] at hnone
        have hmem : q' ∈ x.zip y := hsplit ▸ List.mem_append_left _ hq'
        rw [Bool.not_eq_true']
        exact Bool.eq_false_iff.mpr fun hdiffers => hnone q' ⟨hmem, hdiffers⟩
      rw [hall]

theorem aliasAnswerBy_congr {a b : StmtId}
    (h : ∀ q, p.AddressTakes a b q → same q.1 q.2 = p.sameValue q.1 q.2) :
    p.aliasAnswerBy same a b = p.aliasAnswerBy p.sameValue a b := by
  unfold aliasAnswerBy
  split
  · rfl
  · next hne =>
    split
    · next candidates x candidates' y ha hb =>
      unfold aliasPointers
      split
      · next node node' =>
        split
        · next hnode =>
          subst hnode
          exact aliasIndices_congr fun hlen before q after hsplit hbefore =>
            h q ⟨hne, node, x, y, before, after, ha, hb, hlen, hsplit, hbefore⟩
        · rfl
      · rfl
    · rfl

theorem recordAccess_congr {o o' : AliasOracle} {f : LoopFacts} {dimensions : Nat} {m : AccessMap}
    {ptr : StmtId} {node : NodeId}
    (h : ∀ r, m.get? node = some (some r) → o'.sameAddress r ptr = o.sameAddress r ptr) :
    p.recordAccess o' task f dimensions m (ptr, node) =
      p.recordAccess o task f dimensions m (ptr, node) := by
  simp only [recordAccess, judge]
  split
  · rfl
  · rfl
  · next r hr => rw [h r hr]

theorem compareFields_congr {container : NodeId} {r field : StmtId}
    (h : ∀ x y, p.requireIndices field = .ok x → p.requireIndices r = .ok y →
      x.length = y.length → ∀ before q after, x.zip y = before ++ q :: after →
        (∀ q' ∈ before, p.sameValue q'.1 q'.2) → same q.1 q.2 = p.sameValue q.1 q.2) :
    p.compareFields (p.oracleBy same) container r field =
      p.compareFields p.structuralOracle container r field := by
  unfold compareFields
  cases hx : p.requireIndices field with
  | error e => rfl
  | ok x =>
    cases hy : p.requireIndices r with
    | error e => rfl
    | ok y =>
      by_cases hlen : x.length = y.length
      · have hall : allSame same x y = allSame p.sameValue x y :=
          allSame_congr fun before q after hsplit hbefore =>
            h x y hx hy hlen before q after hsplit hbefore
        simp only [bind, Except.bind, hlen, structuralOracle, oracleBy, hall]
        rfl
      · simp only [bind, Except.bind, hlen, ne_eq, not_false_eq_true, if_true]
        rfl

theorem uniquePointers_congr (h : ∀ q, p.Asks task q → same q.1 q.2 = p.sameValue q.1 q.2) :
    p.uniquePointers (p.oracleBy same) task = p.uniquePointers p.structuralOracle task := by
  unfold uniquePointers
  cases hdim : p.taskDimensions task with
  | error e => rfl
  | ok dimensions =>
    refine foldlM_congr fun done (ptr, node) rest m hsplit hm => recordAccess_congr fun r hr => ?_
    have haddress : p.aliasAnswerBy same r ptr = p.aliasAnswerBy p.sameValue r ptr :=
      aliasAnswerBy_congr fun q hq => h q (.address hdim hsplit hm hr hq)
    simp only [structuralOracle, oracleBy, haddress]

theorem packedContainers_congr (h : ∀ q, p.Asks task q → same q.1 q.2 = p.sameValue q.1 q.2) :
    p.packedContainers (p.oracleBy same) task = p.packedContainers p.structuralOracle task := by
  unfold packedContainers
  rw [uniquePointers_congr h]
  cases hm : p.uniquePointers p.structuralOracle task with
  | error e => rfl
  | ok m =>
    refine foldlM_congr fun done (node, entry) rest c hsplit hc => ?_
    simp only [recordField]
    cases hnode : p.packedInto node with
    | error e => rfl
    | ok container? =>
      rcases container? with _ | container
      · rfl
      · have hjudge : p.judgeField (p.oracleBy same) c container entry =
            p.judgeField p.structuralOracle c container entry := by
          unfold judgeField
          split
          · rfl
          · next r field hr =>
            exact compareFields_congr fun x y hx hy hlen before q after hzip hbefore =>
              h q (.field hm hsplit hc hnode hr hx hy hlen hzip hbefore)
          · rfl
        simp only [bind, Except.bind, hjudge]

-- ---------------------------------------------------------------------------
-- Statements that no block lists
-- ---------------------------------------------------------------------------

/-- The statement is met by no walk, and uses one that does not stand before it in the table. -/
def UsesLater (p : Program) (id : StmtId) : Prop :=
  id ∉ p.trail .everything p.root ∧
    ∃ s, p.stmt? id = some s ∧ ∃ operand ∈ s.operands, id.index ≤ operand.index

theorem Ordered.not_usesLater {id : StmtId} (h : p.Ordered) : ¬ p.UsesLater id :=
  fun ⟨_, s, hs, operand, hoperand, hle⟩ =>
    absurd (h id s hs operand hoperand) (Nat.not_lt.mpr hle)

theorem Calls.usesLater (hp : p.isValid) (h : p.Calls q q') (hle : q.1.index ≤ q'.1.index) :
    p.UsesLater q.1 := by
  obtain ⟨_, s, t, hs, _, htakes⟩ := h
  have hoperand := htakes.mem_operands.1
  refine ⟨fun hmem => ?_, s, hs, q'.1, hoperand, hle⟩
  exact absurd (operand_index_lt hp hmem hs hoperand) (Nat.not_lt.mpr hle)

/-- On the way from one pair to another the first statements get earlier, unless one of them uses
a later one. -/
theorem exists_usesLater_or_lt (hp : p.isValid) (h : TransGen p.Calls q q') :
    (∃ a b, ReflTransGen p.Calls q a ∧ p.Calls a b ∧ ReflTransGen p.Calls b q' ∧
      p.UsesLater a.1) ∨ q'.1.index < q.1.index := by
  induction h with
  | @single b hcall =>
    rcases Nat.lt_or_ge b.1.index q.1.index with hlt | hle
    · exact .inr hlt
    · exact .inl ⟨q, b, .refl, hcall, .refl, hcall.usesLater hp hle⟩
  | @tail b c hreach hcall ih =>
    rcases ih with ⟨a, a', hfirst, hstep, hsecond, hlater⟩ | hlt
    · exact .inl ⟨a, a', hfirst, hstep, hsecond.tail hcall, hlater⟩
    · rcases Nat.lt_or_ge c.1.index b.1.index with hlt' | hle
      · exact .inr (Nat.lt_trans hlt' hlt)
      · exact .inl ⟨b, c, hreach.to_reflTransGen, hcall, .refl, hcall.usesLater hp hle⟩

theorem endless_iff_usesLater (hp : p.isValid) :
    p.Endless q ↔ ∃ q', ReflTransGen p.Calls q q' ∧ TransGen p.Calls q' q' ∧ p.UsesLater q'.1 := by
  rw [endless_iff]
  constructor
  · rintro ⟨q', hreach, hcircle⟩
    rcases exists_usesLater_or_lt hp hcircle with ⟨a, b, hfirst, hstep, hsecond, hlater⟩ | hlt
    · exact ⟨a, hreach.trans hfirst, (TransGen.head' hstep hsecond).trans_left hfirst, hlater⟩
    · exact absurd hlt (Nat.lt_irrefl _)
  · exact fun ⟨q', hreach, hcircle, _⟩ => ⟨q', hreach, hcircle⟩

/-- All comparisons that the analyses of a task of a loaded program ask for end, exactly if none of
them leads into a circle through a statement that no block lists. And the analyses depend on no
other comparison. -/
theorem asked_end_iff {text : String} (h : load text = .ok p) (task : StmtId) :
    ((∀ q, p.Asks task q → ¬ p.Endless q) ↔
      ∀ q, p.Asks task q → ¬ ∃ q', ReflTransGen p.Calls q q' ∧ TransGen p.Calls q' q' ∧
        p.UsesLater q'.1) ∧
      ∀ same : StmtId → StmtId → Bool,
        (∀ q, p.Asks task q → same q.1 q.2 = p.sameValue q.1 q.2) →
          p.uniquePointers (p.oracleBy same) task = p.uniquePointers p.structuralOracle task ∧
            p.packedContainers (p.oracleBy same) task =
              p.packedContainers p.structuralOracle task := by
  obtain ⟨_, _, hp⟩ := load_eq_ok.mp h
  refine ⟨?_, fun same hsame => ⟨uniquePointers_congr hsame, packedContainers_congr hsame⟩⟩
  simp only [endless_iff_usesLater hp]

/-- A task over a range with two pointers at the negated index. -/
def negationProgram : Program where
  version := currentVersion
  storage := ⟨#[{ id := ⟨0⟩, kind := .root }, { id := ⟨1⟩, kind := .place, parent := some ⟨0⟩ }]⟩
  stmts := #[
    .task .rangeFor none [⟨1⟩, ⟨2⟩, ⟨3⟩, ⟨4⟩, ⟨5⟩],
    .loopIndex ⟨0⟩ 0,
    .unary .neg ⟨1⟩,
    .unary .neg ⟨1⟩,
    .globalPtr [⟨1⟩] [⟨2⟩],
    .globalPtr [⟨1⟩] [⟨3⟩]]
  root := [⟨0⟩]

def negationText : String :=
  "[1,[[[0,\"root\"],[1,\"place\",0]]],[[\"offloaded\",\"range_for\",null,[1,2,3,4,5]]," ++
    "[\"loop_index\",0,0],[\"unary_op\",\"neg\",1],[\"unary_op\",\"neg\",1]," ++
    "[\"global_ptr\",[1],[2]],[\"global_ptr\",[1],[3]]],[0]]"

/-- The two negations are compared, and that ends. -/
theorem negationProgram_ends :
    load negationText = .ok negationProgram ∧ negationProgram.Asks ⟨0⟩ (⟨2⟩, ⟨3⟩) ∧
      ∀ q, negationProgram.Asks ⟨0⟩ q → ¬ negationProgram.Endless q := by
  have hvalid : negationProgram.isValid :=
    isValid_iff.mpr ⟨by decide, [⟨0⟩, ⟨1⟩, ⟨2⟩, ⟨3⟩, ⟨4⟩, ⟨5⟩],
      trail?_eq_some.mp (by decide +kernel), by decide, by decide⟩
  have hload : load negationText = .ok negationProgram :=
    load_eq_ok.mpr ⟨by decide +kernel, rfl, hvalid⟩
  have htakes : negationProgram.AddressTakes ⟨4⟩ ⟨5⟩ (⟨2⟩, ⟨3⟩) :=
    ⟨by decide, ⟨1⟩, [⟨2⟩], [⟨3⟩], [], [], rfl, rfl, rfl, rfl, by simp⟩
  have hsplit : negationProgram.accesses ⟨0⟩ = [(⟨4⟩, ⟨1⟩)] ++ (⟨5⟩, ⟨1⟩) :: [] := by
    decide +kernel
  have hfold : [((⟨4⟩ : StmtId), (⟨1⟩ : NodeId))].foldlM
      (negationProgram.recordAccess negationProgram.structuralOracle ⟨0⟩
        (negationProgram.loopFacts ⟨0⟩) 1) .empty = .ok (.ofList [(⟨1⟩, some ⟨4⟩)]) := by
    decide +kernel
  have hasks : negationProgram.Asks ⟨0⟩ (⟨2⟩, ⟨3⟩) := .address rfl hsplit hfold rfl htakes
  have hordered : negationProgram.Ordered := ordered_of_zipIdx (by decide)
  refine ⟨hload, hasks, (asked_end_iff hload ⟨0⟩).1.mpr ?_⟩
  rintro q _ ⟨q', _, _, hlater⟩
  exact hordered.not_usesLater hlater

/-- A task with two pointers whose indices are sums of one another; no block lists the sums. -/
def circularProgram : Program where
  version := currentVersion
  storage := ⟨#[{ id := ⟨0⟩, kind := .root }, { id := ⟨1⟩, kind := .place, parent := some ⟨0⟩ }]⟩
  stmts := #[
    .binary .add ⟨1⟩ ⟨1⟩,
    .binary .add ⟨0⟩ ⟨0⟩,
    .task .serial none [⟨3⟩, ⟨4⟩],
    .globalPtr [⟨1⟩] [⟨0⟩],
    .globalPtr [⟨1⟩] [⟨1⟩]]
  root := [⟨2⟩]

def circularText : String :=
  "[1,[[[0,\"root\"],[1,\"place\",0]]],[[\"binary_op\",\"add\",1,1]," ++
    "[\"binary_op\",\"add\",0,0],[\"offloaded\",\"serial\",null,[3,4]]," ++
    "[\"global_ptr\",[1],[0]],[\"global_ptr\",[1],[1]]],[2]]"

/-- The sums are compared, and that goes on forever. -/
theorem circularProgram_endless :
    load circularText = .ok circularProgram ∧ ⟨2⟩ ∈ circularProgram.tasks ∧
      circularProgram.Asks ⟨2⟩ (⟨0⟩, ⟨1⟩) ∧ circularProgram.Endless (⟨0⟩, ⟨1⟩) := by
  have hvalid : circularProgram.isValid :=
    isValid_iff.mpr ⟨by decide, [⟨2⟩, ⟨3⟩, ⟨4⟩], trail?_eq_some.mp (by decide +kernel),
      by decide, by decide⟩
  have htakes : circularProgram.AddressTakes ⟨3⟩ ⟨4⟩ (⟨0⟩, ⟨1⟩) :=
    ⟨by decide, ⟨1⟩, [⟨0⟩], [⟨1⟩], [], [], rfl, rfl, rfl, rfl, by simp⟩
  have hsplit : circularProgram.accesses ⟨2⟩ = [(⟨3⟩, ⟨1⟩)] ++ (⟨4⟩, ⟨1⟩) :: [] := by
    decide +kernel
  have hfold : [((⟨3⟩ : StmtId), (⟨1⟩ : NodeId))].foldlM
      (circularProgram.recordAccess circularProgram.structuralOracle ⟨2⟩
        (circularProgram.loopFacts ⟨2⟩) 0) .empty = .ok (.ofList [(⟨1⟩, some ⟨3⟩)]) := by
    decide +kernel
  have hasks : circularProgram.Asks ⟨2⟩ (⟨0⟩, ⟨1⟩) := .address rfl hsplit hfold rfl htakes
  have hthere : circularProgram.Calls (⟨0⟩, ⟨1⟩) (⟨1⟩, ⟨0⟩) :=
    ⟨by decide, _, _, rfl, rfl, .left⟩
  have hback : circularProgram.Calls (⟨1⟩, ⟨0⟩) (⟨0⟩, ⟨1⟩) :=
    ⟨by decide, _, _, rfl, rfl, .left⟩
  exact ⟨load_eq_ok.mpr ⟨by decide +kernel, rfl, hvalid⟩, by decide +kernel, hasks,
    endless_iff.mpr ⟨(⟨0⟩, ⟨1⟩), .refl, (TransGen.single hthere).tail hback⟩⟩

end UniqueAccess.Program
