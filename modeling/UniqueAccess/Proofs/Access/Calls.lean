import UniqueAccess.Proofs.Access.Report

/-!
# A cache answers as its history tells

Whatever calls are made on a cache, each is answered from the results that were kept last and not
given up since. A cache may also keep its results under the names of their passes and forget their
types, so that every read has to assert the type again. If no two passes have the same name, then
no assertion fails, and the answers are the same.
-/

namespace UniqueAccess

-- ---------------------------------------------------------------------------
-- Calls
-- ---------------------------------------------------------------------------

section
variable (π ε : Type) [PassFamily π]

inductive CacheCall where
  | put (pass : AnyPass π) (result : PassFamily.Result pass)
  | get (pass : AnyPass π)
  | getOrCompute (pass : AnyPass π) (compute : Unit → Except ε (PassFamily.Result pass))
  | invalidate (pass : AnyPass π)
  | clear
  | size
  | gather (p : Program) (o : AliasOracle)
  | report (p : Program) (o : AliasOracle)

inductive CacheAnswer where
  | done
  | kept (pass : AnyPass π) (result : Option (PassFamily.Result pass))
  /-- The outcome, and whether it took a computation. -/
  | computed (pass : AnyPass π) (outcome : Except ε (PassFamily.Result pass)) (ran : Bool)
  | wasPresent (present : Bool)
  | count (n : Nat)
  | gathered (outcome : Except AccessError Unit)
  | reported (outcome : Except AccessError AccessReport)

inductive CacheEvent where
  | stored (pass : AnyPass π) (result : PassFamily.Result pass)
  | dropped (pass : AnyPass π)
  | cleared

abbrev CacheHistory := List (CacheEvent π)

end

variable {π ε α β : Type} {σ τ : Type*} [PassFamily π]

/-- The calls after which a pass may have another result than before. -/
def CacheCall.MayChange (pass : AnyPass π) : CacheCall π ε → Prop
  | .put other _ => other = pass
  | .getOrCompute other _ => other = pass
  | .invalidate other => other = pass
  | .clear => True
  | .gather .. => .packedAccess = pass
  | .report .. => .packedAccess = pass
  | _ => False

def runCalls (step : σ → CacheCall π ε → α × σ) (s : σ) : List (CacheCall π ε) → List α × σ
  | [] => ([], s)
  | call :: rest =>
    let (answer, s') := step s call
    let (answers, last) := runCalls step s' rest
    (answer :: answers, last)

/-- If the second machine answers every call as the first one does in states that stay related, then
it answers all calls as the first one does. -/
theorem runCalls_simulates {step : σ → CacheCall π ε → α × σ} {step' : τ → CacheCall π ε → β × τ}
    {R : σ → τ → Prop} {f : α → β}
    (hstep : ∀ s t call, R s t → (step' t call).1 = f (step s call).1 ∧
      R (step s call).2 (step' t call).2)
    {s : σ} {t : τ} (hst : R s t) (calls : List (CacheCall π ε)) :
    (runCalls step' t calls).1 = (runCalls step s calls).1.map f ∧
      R (runCalls step s calls).2 (runCalls step' t calls).2 := by
  induction calls generalizing s t with
  | nil => exact ⟨rfl, hst⟩
  | cons call rest ih =>
    obtain ⟨hanswer, hnext⟩ := hstep s t call hst
    obtain ⟨hanswers, hlast⟩ := ih hnext
    exact ⟨List.cons_eq_cons.mpr ⟨hanswer, hanswers⟩, hlast⟩

variable [DecidableEq π]

-- ---------------------------------------------------------------------------
-- Histories
-- ---------------------------------------------------------------------------

namespace CacheHistory

variable {h : CacheHistory π} {pass other : AnyPass π}

/-- The result that was kept last under a pass, unless it has been given up since. -/
def latest : CacheHistory π → (pass : AnyPass π) → Option (PassFamily.Result pass)
  | [], _ => none
  | .stored other result :: h, pass =>
    if hpass : other = pass then some (hpass ▸ result) else latest h pass
  | .dropped other :: h, pass => if other = pass then none else latest h pass
  | .cleared :: _, _ => none

def present : CacheHistory π → Finset (AnyPass π)
  | [] => ∅
  | .stored pass _ :: h => insert pass (present h)
  | .dropped pass :: h => (present h).erase pass
  | .cleared :: _ => ∅

theorem latest_stored_self {result : PassFamily.Result pass} :
    latest (.stored pass result :: h) pass = some result := by
  simp [latest]

theorem latest_stored_of_ne {result : PassFamily.Result pass} (hne : other ≠ pass) :
    latest (.stored pass result :: h) other = h.latest other := by
  simp [latest, Ne.symm hne]

theorem latest_dropped_self : latest (.dropped pass :: h) pass = none := by
  simp [latest]

theorem latest_dropped_of_ne (hne : other ≠ pass) :
    latest (.dropped pass :: h) other = h.latest other := by
  simp [latest, Ne.symm hne]

theorem mem_present_iff : pass ∈ h.present ↔ (h.latest pass).isSome := by
  induction h with
  | nil => simp [present, latest]
  | cons event h ih =>
    cases event with
    | stored other result =>
      by_cases heq : pass = other
      · subst heq
        simp [present, latest_stored_self]
      · rw [present, Finset.mem_insert, latest_stored_of_ne heq, ih]
        simp [heq]
    | dropped other =>
      by_cases heq : pass = other
      · subst heq
        simp [present, latest_dropped_self]
      · rw [present, Finset.mem_erase, latest_dropped_of_ne heq, ih]
        simp [heq]
    | cleared => simp [present, latest]

def outcome (h : CacheHistory π) (pass : AnyPass π)
    (compute : Unit → Except ε (PassFamily.Result pass)) : Except ε (PassFamily.Result pass) :=
  match h.latest pass with
  | some result => .ok result
  | none => compute ()

def gained (h : CacheHistory π) (pass : AnyPass π)
    (compute : Unit → Except ε (PassFamily.Result pass)) : CacheHistory π :=
  match h.latest pass, compute () with
  | none, .ok result => [.stored pass result]
  | _, _ => []

def answer (h : CacheHistory π) : CacheCall π ε → CacheAnswer π ε × CacheHistory π
  | .put pass result => (.done, .stored pass result :: h)
  | .get pass => (.kept pass (h.latest pass), h)
  | .getOrCompute pass compute =>
    (.computed pass (h.outcome pass compute) (h.latest pass).isNone, h.gained pass compute ++ h)
  | .invalidate pass => (.wasPresent (h.latest pass).isSome, .dropped pass :: h)
  | .clear => (.done, .cleared :: h)
  | .size => (.count h.present.card, h)
  | .gather p o =>
    match p.packedAccess o with
    | .ok packed => (.gathered (.ok ()), .stored .packedAccess packed :: h)
    | .error e => (.gathered (.error e), h)
  | .report p o =>
    (.reported (h.outcome .packedAccess (fun _ => p.packedAccess o) >>= p.reportWith o),
      h.gained .packedAccess (fun _ => p.packedAccess o) ++ h)

theorem latest_gained_of_ne (hne : other ≠ pass)
    (compute : Unit → Except ε (PassFamily.Result pass)) :
    latest (h.gained pass compute ++ h) other = h.latest other := by
  unfold gained
  split
  · exact latest_stored_of_ne hne
  · rfl

theorem latest_answer (h : CacheHistory π) (call : CacheCall π ε) (hpass : ¬ call.MayChange pass) :
    (h.answer call).2.latest pass = h.latest pass := by
  cases call with
  | put other result => exact latest_stored_of_ne (Ne.symm hpass)
  | get other => rfl
  | getOrCompute other compute => exact latest_gained_of_ne (Ne.symm hpass) compute
  | invalidate other => exact latest_dropped_of_ne (Ne.symm hpass)
  | clear => exact absurd trivial hpass
  | size => rfl
  | gather p o =>
    simp only [answer]
    split
    · exact latest_stored_of_ne (Ne.symm hpass)
    · rfl
  | report p o => exact latest_gained_of_ne (Ne.symm hpass) _

end CacheHistory

-- ---------------------------------------------------------------------------
-- Typed caches
-- ---------------------------------------------------------------------------

namespace ResultCache

variable {c : ResultCache (AnyPass π)} {h : CacheHistory π} {pass : AnyPass π}

def answer (c : ResultCache (AnyPass π)) :
    CacheCall π ε → CacheAnswer π ε × ResultCache (AnyPass π)
  | .put pass result => (.done, c.put pass result)
  | .get pass => (.kept pass (c.get? pass), c)
  | .getOrCompute pass compute =>
    let (outcome, c') := c.getOrCompute pass compute
    (.computed pass outcome !c.contains pass, c')
  | .invalidate pass => (.wasPresent (c.contains pass), c.invalidate pass)
  | .clear => (.done, .empty)
  | .size => (.count c.size, c)
  | .gather p o =>
    let (outcome, c') := p.gatherPacked o c
    (.gathered outcome, c')
  | .report p o =>
    let (outcome, c') := p.report o c
    (.reported outcome, c')

def Reflects (h : CacheHistory π) (c : ResultCache (AnyPass π)) : Prop :=
  ∀ pass, c.get? pass = h.latest pass

theorem reflects_empty : Reflects [] (.empty : ResultCache (AnyPass π)) := fun _ => rfl

theorem reflects_cleared : Reflects (.cleared :: h) (.empty : ResultCache (AnyPass π)) :=
  fun _ => rfl

theorem Reflects.put (hc : Reflects h c) (pass : AnyPass π) (result : PassFamily.Result pass) :
    Reflects (.stored pass result :: h) (c.put pass result) := by
  intro other
  by_cases heq : other = pass
  · subst heq
    rw [get?_put_self, CacheHistory.latest_stored_self]
  · rw [get?_put_of_ne c result heq, CacheHistory.latest_stored_of_ne heq, hc other]

theorem Reflects.invalidate (hc : Reflects h c) (pass : AnyPass π) :
    Reflects (.dropped pass :: h) (c.invalidate pass) := by
  intro other
  by_cases heq : other = pass
  · subst heq
    rw [get?_invalidate_self, CacheHistory.latest_dropped_self]
  · rw [get?_invalidate_of_ne c heq, CacheHistory.latest_dropped_of_ne heq, hc other]

theorem Reflects.getOrCompute (hc : Reflects h c) (pass : AnyPass π)
    (compute : Unit → Except ε (PassFamily.Result pass)) :
    (c.getOrCompute pass compute).1 = h.outcome pass compute ∧
      Reflects (h.gained pass compute ++ h) (c.getOrCompute pass compute).2 := by
  unfold CacheHistory.outcome CacheHistory.gained
  rw [← hc pass]
  cases hkept : c.get? pass with
  | some result =>
    rw [getOrCompute_of_some hkept]
    exact ⟨rfl, hc⟩
  | none =>
    cases hcompute : compute () with
    | ok result =>
      rw [getOrCompute_of_ok hkept hcompute]
      exact ⟨rfl, hc.put pass result⟩
    | error e =>
      rw [getOrCompute_of_error hkept hcompute]
      exact ⟨rfl, hc⟩

theorem Reflects.size (hc : Reflects h c) : c.size = h.present.card := by
  rw [size_eq]
  congr 1
  ext pass
  rw [List.mem_toFinset, mem_passes_iff, hc pass, CacheHistory.mem_present_iff]

theorem Reflects.answer (hc : Reflects h c) (call : CacheCall π ε) :
    (c.answer call).1 = (h.answer call).1 ∧ Reflects (h.answer call).2 (c.answer call).2 := by
  cases call with
  | put pass result => exact ⟨rfl, hc.put pass result⟩
  | get pass => exact ⟨congrArg (CacheAnswer.kept pass) (hc pass), hc⟩
  | getOrCompute pass compute =>
    obtain ⟨houtcome, hnext⟩ := hc.getOrCompute pass compute
    refine ⟨?_, hnext⟩
    simp only [ResultCache.answer, CacheHistory.answer, houtcome, contains, hc pass,
      Option.not_isSome]
  | invalidate pass =>
    exact ⟨congrArg (fun kept => CacheAnswer.wasPresent (Option.isSome kept)) (hc pass),
      hc.invalidate pass⟩
  | clear => exact ⟨rfl, reflects_cleared⟩
  | size => exact ⟨congrArg CacheAnswer.count hc.size, hc⟩
  | gather p o =>
    simp only [ResultCache.answer, CacheHistory.answer, Program.gatherPacked]
    cases p.packedAccess o with
    | ok packed => exact ⟨rfl, hc.put .packedAccess packed⟩
    | error e => exact ⟨rfl, hc⟩
  | report p o =>
    obtain ⟨houtcome, hnext⟩ := hc.getOrCompute .packedAccess fun _ => p.packedAccess o
    refine ⟨?_, hnext⟩
    simp only [ResultCache.answer, CacheHistory.answer, Program.report, houtcome]

theorem runCalls_eq (calls : List (CacheCall π ε)) :
    (runCalls answer (.empty : ResultCache (AnyPass π)) calls).1 =
        (runCalls CacheHistory.answer [] calls).1 ∧
      Reflects (runCalls CacheHistory.answer [] calls).2 (runCalls answer .empty calls).2 := by
  have hstep : ∀ (h : CacheHistory π) (c : ResultCache (AnyPass π)) (call : CacheCall π ε),
      Reflects h c → (c.answer call).1 = id (h.answer call).1 ∧
        Reflects (h.answer call).2 (c.answer call).2 := fun _ _ call hc => hc.answer call
  obtain ⟨hanswers, hlast⟩ := runCalls_simulates hstep reflects_empty calls
  rw [List.map_id] at hanswers
  exact ⟨hanswers, hlast⟩

end ResultCache

-- ---------------------------------------------------------------------------
-- Values without their types
-- ---------------------------------------------------------------------------

/-- A value that knows its type, and does not show it. -/
structure ErasedValue : Type 1 where
  type : Type
  value : type

namespace ErasedValue

def ofResult (pass : AnyPass π) (result : PassFamily.Result pass) : ErasedValue :=
  ⟨PassFamily.Result pass, result⟩

open Classical in
/-- The value as one of a given type, if it is one. -/
noncomputable def downcast? (v : ErasedValue) (wanted : Type) : Option wanted :=
  if h : v.type = wanted then some (h ▸ v.value) else none

omit [DecidableEq π] in
theorem downcast?_ofResult (pass : AnyPass π) (result : PassFamily.Result pass) :
    (ofResult pass result).downcast? (PassFamily.Result pass) = some result := by
  simp [downcast?, ofResult]

end ErasedValue

abbrev NamedStore := Std.HashMap String ErasedValue

namespace NamedStore

variable {s : NamedStore} {h : CacheHistory π} {pass : AnyPass π}

noncomputable def read? (s : NamedStore) (pass : AnyPass π) : Option (PassFamily.Result pass) :=
  (s[PassFamily.name pass]?).bind (·.downcast? (PassFamily.Result pass))

def put (s : NamedStore) (pass : AnyPass π) (result : PassFamily.Result pass) : NamedStore :=
  s.insert (PassFamily.name pass) (.ofResult pass result)

/-- The outcome, whether it took the computation, and the new store. There is none of this where
what stands under the name has another type than the pass. -/
noncomputable def getOrCompute? (s : NamedStore) (pass : AnyPass π)
    (compute : Unit → Except ε (PassFamily.Result pass)) :
    Option (Except ε (PassFamily.Result pass) × Bool × NamedStore) :=
  if s.contains (PassFamily.name pass) then
    (s.read? pass).map fun result => (.ok result, false, s)
  else
    match compute () with
    | .ok result =>
      let s' := s.put pass result
      (s'.read? pass).map fun kept => (.ok kept, true, s')
    | .error e => some (.error e, true, s)

/-- The answer to a call is missing where a type is not the one expected. -/
noncomputable def answer? (s : NamedStore) :
    CacheCall π ε → Option (CacheAnswer π ε) × NamedStore
  | .put pass result => (some .done, s.put pass result)
  | .get pass => (some (.kept pass (s.read? pass)), s)
  | .getOrCompute pass compute =>
    match s.getOrCompute? pass compute with
    | some (outcome, ran, s') => (some (.computed pass outcome ran), s')
    | none => (none, s)
  | .invalidate pass =>
    (some (.wasPresent (s.contains (PassFamily.name pass))), s.erase (PassFamily.name pass))
  | .clear => (some .done, ∅)
  | .size => (some (.count s.size), s)
  | .gather p o =>
    match p.packedAccess o with
    | .ok packed => (some (.gathered (.ok ())), s.put (.packedAccess : AnyPass π) packed)
    | .error e => (some (.gathered (.error e)), s)
  | .report p o =>
    match s.getOrCompute? (.packedAccess : AnyPass π) fun _ => p.packedAccess o with
    | some (packed, _, s') => (some (.reported (packed >>= p.reportWith o)), s')
    | none => (none, s)

/-- Under the name of every pass stands its latest result, and nothing else does. -/
structure Holds (h : CacheHistory π) (s : NamedStore) : Prop where
  entry : ∀ pass : AnyPass π,
    s[PassFamily.name pass]? = (h.latest pass).map (ErasedValue.ofResult pass)
  size : s.size = h.present.card

theorem holds_empty : Holds ([] : CacheHistory π) ∅ where
  entry _ := by simp [CacheHistory.latest]
  size := by simp [CacheHistory.present]

theorem holds_cleared : Holds (.cleared :: h) ∅ where
  entry _ := by simp [CacheHistory.latest]
  size := by simp [CacheHistory.present]

theorem Holds.read? (hs : Holds h s) (pass : AnyPass π) : s.read? pass = h.latest pass := by
  rw [NamedStore.read?, hs.entry pass]
  cases h.latest pass with
  | none => rfl
  | some result => exact ErasedValue.downcast?_ofResult pass result

theorem Holds.contains (hs : Holds h s) (pass : AnyPass π) :
    s.contains (PassFamily.name pass) = (h.latest pass).isSome := by
  rw [Std.HashMap.contains_eq_isSome_getElem?, hs.entry pass, Option.isSome_map]

theorem Holds.mem_iff (hs : Holds h s) (pass : AnyPass π) :
    PassFamily.name pass ∈ s ↔ pass ∈ h.present := by
  rw [Std.HashMap.mem_iff_contains, hs.contains, CacheHistory.mem_present_iff]

section
variable (hname : Function.Injective (PassFamily.name : AnyPass π → String))
include hname

theorem Holds.put (hs : Holds h s) (pass : AnyPass π) (result : PassFamily.Result pass) :
    Holds (.stored pass result :: h) (s.put pass result) where
  entry other := by
    rw [NamedStore.put, Std.HashMap.getElem?_insert]
    by_cases heq : other = pass
    · subst heq
      simp [CacheHistory.latest_stored_self]
    · have hne : PassFamily.name pass ≠ PassFamily.name other := hname.ne (Ne.symm heq)
      rw [CacheHistory.latest_stored_of_ne heq, ← hs.entry other]
      simp [hne]
  size := by
    rw [NamedStore.put, Std.HashMap.size_insert, hs.size, CacheHistory.present,
      Finset.card_insert_eq_ite]
    simp only [hs.mem_iff pass]

theorem Holds.erase (hs : Holds h s) (pass : AnyPass π) :
    Holds (.dropped pass :: h) (s.erase (PassFamily.name pass)) where
  entry other := by
    rw [Std.HashMap.getElem?_erase]
    by_cases heq : other = pass
    · subst heq
      simp [CacheHistory.latest_dropped_self]
    · have hne : PassFamily.name pass ≠ PassFamily.name other := hname.ne (Ne.symm heq)
      rw [CacheHistory.latest_dropped_of_ne heq, ← hs.entry other]
      simp [hne]
  size := by
    rw [Std.HashMap.size_erase, hs.size, CacheHistory.present, Finset.card_erase_eq_ite]
    simp only [hs.mem_iff pass]

theorem Holds.getOrCompute (hs : Holds h s) (pass : AnyPass π)
    (compute : Unit → Except ε (PassFamily.Result pass)) :
    ∃ s', s.getOrCompute? pass compute =
        some (h.outcome pass compute, (h.latest pass).isNone, s') ∧
      Holds (h.gained pass compute ++ h) s' := by
  unfold CacheHistory.outcome CacheHistory.gained
  simp only [getOrCompute?, hs.contains pass]
  cases hlatest : h.latest pass with
  | some result => exact ⟨s, by simp [hs.read? pass, hlatest], hs⟩
  | none =>
    cases hcompute : compute () with
    | ok result =>
      have hput := hs.put hname pass result
      exact ⟨s.put pass result, by simp [hput.read? pass, CacheHistory.latest_stored_self], hput⟩
    | error e => exact ⟨s, by simp, hs⟩

theorem Holds.answer (hs : Holds h s) (call : CacheCall π ε) :
    (s.answer? call).1 = some (h.answer call).1 ∧ Holds (h.answer call).2 (s.answer? call).2 := by
  cases call with
  | put pass result => exact ⟨rfl, hs.put hname pass result⟩
  | get pass => exact ⟨congrArg (fun kept => some (CacheAnswer.kept pass kept)) (hs.read? pass), hs⟩
  | getOrCompute pass compute =>
    obtain ⟨s', hs', hnext⟩ := hs.getOrCompute hname pass compute
    simp only [NamedStore.answer?, hs']
    exact ⟨rfl, hnext⟩
  | invalidate pass =>
    refine ⟨?_, hs.erase hname pass⟩
    exact congrArg (fun present => some (CacheAnswer.wasPresent present)) (hs.contains pass)
  | clear => exact ⟨rfl, holds_cleared⟩
  | size => exact ⟨congrArg (fun n => some (CacheAnswer.count n)) hs.size, hs⟩
  | gather p o =>
    simp only [NamedStore.answer?, CacheHistory.answer]
    cases p.packedAccess o with
    | ok packed => exact ⟨rfl, hs.put hname .packedAccess packed⟩
    | error e => exact ⟨rfl, hs⟩
  | report p o =>
    obtain ⟨s', hs', hnext⟩ := hs.getOrCompute hname .packedAccess fun _ => p.packedAccess o
    simp only [NamedStore.answer?, hs']
    exact ⟨rfl, hnext⟩

theorem runCalls_eq (calls : List (CacheCall π ε)) :
    (runCalls answer? ∅ calls).1 = (runCalls CacheHistory.answer [] calls).1.map some ∧
      Holds (runCalls CacheHistory.answer [] calls).2 (runCalls answer? ∅ calls).2 :=
  runCalls_simulates (fun _ _ call hs => hs.answer hname call) holds_empty calls

end

end NamedStore

-- ---------------------------------------------------------------------------
-- All calls
-- ---------------------------------------------------------------------------

/-- Starting with no results, a cache answers any calls as its history tells, and so does a store by
names, which never comes upon a type that it did not expect. What they leave behind is the latest
result of every pass, as many as there are passes with one; and one more call changes the result of
no pass but its own. -/
theorem calls_answered (hname : Function.Injective (PassFamily.name : AnyPass π → String))
    (calls : List (CacheCall π ε)) :
    ∃ (answers : List (CacheAnswer π ε)) (history : CacheHistory π)
      (cache : ResultCache (AnyPass π)) (store : NamedStore),
      runCalls CacheHistory.answer [] calls = (answers, history) ∧
      runCalls ResultCache.answer .empty calls = (answers, cache) ∧
      runCalls NamedStore.answer? ∅ calls = (answers.map some, store) ∧
      (∀ pass, cache.get? pass = history.latest pass ∧ store.read? pass = history.latest pass ∧
        (pass ∈ history.present ↔ (history.latest pass).isSome)) ∧
      cache.size = history.present.card ∧ store.size = history.present.card ∧
      ∀ (call : CacheCall π ε) pass, ¬ call.MayChange pass →
        (cache.answer call).2.get? pass = cache.get? pass ∧
          (store.answer? call).2.read? pass = store.read? pass := by
  obtain ⟨hanswers, hcache⟩ := ResultCache.runCalls_eq calls
  obtain ⟨hanswers', hstore⟩ := NamedStore.runCalls_eq hname calls
  refine ⟨_, _, _, _, rfl, Prod.ext hanswers rfl, Prod.ext hanswers' rfl,
    fun pass => ⟨hcache pass, hstore.read? pass, CacheHistory.mem_present_iff⟩, hcache.size,
    hstore.size, fun call pass hpass => ?_⟩
  have hkept := (runCalls CacheHistory.answer [] calls).2.latest_answer call hpass
  constructor
  · rw [(hcache.answer call).2 pass, hcache pass, hkept]
  · rw [(hstore.answer hname call).2.read? pass, hstore.read? pass, hkept]

inductive TallyPass where
  | count
  | names
deriving DecidableEq

instance : PassFamily TallyPass where
  Result
    | .count => Nat
    | .names => List String
  name
    | .count => "CountPass"
    | .names => "NamesPass"

theorem TallyPass.name_injective :
    Function.Injective (PassFamily.name : AnyPass TallyPass → String) := by
  rintro (_ | _ | _) (_ | _ | _) h <;> first | rfl | simp [PassFamily.name] at h

/-- A computation fails, another one is not needed, and everything is given up before the names are
kept. -/
def tallyCalls : List (CacheCall TallyPass String) :=
  [.put (.other .count) (3 : Nat),
    .getOrCompute (.other .names) fun _ => .error "no names",
    .getOrCompute (.other .count) fun _ => .ok (7 : Nat),
    .gather Program.neighborProgram Program.neighborProgram.structuralOracle,
    .size,
    .invalidate (.other .count),
    .get (.other .count),
    .clear,
    .put (.other .names) ["a", "b"]]

def tallyAnswers : List (CacheAnswer TallyPass String) :=
  [.done,
    .computed (.other .names) (.error "no names") true,
    .computed (.other .count) (.ok (3 : Nat)) false,
    .gathered (.ok ()),
    .count 2,
    .wasPresent true,
    .kept (.other .count) none,
    .done,
    .done]

theorem tallyCalls_answered : ∃ store : NamedStore,
    runCalls NamedStore.answer? ∅ tallyCalls = (tallyAnswers.map some, store) ∧
      store.read? (.other .names : AnyPass TallyPass) = some ["a", "b"] ∧ store.size = 1 := by
  have hpacked : Program.neighborProgram.packedAccess Program.neighborProgram.structuralOracle =
      .ok (.ofList [(⟨0⟩, .ofList [(⟨1⟩, some ⟨5⟩)])]) := by decide +kernel
  obtain ⟨answers, history, cache, store, hhistory, _, hstore, hlatest, _, hsize, _⟩ :=
    calls_answered TallyPass.name_injective tallyCalls
  simp only [runCalls, tallyCalls, CacheHistory.answer, hpacked, Prod.mk.injEq] at hhistory
  obtain ⟨rfl, rfl⟩ := hhistory
  exact ⟨store, hstore, (hlatest _).2.1, hsize⟩

end UniqueAccess
