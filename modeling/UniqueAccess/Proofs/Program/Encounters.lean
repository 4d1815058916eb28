import UniqueAccess.Proofs.Program.Judgement
import Mathlib.Data.Finset.Card

/-!
# What validity meets in blocks

Blocks may share statements, list names twice or without a statement, and lead back into themselves.
`Examines` is the check of blocks as it recurses: a name is looked up among those met before, and a
new statement is followed by its own blocks. There is no measure in it, so that what it relates is
a recursion that ends. It always does (`exists_examines`), and then every statement that can be
reached has been examined once, whatever the blocks look like (`blocks_examined`).
-/

namespace UniqueAccess.Program

variable {p : Program} {placed placed' : List StmtId} {todo : List Listed}

-- ---------------------------------------------------------------------------
-- Encounters
-- ---------------------------------------------------------------------------

inductive Encounter where
  /-- A name that has been met before. -/
  | again (id : StmtId)
  | unknown (owner : Option StmtId) (id : StmtId)
  | statement (id : StmtId) (s : Stmt)

namespace Encounter

def name : Encounter → StmtId
  | again id => id
  | unknown _ id => id
  | statement id _ => id

def new? : Encounter → Option StmtId
  | again _ => none
  | unknown _ id => some id
  | statement id _ => some id

def unknown? : Encounter → Option StmtId
  | unknown _ id => some id
  | _ => none

def statement? : Encounter → Option StmtId
  | statement id _ => some id
  | _ => none

def findings (p : Program) : Encounter → List Finding
  | again id => [⟨some id, .listedTwice⟩]
  | unknown owner id => [⟨owner, .danglingStmt id⟩]
  | statement id s => p.findingsIn id s

end Encounter

variable {es : List Encounter}

def newNames (es : List Encounter) : List StmtId := es.filterMap Encounter.new?

def examined (es : List Encounter) : List StmtId := es.filterMap Encounter.statement?

def unknownNames (es : List Encounter) : List StmtId := es.filterMap Encounter.unknown?

section Lists

variable {owner : Option StmtId} {id : StmtId} {s : Stmt} {first second : List Encounter}

@[simp] theorem newNames_again : newNames (.again id :: es) = newNames es := rfl

@[simp] theorem newNames_unknown : newNames (.unknown owner id :: es) = id :: newNames es := rfl

@[simp] theorem newNames_statement : newNames (.statement id s :: es) = id :: newNames es := rfl

@[simp] theorem newNames_append : newNames (first ++ second) = newNames first ++ newNames second :=
  List.filterMap_append

@[simp] theorem examined_statement : examined (.statement id s :: es) = id :: examined es := rfl

@[simp] theorem examined_append : examined (first ++ second) = examined first ++ examined second :=
  List.filterMap_append

end Lists

/-- The check of some places ends. It starts with the names that have been met before, and leaves
those that have been met by then. -/
inductive Examines (p : Program) :
    List StmtId → List Listed → List Encounter → List StmtId → Prop
  | nil {placed : List StmtId} : Examines p placed [] [] placed
  | again {placed placed' : List StmtId} {owner : Option StmtId} {id : StmtId}
      {rest : List Listed} {es : List Encounter} (hid : id ∈ placed) :
      Examines p placed rest es placed' →
      Examines p placed ((owner, id) :: rest) (.again id :: es) placed'
  | unknown {placed placed' : List StmtId} {owner : Option StmtId} {id : StmtId}
      {rest : List Listed} {es : List Encounter} (hid : id ∉ placed) (hs : p.stmt? id = none) :
      Examines p (id :: placed) rest es placed' →
      Examines p placed ((owner, id) :: rest) (.unknown owner id :: es) placed'
  | statement {placed placed₁ placed' : List StmtId} {owner : Option StmtId} {id : StmtId} {s : Stmt}
      {rest : List Listed} {inner es : List Encounter} (hid : id ∉ placed)
      (hs : p.stmt? id = some s) :
      Examines p (id :: placed) (listedBy id s) inner placed₁ → Examines p placed₁ rest es placed' →
      Examines p placed ((owner, id) :: rest) (.statement id s :: (inner ++ es)) placed'

theorem Examines.append {first second : List Listed}
    (h : p.Examines placed (first ++ second) es placed') :
    ∃ es₁ placed₁ es₂, p.Examines placed first es₁ placed₁ ∧
      p.Examines placed₁ second es₂ placed' ∧ es = es₁ ++ es₂ := by
  generalize htodo : first ++ second = todo at h
  induction h generalizing first with
  | nil =>
    obtain ⟨rfl, rfl⟩ := List.append_eq_nil_iff.mp htodo
    exact ⟨[], _, [], .nil, .nil, rfl⟩
  | again hid hrest ih =>
    rcases List.append_eq_cons_iff.mp htodo with ⟨rfl, rfl⟩ | ⟨first, rfl, rfl⟩
    · exact ⟨[], _, _, .nil, .again hid hrest, rfl⟩
    · obtain ⟨es₁, placed₁, es₂, hfirst, hsecond, rfl⟩ := ih rfl
      exact ⟨_, placed₁, es₂, .again hid hfirst, hsecond, rfl⟩
  | unknown hid hs hrest ih =>
    rcases List.append_eq_cons_iff.mp htodo with ⟨rfl, rfl⟩ | ⟨first, rfl, rfl⟩
    · exact ⟨[], _, _, .nil, .unknown hid hs hrest, rfl⟩
    · obtain ⟨es₁, placed₁, es₂, hfirst, hsecond, rfl⟩ := ih rfl
      exact ⟨_, placed₁, es₂, .unknown hid hs hfirst, hsecond, rfl⟩
  | statement hid hs hinner hrest _ ih =>
    rcases List.append_eq_cons_iff.mp htodo with ⟨rfl, rfl⟩ | ⟨first, rfl, rfl⟩
    · exact ⟨[], _, _, .nil, .statement hid hs hinner hrest, rfl⟩
    · obtain ⟨es₁, placed₁, es₂, hfirst, hsecond, rfl⟩ := ih rfl
      exact ⟨_, placed₁, es₂, .statement hid hs hinner hfirst, hsecond, by simp⟩

theorem exists_examines (p : Program) (placed : List StmtId) (todo : List Listed) :
    ∃ es placed', p.Examines placed todo es placed' ∧
      p.placeFindings placed todo = es.flatMap (Encounter.findings p) := by
  fun_induction placeFindings p placed todo with
  | case1 placed => exact ⟨[], placed, .nil, rfl⟩
  | case2 placed owner id rest hid ih =>
    obtain ⟨es, placed', hes, hfindings⟩ := ih
    exact ⟨_, placed', .again hid hes, by rw [hfindings]; rfl⟩
  | case3 placed owner id rest hid hs ih =>
    obtain ⟨es, placed', hes, hfindings⟩ := ih
    exact ⟨_, placed', .unknown hid hs hes, by rw [hfindings]; rfl⟩
  | case4 placed owner id rest hid s hs ih =>
    obtain ⟨es, placed', hes, hfindings⟩ := ih
    obtain ⟨inner, placed₁, es', hinner, hrest, rfl⟩ := hes.append
    exact ⟨_, placed', .statement hid hs hinner hrest, by rw [hfindings]; rfl⟩

theorem Examines.unique (h : p.Examines placed todo es placed') {es' : List Encounter}
    {placed'' : List StmtId} (h' : p.Examines placed todo es' placed'') :
    es = es' ∧ placed' = placed'' := by
  induction h generalizing es' placed'' with
  | nil =>
    cases h'
    exact ⟨rfl, rfl⟩
  | again hid _ ih =>
    cases h' with
    | again _ hrest' =>
      obtain ⟨rfl, rfl⟩ := ih hrest'
      exact ⟨rfl, rfl⟩
    | unknown hid' => exact absurd hid hid'
    | statement hid' => exact absurd hid hid'
  | unknown hid hs _ ih =>
    cases h' with
    | again hid' => exact absurd hid' hid
    | unknown _ _ hrest' =>
      obtain ⟨rfl, rfl⟩ := ih hrest'
      exact ⟨rfl, rfl⟩
    | statement _ hs' => cases hs.symm.trans hs'
  | statement hid hs _ _ ihinner ih =>
    cases h' with
    | again hid' => exact absurd hid' hid
    | unknown _ hs' => cases hs.symm.trans hs'
    | statement _ hs' hinner' hrest' =>
      cases hs.symm.trans hs'
      obtain ⟨rfl, rfl⟩ := ihinner hinner'
      obtain ⟨rfl, rfl⟩ := ih hrest'
      exact ⟨rfl, rfl⟩

-- ---------------------------------------------------------------------------
-- Names that are met
-- ---------------------------------------------------------------------------

/-- Every place is met once: those to be looked at, and those of the statements that are examined. -/
theorem Examines.perm (h : p.Examines placed todo es placed') :
    (es.map Encounter.name).Perm
      (todo.map Prod.snd ++ (examined es).flatMap (p.ownedBy .everything)) := by
  induction h with
  | nil => exact .refl _
  | again _ _ ih => exact ih.cons _
  | unknown _ _ _ ih => exact ih.cons _
  | @statement _ _ _ _ id s _ _ _ _ hs _ _ ihinner ih =>
    have howned : p.ownedBy .everything id = (listedBy id s).map Prod.snd := by
      rw [ownedBy_eq hs, nested_everything, map_snd_listedBy]
    rw [List.perm_iff_count] at ihinner ih ⊢
    intro a
    have hinner := ihinner a
    have hrest := ih a
    simp only [List.map_cons, List.map_append, List.cons_append, List.count_cons, Encounter.name,
      examined_statement, examined_append, List.flatMap_cons, List.flatMap_append, howned,
      List.count_append] at hinner hrest ⊢
    omega

theorem Examines.placed_perm (h : p.Examines placed todo es placed') :
    placed'.Perm (newNames es ++ placed) := by
  induction h with
  | nil => exact .refl _
  | again _ _ ih => exact ih
  | unknown _ _ _ ih => exact ih.trans List.perm_middle
  | @statement placed _ _ _ id _ _ inner es _ _ _ _ ihinner ih =>
    have hinner : (newNames es ++ (newNames inner ++ id :: placed)).Perm
        (id :: (newNames inner ++ newNames es) ++ placed) := by
      rw [List.perm_iff_count]
      intro a
      simp only [List.count_append, List.count_cons, List.cons_append]
      omega
    simpa using (ih.trans (ihinner.append_left _)).trans hinner

theorem Examines.nodup (h : p.Examines placed todo es placed') (hnodup : placed.Nodup) :
    placed'.Nodup := by
  induction h with
  | nil => exact hnodup
  | again _ _ ih => exact ih hnodup
  | unknown hid _ _ ih => exact ih (List.nodup_cons.mpr ⟨hid, hnodup⟩)
  | statement hid _ _ _ ihinner ih => exact ih (ihinner (List.nodup_cons.mpr ⟨hid, hnodup⟩))

theorem Examines.subset_placed (h : p.Examines placed todo es placed') : placed ⊆ placed' :=
  fun _ hid => h.placed_perm.mem_iff.mpr (List.mem_append_right _ hid)

theorem Examines.name_mem (h : p.Examines placed todo es placed') :
    ∀ e ∈ es, e.name ∈ placed' := by
  induction h with
  | nil => exact nofun
  | again hid hrest ih => exact List.forall_mem_cons.mpr ⟨hrest.subset_placed hid, ih⟩
  | unknown _ _ hrest ih =>
    exact List.forall_mem_cons.mpr ⟨hrest.subset_placed List.mem_cons_self, ih⟩
  | statement _ _ hinner hrest ihinner ih =>
    refine List.forall_mem_cons.mpr
      ⟨hrest.subset_placed (hinner.subset_placed List.mem_cons_self), ?_⟩
    exact List.forall_mem_append.mpr ⟨fun e he => hrest.subset_placed (ihinner e he), ih⟩

theorem Examines.sorted (h : p.Examines placed todo es placed') :
    ∀ e ∈ es, e.statement? = e.new?.filter (fun id => (p.stmt? id).isSome) ∧
      e.unknown? = e.new?.filter (fun id => (p.stmt? id).isNone) := by
  induction h with
  | nil => exact nofun
  | again _ _ ih => exact List.forall_mem_cons.mpr ⟨⟨rfl, rfl⟩, ih⟩
  | unknown _ hs _ ih =>
    refine List.forall_mem_cons.mpr ⟨?_, ih⟩
    simp [Encounter.statement?, Encounter.unknown?, Encounter.new?, Option.filter, hs]
  | statement _ hs _ _ ihinner ih =>
    refine List.forall_mem_cons.mpr ⟨?_, List.forall_mem_append.mpr ⟨ihinner, ih⟩⟩
    simp [Encounter.statement?, Encounter.unknown?, Encounter.new?, Option.filter, hs]

theorem Examines.examined_eq (h : p.Examines placed todo es placed') :
    examined es = (newNames es).filter fun id => (p.stmt? id).isSome := by
  rw [newNames, List.filter_filterMap]
  exact List.filterMap_congr fun e he => (h.sorted e he).1

theorem Examines.unknownNames_eq (h : p.Examines placed todo es placed') :
    unknownNames es = (newNames es).filter fun id => (p.stmt? id).isNone := by
  rw [newNames, List.filter_filterMap]
  exact List.filterMap_congr fun e he => (h.sorted e he).2

theorem Examines.under (h : p.Examines placed todo es placed') :
    ∀ e ∈ es, p.Under .everything (todo.map Prod.snd) e.name := by
  have hhead : ∀ {owner id} {rest : List Listed},
      p.Under .everything (((owner, id) :: rest).map Prod.snd) id :=
    fun {_ id _} => ⟨id, List.mem_cons_self, .refl⟩
  have htail : ∀ {a : Listed} {rest : List Listed} {id},
      p.Under .everything (rest.map Prod.snd) id →
        p.Under .everything ((a :: rest).map Prod.snd) id :=
    fun ⟨top, htop, hencl⟩ => ⟨top, List.mem_cons_of_mem _ htop, hencl⟩
  induction h with
  | nil => exact nofun
  | again _ _ ih => exact List.forall_mem_cons.mpr ⟨hhead, fun e he => htail (ih e he)⟩
  | unknown _ _ _ ih => exact List.forall_mem_cons.mpr ⟨hhead, fun e he => htail (ih e he)⟩
  | @statement _ _ _ _ id s _ _ _ _ hs _ _ ihinner ih =>
    refine List.forall_mem_cons.mpr ⟨hhead, List.forall_mem_append.mpr
      ⟨fun e he => ?_, fun e he => htail (ih e he)⟩⟩
    obtain ⟨top, htop, hencl⟩ := ihinner e he
    rw [map_snd_listedBy, ← nested_everything] at htop
    exact ⟨id, List.mem_cons_self, hencl.head ⟨s, hs, htop⟩⟩

theorem exists_of_mem_newNames {id : StmtId} (hid : id ∈ newNames es) : ∃ e ∈ es, e.name = id := by
  obtain ⟨e, he, hnew⟩ := List.mem_filterMap.mp hid
  refine ⟨e, he, ?_⟩
  cases e with
  | again => cases hnew
  | unknown => exact Option.some.inj hnew
  | statement => exact Option.some.inj hnew

-- ---------------------------------------------------------------------------
-- Names that are met again
-- ---------------------------------------------------------------------------

theorem countP_listedTwice_eq_zero {flaws : List Flaw} {place : Option StmtId}
    (h : .listedTwice ∉ flaws) :
    (flaws.map fun flaw => (⟨place, flaw⟩ : Finding)).countP (·.flaw = .listedTwice) = 0 := by
  refine List.countP_eq_zero.mpr fun f hf => ?_
  obtain ⟨flaw, hflaw, rfl⟩ := List.mem_map.mp hf
  simpa using ne_of_mem_of_not_mem hflaw h

theorem listedTwice_not_mem_flaws (t : StorageTree) : .listedTwice ∉ t.flaws := by
  simp only [StorageTree.flaws, StorageTree.nodeFlaws, List.mem_append, List.mem_flatMap,
    List.mem_map]
  grind

theorem countP_findingsIn (id : StmtId) (s : Stmt) :
    (p.findingsIn id s).countP (·.flaw = .listedTwice) = 0 :=
  countP_listedTwice_eq_zero fun h => not_isStructural h .listedTwice

theorem countP_listedTwice_add (es : List Encounter) :
    (es.flatMap (Encounter.findings p)).countP (·.flaw = .listedTwice) + (newNames es).length =
      es.length := by
  induction es with
  | nil => rfl
  | cons e es ih =>
    rw [List.flatMap_cons, List.countP_append, List.length_cons, ← ih]
    cases e with
    | again id =>
      have hone : (Encounter.findings p (.again id)).countP (·.flaw = .listedTwice) = 1 := rfl
      rw [hone, newNames_again, Nat.add_assoc, Nat.add_comm]
    | unknown owner id => simp [Encounter.findings, Nat.add_assoc]
    | statement id s => simp [Encounter.findings, countP_findingsIn, Nat.add_assoc]

-- ---------------------------------------------------------------------------
-- The whole check
-- ---------------------------------------------------------------------------

def namesListed (p : Program) (owners : List StmtId) : List StmtId :=
  p.root ++ owners.flatMap (p.ownedBy .everything)

section Whole

variable (h : p.Examines [] (p.root.map (none, ·)) es placed')
include h

theorem Examines.newNames_nodup : (newNames es).Nodup := by
  have hperm := h.placed_perm
  rw [List.append_nil] at hperm
  exact hperm.nodup_iff.mp (h.nodup .nil)

theorem Examines.perm_namesListed :
    (es.map Encounter.name).Perm (p.namesListed (examined es)) := by
  rw [namesListed, ← map_snd_places none p.root]
  exact h.perm

theorem Examines.mem_newNames_iff {id : StmtId} :
    id ∈ newNames es ↔ id ∈ p.namesListed (examined es) := by
  rw [← h.perm_namesListed.mem_iff, List.mem_map]
  constructor
  · exact exists_of_mem_newNames
  · rintro ⟨e, he, rfl⟩
    simpa using h.placed_perm.mem_iff.mp (h.name_mem e he)

theorem Examines.mem_newNames_iff_reachable {id : StmtId} :
    id ∈ newNames es ↔ p.Reachable id := by
  constructor
  · intro hid
    obtain ⟨e, he, rfl⟩ := exists_of_mem_newNames hid
    simpa only [map_snd_places] using h.under e he
  · rintro ⟨top, htop, hencl⟩
    induction hencl with
    | refl => exact h.mem_newNames_iff.mpr (List.mem_append_left _ htop)
    | @tail outer inner _ howns ih =>
      -- What is owned by a name that is met is listed by a statement that is examined.
      have houter : outer ∈ examined es := by
        obtain ⟨s, hs, _⟩ := howns
        rw [h.examined_eq]
        exact List.mem_filter.mpr ⟨ih, by rw [hs]; rfl⟩
      refine h.mem_newNames_iff.mpr (List.mem_append_right _ ?_)
      exact List.mem_flatMap.mpr ⟨outer, houter, mem_ownedBy.mpr howns⟩

theorem Examines.card_namesListed :
    (p.namesListed (examined es)).toFinset.card = (newNames es).length := by
  rw [← List.toFinset_card_of_nodup h.newNames_nodup]
  congr 1
  ext id
  simp only [List.mem_toFinset, h.mem_newNames_iff]

/-- A name was met again wherever a place was not the first one of its name. -/
theorem Examines.countP_listedTwice_add_card :
    (es.flatMap (Encounter.findings p)).countP (·.flaw = .listedTwice) +
      (p.namesListed (examined es)).toFinset.card = (p.namesListed (examined es)).length := by
  rw [h.card_namesListed, countP_listedTwice_add, ← h.perm_namesListed.length_eq, List.length_map]

end Whole

/-- The check of blocks ends, in one way only, whether or not statements are shared or lead back to
themselves. On its way it examines the statements that can be reached, each of them once. Among all
places in the root block and in their blocks, a name is found to be listed twice wherever it is not
new, and every name without a statement is found at one place. -/
theorem blocks_examined (p : Program) :
    ∃ es placed, p.Examines [] (p.root.map (none, ·)) es placed ∧
      (∀ es' placed', p.Examines [] (p.root.map (none, ·)) es' placed' →
        es' = es ∧ placed' = placed) ∧
      p.findings = p.storage.flaws.map (⟨none, ·⟩) ++ es.flatMap (Encounter.findings p) ∧
      (examined es).Nodup ∧
      (∀ id, id ∈ examined es ↔ p.Reachable id ∧ ∃ s, p.stmt? id = some s) ∧
      p.findings.countP (·.flaw = .listedTwice) + (p.namesListed (examined es)).toFinset.card =
        (p.namesListed (examined es)).length ∧
      (unknownNames es).Nodup ∧
      ∀ id, id ∈ unknownNames es ↔ id ∈ p.namesListed (examined es) ∧ p.stmt? id = none := by
  obtain ⟨es, placed, h, hplaces⟩ := exists_examines p [] (p.root.map (none, ·))
  have hfindings : p.findings =
      p.storage.flaws.map (⟨none, ·⟩) ++ es.flatMap (Encounter.findings p) := by
    rw [findings, hplaces]
  refine ⟨es, placed, h, fun es' placed' h' => h'.unique h, hfindings, ?_, fun id => ?_, ?_, ?_,
    fun id => ?_⟩
  · rw [h.examined_eq]
    exact h.newNames_nodup.filter _
  · rw [h.examined_eq, List.mem_filter, h.mem_newNames_iff_reachable, Option.isSome_iff_exists]
  · rw [hfindings, List.countP_append,
      countP_listedTwice_eq_zero (listedTwice_not_mem_flaws p.storage), Nat.zero_add]
    exact h.countP_listedTwice_add_card
  · rw [h.unknownNames_eq]
    exact h.newNames_nodup.filter _
  · rw [h.unknownNames_eq, List.mem_filter, h.mem_newNames_iff, Option.isNone_iff_eq_none]

/-- A task that is listed twice by the root block and once by itself. -/
def selfListingProgram : Program :=
  ⟨currentVersion, .new,
    #[.task .serial none [⟨0⟩, ⟨1⟩], .task .serial none []], [⟨0⟩, ⟨0⟩, ⟨5⟩]⟩

theorem selfListingProgram_examined :
    selfListingProgram.findings.countP (·.flaw = .listedTwice) = 2 := by
  let outer : Stmt := .task .serial none [⟨0⟩, ⟨1⟩]
  let inner : Stmt := .task .serial none []
  have houter : selfListingProgram.stmt? ⟨0⟩ = some outer := rfl
  have hinner : selfListingProgram.stmt? ⟨1⟩ = some inner := rfl
  have hnew : (⟨1⟩ : StmtId) ∉ ([⟨0⟩] : List StmtId) := by decide
  have hnested : selfListingProgram.Examines [⟨0⟩] (listedBy ⟨0⟩ outer)
      [.again ⟨0⟩, .statement ⟨1⟩ inner] [⟨1⟩, ⟨0⟩] :=
    .again (by decide) (.statement hnew hinner .nil .nil)
  have hrest : selfListingProgram.Examines [⟨1⟩, ⟨0⟩] [(none, ⟨0⟩), (none, ⟨5⟩)]
      [.again ⟨0⟩, .unknown none ⟨5⟩] [⟨5⟩, ⟨1⟩, ⟨0⟩] :=
    .again (by decide) (.unknown (by decide) rfl .nil)
  have hrun : selfListingProgram.Examines [] (selfListingProgram.root.map (none, ·))
      [.statement ⟨0⟩ outer, .again ⟨0⟩, .statement ⟨1⟩ inner, .again ⟨0⟩, .unknown none ⟨5⟩]
      [⟨5⟩, ⟨1⟩, ⟨0⟩] :=
    .statement List.not_mem_nil houter hnested hrest
  obtain ⟨_, _, _, hunique, _, _, _, hcount, _⟩ := blocks_examined selfListingProgram
  obtain ⟨rfl, rfl⟩ := hunique _ _ hrun
  have hcard : (selfListingProgram.namesListed [⟨0⟩, ⟨1⟩]).toFinset.card = 3 := by decide
  exact Nat.add_right_cancel (hcount.trans (congrArg (2 + ·) hcard.symm))

end UniqueAccess.Program
