import UniqueAccess.Proofs.Program.Construction
import UniqueAccess.Proofs.Program.Order
import UniqueAccess.Proofs.Program.WellFormed
import UniqueAccess.Proofs.Storage.Growth

/-!
# How a draft is judged

Blocks that a draft closes list every statement once, so that validity looks at every statement that
was appended and finds nothing else to refuse. Whether a draft can be finished is therefore decided
by what was appended alone: the tree and the statements without their blocks, in their order. A
draft that can be finished has all operands met before their users.
-/

namespace UniqueAccess

inductive Flaw.IsStructural : Flaw → Prop
  | listedTwice : IsStructural .listedTwice
  | nodeMisplaced {position : Nat} {id : NodeId} : IsStructural (.nodeMisplaced position id)
  | nodeCycle {node : NodeId} : IsStructural (.nodeCycle node)

namespace Program

open List (Sublist)

variable {p : Program} {id operand user : StmtId} {s : Stmt}

-- ---------------------------------------------------------------------------
-- Rules
-- ---------------------------------------------------------------------------

/-- What is asked of a statement of the table, wherever it is listed. -/
structure FollowsRules (p : Program) (id : StmtId) (s : Stmt) : Prop where
  operands : ∀ operand ∈ s.operands, operand.index < id.index
  nodes : ∀ node ∈ s.nodes, p.storage.contains node
  owner : ∀ owner dimension, s = .loopIndex owner dimension →
    ∃ loop dimensions, p.stmt? owner = some loop ∧ p.HasDimensions loop dimensions ∧
      dimension < dimensions
  candidates : ∀ indices, s ≠ .globalPtr [] indices
  container : ∀ body, s ≠ .task .structFor none body

theorem HasDimensions.isLoop {dimensions : UInt64} (h : p.HasDimensions s dimensions) :
    s.isLoop := by
  cases h <;> rfl

theorem HasDimensions.unique {first second : UInt64} (h : p.HasDimensions s first)
    (h' : p.HasDimensions s second) : first = second :=
  Option.some.inj ((ownedDimensions?_eq_some.mpr h).symm.trans (ownedDimensions?_eq_some.mpr h'))

theorem StmtWellFormed.exists_hasDimensions (h : p.StmtWellFormed id s) (hloop : s.isLoop) :
    ∃ dimensions, p.HasDimensions s dimensions := by
  cases s with
  | rangeFor first last body => exact ⟨_, .rangeFor⟩
  | task kind container body =>
    cases kind with
    | serial => exact ⟨_, .serialTask⟩
    | rangeFor => exact ⟨_, .rangeForTask⟩
    | meshFor => exact ⟨_, .meshForTask⟩
    | structFor =>
      cases container with
      | none => exact absurd rfl (h.container body)
      | some container =>
        have hcontains := h.nodes container (by simp [Stmt.nodes])
        obtain ⟨node, hnode⟩ := StorageTree.contains_iff.mp hcontains
        exact ⟨_, .structForTask hnode⟩
  | _ => cases hloop

theorem stmts_wellFormed_iff :
    (∀ id s, p.stmt? id = some s → p.StmtWellFormed id s) ↔
      ∀ id s, p.stmt? id = some s → p.FollowsRules id s := by
  constructor
  · intro hall id s hs
    have h := hall id s hs
    refine ⟨fun operand hoperand => (h.operands operand hoperand).2, h.nodes, ?_, h.candidates,
      h.container⟩
    intro owner dimension heq
    obtain ⟨loop, hloop, hisLoop, hbelow⟩ := h.owner owner dimension heq
    obtain ⟨dimensions, hdimensions⟩ := (hall owner loop hloop).exists_hasDimensions hisLoop
    exact ⟨loop, dimensions, hloop, hdimensions, hbelow dimensions hdimensions⟩
  · intro hall id s hs
    have h := hall id s hs
    refine ⟨fun operand hoperand => ⟨?_, h.operands operand hoperand⟩, h.nodes, ?_, h.candidates,
      h.container⟩
    · -- What stands before a statement of the table is in the table.
      have hlt := (h.operands operand hoperand).trans (Array.getElem?_eq_some_iff.mp hs).1
      exact ⟨_, Array.getElem?_eq_getElem hlt⟩
    · intro owner dimension heq
      obtain ⟨loop, dimensions, hloop, hdimensions, hlt⟩ := h.owner owner dimension heq
      exact ⟨loop, hloop, hdimensions.isLoop, fun _ h' => hdimensions.unique h' ▸ hlt⟩

-- ---------------------------------------------------------------------------
-- Tables
-- ---------------------------------------------------------------------------

theorem forall_zipIdx_iff (hfit : p.size ≤ UInt32.size) {q : StmtId → Stmt → Prop} :
    (∀ v ∈ p.stmts.toList.zipIdx, q (.ofIndex v.2) v.1) ↔ ∀ id s, p.stmt? id = some s → q id s := by
  constructor
  · intro hall id s hs
    have hmem : (s, id.index) ∈ p.stmts.toList.zipIdx :=
      List.mk_mem_zipIdx_iff_getElem?.mpr (by simpa [stmt?] using hs)
    simpa only [ofIndex_index] using hall _ hmem
  · rintro hall ⟨s, i⟩ hmem
    have hget : p.stmts[i]? = some s := by simpa using List.mk_mem_zipIdx_iff_getElem?.mp hmem
    have hlt : i < UInt32.size :=
      Nat.lt_of_lt_of_le (Array.getElem?_eq_some_iff.mp hget).1 hfit
    exact hall _ s (by rwa [stmt?, index_ofIndex hlt])

theorem filterMap_visit?_ids (hfit : p.size ≤ UInt32.size) :
    p.ids.filterMap p.visit? = p.stmts.toList.zipIdx.map fun v => (.ofIndex v.2, v.1) := by
  have hvisit : ∀ v ∈ p.stmts.toList.zipIdx,
      p.visit? (.ofIndex v.2) = some (.ofIndex v.2, v.1) :=
    (forall_zipIdx_iff (q := fun id s => p.visit? id = some (id, s)) hfit).mpr fun id s hs => by
      simp [visit?, hs]
  have hids : p.ids = p.stmts.toList.zipIdx.map fun v => .ofIndex v.2 := by
    have hrange : List.range p.size = p.stmts.toList.zipIdx.map Prod.snd := by
      simp [size, List.range_eq_range', List.zipIdx_map_snd]
    rw [ids, hrange, List.map_map]
    rfl
  rw [hids, List.filterMap_map, ← List.filterMap_eq_map]
  exact List.filterMap_congr hvisit

theorem pair_sublist_ids (huser : user ∈ p.ids) (hlt : operand.index < user.index) :
    Sublist [operand, user] p.ids := by
  have hsize := index_lt_of_mem_ids huser
  have hpair : Sublist [operand.index, user.index] (List.range p.size) := by
    rw [← Nat.add_sub_of_le (Nat.le_of_lt hsize), List.range_add]
    refine pair_sublist_iff.mpr ⟨_, _, rfl, List.mem_range.mpr hlt, ?_⟩
    exact List.mem_map.mpr ⟨0, List.mem_range.mpr (Nat.sub_pos_of_lt hsize), rfl⟩
  simpa [ids, ofIndex_index] using hpair.map StmtId.ofIndex

-- ---------------------------------------------------------------------------
-- Findings
-- ---------------------------------------------------------------------------

def findingsIn (p : Program) (id : StmtId) (s : Stmt) : List Finding :=
  (p.stmtFlaws id s).map (⟨some id, ·⟩)

def tableFindings (p : Program) : List Finding :=
  p.stmts.toList.zipIdx.flatMap fun v => p.findingsIn (.ofIndex v.2) v.1

theorem Walked.placeFindings_eq {placed : List StmtId} {todo : List Listed} {l : List StmtId}
    (hl : p.Walked .everything (todo.map Prod.snd) l) (hplaced : ∀ id ∈ l, id ∉ placed)
    (hnodup : l.Nodup) (hknown : ∀ id ∈ l, ∃ s, p.stmt? id = some s) :
    p.placeFindings placed todo =
      (l.filterMap p.visit?).flatMap fun (id, s) => p.findingsIn id s := by
  fun_induction placeFindings p placed todo generalizing l with
  | case1 placed =>
    cases hl
    rfl
  | case2 placed owner id rest hid => exact absurd hid (hplaced id (hl.mem_of_mem (by simp)))
  | case3 placed owner id rest hid hs =>
    obtain ⟨s, hs'⟩ := hknown id (hl.mem_of_mem (by simp))
    cases hs.symm.trans hs'
  | case4 placed owner id rest hid s hs ih =>
    cases hl with
    | unknown hs' _ => cases hs'.symm.trans hs
    | @known _ inner _ l' _ hs' hinner hrest =>
      cases hs'.symm.trans hs
      obtain ⟨hnew, hnodup⟩ := List.nodup_cons.mp hnodup
      rw [List.forall_mem_cons] at hplaced hknown
      have hwalked : p.Walked .everything ((listedBy id s ++ rest).map Prod.snd) (inner ++ l') := by
        rw [List.map_append, map_snd_listedBy, ← nested_everything s]
        exact walked_append.mpr ⟨inner, l', hinner, hrest, rfl⟩
      have hrest := ih hwalked (fun a ha hmem => ?_) hnodup hknown.2
      · simp [hrest, visit?, hs, findingsIn]
      · rcases List.mem_cons.mp hmem with rfl | hmem
        · exact hnew ha
        · exact hplaced.2 a ha hmem

/-- Where the walk meets the whole table, nothing is found in the blocks. -/
theorem findings_eq (hl : p.Walked .everything p.root p.ids) (hfit : p.size ≤ UInt32.size) :
    p.findings = p.storage.flaws.map (⟨none, ·⟩) ++ p.tableFindings := by
  have hplace := Walked.placeFindings_eq ((map_snd_places none p.root).symm ▸ hl)
    (fun _ _ => List.not_mem_nil) (ids_nodup hfit) fun id => exists_stmt?_of_mem_ids
  rw [findings, hplace, filterMap_visit?_ids hfit, List.flatMap_map, tableFindings]

/-- Where the walk meets the whole table, it follows the order of the table, and in a valid program
operands are before their users there. -/
theorem operands_first (hl : p.Walked .everything p.root p.ids) (hp : p.isValid) :
    ∀ user ∈ p.ids, ∀ s, p.stmt? user = some s →
      ∀ operand ∈ s.operands, Sublist [operand, user] p.ids := by
  intro user huser s hs operand hoperand
  have hmem : user ∈ p.trail .everything p.root := hl.trail_eq.symm ▸ huser
  exact pair_sublist_ids huser (operand_index_lt hp hmem hs hoperand)

theorem tableFindings_bare : p.bare.tableFindings = p.tableFindings := by
  have hstmts : p.bare.stmts.toList = p.stmts.toList.map Stmt.bare := Array.toList_map
  simp only [tableFindings, hstmts, List.zipIdx_map, List.flatMap_map, Prod.map, id_eq, findingsIn,
    stmtFlaws_bare]

theorem not_isStructural {flaw : Flaw} (h : flaw ∈ p.stmtFlaws id s) : ¬ flaw.IsStructural := by
  intro hstruct
  simp only [stmtFlaws, List.mem_append, List.mem_flatMap] at h
  rcases h with (⟨operand, _, h⟩ | ⟨node, _, h⟩) | h
  · unfold operandFlaws at h
    cases hstruct <;> grind
  · unfold nodeFlaws at h
    cases hstruct <;> grind
  · unfold formFlaws loopIndexFlaws at h
    cases hstruct <;> grind

theorem findingsIn_eq_nil : p.findingsIn id s = [] ↔ p.StmtWellFormed id s := by
  rw [findingsIn, List.map_eq_nil_iff, stmtFlaws_eq_nil_iff]

theorem tableFindings_eq_nil (hfit : p.size ≤ UInt32.size) :
    p.tableFindings = [] ↔
      ∀ v ∈ p.stmts.toList.zipIdx, p.FollowsRules (.ofIndex v.2) v.1 := by
  rw [tableFindings, List.flatMap_eq_nil_iff,
    forall_zipIdx_iff hfit (q := fun id s => p.findingsIn id s = []),
    forall_zipIdx_iff hfit (q := p.FollowsRules), ← stmts_wellFormed_iff]
  simp only [findingsIn_eq_nil]

def arena (storage : StorageTree) (stmts : List Stmt) : Program :=
  ⟨currentVersion, storage, stmts.toArray, []⟩

end Program

-- ---------------------------------------------------------------------------
-- Drafts
-- ---------------------------------------------------------------------------

namespace Draft

open Program (arena)

variable {storage : StorageTree} {calls : List Call} {d : Draft} {p : Program}

theorem bare_build (hfit : (appended calls).length ≤ UInt32.size)
    (hplain : ∀ s ∈ appended calls, s.bare = s) :
    (build storage calls).bare = arena storage (appended calls) := by
  obtain ⟨_, _, hbares, hstorage⟩ := @walked_build storage calls hfit hplain
  rw [Program.bare, hstorage, arena, ← hbares, ← Array.toList_map, Array.toArray_toList]

theorem size_build (hfit : (appended calls).length ≤ UInt32.size)
    (hplain : ∀ s ∈ appended calls, s.bare = s) :
    (build storage calls).size = (appended calls).length := by
  obtain ⟨_, _, hbares, _⟩ := @walked_build storage calls hfit hplain
  simp [← hbares, Program.size]

theorem findings_build (hfit : (appended calls).length ≤ UInt32.size)
    (hplain : ∀ s ∈ appended calls, s.bare = s) :
    (build storage calls).findings =
      storage.flaws.map (⟨none, ·⟩) ++ (arena storage (appended calls)).tableFindings := by
  obtain ⟨hwalked, _, _, hstorage⟩ := @walked_build storage calls hfit hplain
  rw [Program.findings_eq hwalked (by rwa [size_build hfit hplain]), hstorage,
    ← Program.tableFindings_bare, bare_build hfit hplain]

theorem finish_eq_ok : d.finish = .ok p ↔ d.finishUnchecked = p ∧ p.findings = [] := by
  unfold finish
  by_cases hvalid : d.finishUnchecked.isValid
  · simp only [hvalid, if_true, Except.ok.injEq]
    exact ⟨fun h => ⟨h, h ▸ Program.isValid_eq.mp hvalid⟩, And.left⟩
  · simp only [hvalid]
    exact ⟨nofun, fun ⟨h, hnone⟩ => absurd (Program.isValid_eq.mpr (h ▸ hnone)) hvalid⟩

theorem finish_eq_error {findings : List Finding} (h : d.finish = .error findings) :
    d.finishUnchecked.findings = findings := by
  simp only [finish] at h
  split at h
  · cases h
  · exact Except.error.inj h

/-- What is appended decides whether a draft can be finished and what is found if it cannot, however
its blocks were opened and closed. Nothing is found in the blocks or in the tree, and in a draft
that can be finished no statement is met before its operands. Only a tree with more nodes than there
are names would be refused itself (`Grown.wellFormed_iff`). -/
theorem finish_judged (hgrown : storage.Grown) (hnodes : storage.size ≤ UInt32.size)
    (hfit : (appended calls).length ≤ UInt32.size) (hplain : ∀ s ∈ appended calls, s.bare = s) :
    ((∃ p, ((new storage).run calls).finish = .ok p) ↔
        ∀ v ∈ (appended calls).zipIdx,
          (arena storage (appended calls)).FollowsRules (.ofIndex v.2) v.1) ∧
      (∀ findings, ((new storage).run calls).finish = .error findings →
        findings = (arena storage (appended calls)).tableFindings ∧
        ∀ f ∈ findings, ¬ f.flaw.IsStructural) ∧
      ∀ p, ((new storage).run calls).finish = .ok p →
        p.bare = arena storage (appended calls) ∧
        ∃ l, p.trail? .everything p.root = some l ∧ l.Nodup ∧
          ∀ user ∈ l, ∀ s, p.stmt? user = some s →
            ∀ operand ∈ s.operands, List.Sublist [operand, user] l := by
  have hfindings := @findings_build storage calls hfit hplain
  rw [StorageTree.flaws_eq_nil.mpr (hgrown.wellFormed_iff.mpr hnodes), List.map_nil,
    List.nil_append] at hfindings
  refine ⟨?_, ?_, ?_⟩
  · simp only [finish_eq_ok, exists_eq_left']
    rw [← build, hfindings]
    exact Program.tableFindings_eq_nil (p := arena storage (appended calls)) hfit
  · intro findings herror
    obtain rfl := finish_eq_error herror
    rw [← build, hfindings]
    refine ⟨rfl, fun f hf => ?_⟩
    obtain ⟨v, _, hf⟩ := List.mem_flatMap.mp hf
    obtain ⟨flaw, hflaw, rfl⟩ := List.mem_map.mp hf
    exact Program.not_isStructural hflaw
  · intro p hok
    obtain ⟨rfl, hnone⟩ := finish_eq_ok.mp hok
    obtain ⟨hwalked, _⟩ := @walked_build storage calls hfit hplain
    have hsize : (build storage calls).size ≤ UInt32.size := by rwa [size_build hfit hplain]
    exact ⟨bare_build hfit hplain, _, Program.trail?_eq_some.mpr hwalked, Program.ids_nodup hsize,
      Program.operands_first hwalked (Program.isValid_eq.mpr hnone)⟩

def leafTree : StorageTree := (StorageTree.new.addChild StorageTree.root .place 0 none).2

/-- A task that is never closed, one call tries to close as something else, and that points to the
leaf at its own index. -/
def pointingCalls : List Call :=
  [.beginTask .rangeFor none, .push (.loopIndex ⟨0⟩ 0), .endBranch, .push (.globalPtr [⟨1⟩] [⟨1⟩])]

theorem pointingCalls_accepted : ∃ p, ((new leafTree).run pointingCalls).finish = .ok p := by
  have hgrown : leafTree.Grown := .addChild .place 0 none .new (by decide)
  refine (finish_judged hgrown (by decide) (by decide) (by decide)).1.mpr ?_
  have happended : (appended pointingCalls).zipIdx =
      [(.task .rangeFor none [], 0), (.loopIndex ⟨0⟩ 0, 1), (.globalPtr [⟨1⟩] [⟨1⟩], 2)] := rfl
  simp only [happended, List.forall_mem_cons]
  refine ⟨⟨by decide, by decide, nofun, nofun, nofun⟩, ⟨by decide, by decide, ?_, nofun, nofun⟩,
    ⟨by decide, by decide, nofun, nofun, nofun⟩, nofun⟩
  rintro _ _ ⟨⟩
  exact ⟨_, 1, rfl, .rangeForTask, by decide⟩

end Draft

end UniqueAccess
