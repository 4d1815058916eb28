import UniqueAccess.Proofs.Program.OpenBlocks
import UniqueAccess.Proofs.Program.Tasks

/-!
# What a draft becomes

Every call keeps a draft in order, whether it closes the block that it means to close or not. When
the calls are done and all blocks are closed, the walk through the root meets every name of the
table once, in the order of the table, and every statement is in the block that was innermost when
it was appended.
-/

namespace UniqueAccess.Draft

open Program (index_ofIndex)

variable {d : Draft} {s : Stmt} {storage : StorageTree} {calls : List Call}

-- ---------------------------------------------------------------------------
-- Calls
-- ---------------------------------------------------------------------------

inductive Call where
  | push (s : Stmt)
  | beginTask (kind : TaskKind) (container : Option NodeId)
  | endTask
  | beginBranch (cond : StmtId)
  | beginElse
  | endBranch
  | beginRangeFor (first last : StmtId)
  | endRangeFor
deriving DecidableEq, Repr

def Call.stmt? : Call → Option Stmt
  | push s => some s
  | beginTask kind container => some (.task kind container [])
  | beginBranch cond => some (.branch cond [] [])
  | beginRangeFor first last => some (.rangeFor first last [])
  | _ => none

def appended (calls : List Call) : List Stmt := calls.filterMap Call.stmt?

def apply (d : Draft) : Call → Draft
  | .push s => (d.push s).2
  | .beginTask kind container => (d.beginTask kind container).2
  | .endTask => d.endTask.2
  | .beginBranch cond => (d.beginBranch cond).2
  | .beginElse => d.beginElse.2
  | .endBranch => d.endBranch.2
  | .beginRangeFor first last => (d.beginRangeFor first last).2
  | .endRangeFor => d.endRangeFor.2

def run (d : Draft) (calls : List Call) : Draft := calls.foldl apply d

def build (storage : StorageTree) (calls : List Call) : Program :=
  ((new storage).run calls).finishUnchecked

-- ---------------------------------------------------------------------------
-- Runs
-- ---------------------------------------------------------------------------

theorem appended_cons (call : Call) (calls : List Call) :
    appended (call :: calls) = call.stmt?.toList ++ appended calls := by
  cases h : call.stmt? <;> simp [appended, h]

theorem appended_append (calls calls' : List Call) :
    appended (calls ++ calls') = appended calls ++ appended calls' :=
  List.filterMap_append

theorem InOrder.apply (call : Call) (h : d.InOrder)
    (hroom : d.stmts.size + call.stmt?.toList.length ≤ UInt32.size)
    (hplain : ∀ s ∈ call.stmt?.toList, s.bare = s) :
    d.Continues call.stmt?.toList (d.apply call) := by
  cases call with
  | push s => exact h.push hroom (hplain s List.mem_cons_self)
  | beginTask kind container => exact h.begin hroom rfl .task
  | beginBranch cond => exact h.begin hroom rfl .onTrue
  | beginRangeFor first last => exact h.begin hroom rfl .rangeFor
  | beginElse => exact h.beginElse
  | endTask => exact h.close _
  | endBranch => exact h.close _
  | endRangeFor => exact h.close _

theorem InOrder.run (calls : List Call) (h : d.InOrder)
    (hroom : d.stmts.size + (appended calls).length ≤ UInt32.size)
    (hplain : ∀ s ∈ appended calls, s.bare = s) : d.Continues (appended calls) (d.run calls) := by
  induction calls generalizing d with
  | nil => exact h.continues
  | cons call rest ih =>
    rw [appended_cons, List.length_append] at hroom
    rw [appended_cons, List.forall_mem_append] at hplain
    have hcall := h.apply call (by omega) hplain.1
    rw [appended_cons]
    exact hcall.trans (ih hcall.inOrder (by rw [hcall.size]; omega) hplain.2)

theorem lists_apply {call : Call} (hs : call.stmt? = some s) :
    (d.apply call).Lists d.place (StmtId.ofIndex d.stmts.size) := by
  have hbegin : ∀ {s slot}, (d.begin s slot).2.Lists d.place (StmtId.ofIndex d.stmts.size) := by
    intro s slot
    rw [begin_eq]
    exact lists_push_self.openBlock _ _
  cases call with
  | push s => exact lists_push_self
  | beginTask kind container => exact hbegin
  | beginBranch cond => exact hbegin
  | beginRangeFor first last => exact hbegin
  | _ => cases hs

-- ---------------------------------------------------------------------------
-- Finished programs
-- ---------------------------------------------------------------------------

theorem walked_build (hfit : (appended calls).length ≤ UInt32.size)
    (hplain : ∀ s ∈ appended calls, s.bare = s) :
    (build storage calls).Walked .everything (build storage calls).root (build storage calls).ids ∧
      (build storage calls).ids = (List.range (appended calls).length).map StmtId.ofIndex ∧
      (build storage calls).stmts.toList.map Stmt.bare = appended calls ∧
      (build storage calls).storage = storage := by
  have hrun := (inOrder_new storage).run calls (by simpa [new] using hfit) hplain
  obtain ⟨d, hfinish, hnone, heq⟩ := hrun.inOrder.finishUnchecked
  have hbuilt := hrun.trans hfinish
  rw [List.append_nil] at hbuilt
  have hbares : d.bares = appended calls := hbuilt.bares
  have hsize : d.stmts.size = (appended calls).length := by rw [← length_bares, hbares]
  rw [build, heq]
  exact ⟨hbuilt.inOrder.walked hnone, by rw [← hsize]; rfl, hbares, hbuilt.storage⟩

theorem mem_blockAt_build (hfit : (appended calls).length ≤ UInt32.size)
    (hplain : ∀ s ∈ appended calls, s.bare = s) {before after : List Call} {call : Call}
    (hcalls : calls = before ++ call :: after) (hs : call.stmt? = some s) :
    StmtId.ofIndex (appended before).length ∈
      (build storage calls).blockAt ((new storage).run before).place := by
  subst hcalls
  rw [appended_append, appended_cons, List.length_append, List.length_append] at hfit
  rw [appended_append, appended_cons, List.forall_mem_append, List.forall_mem_append] at hplain
  have hnew : (new storage).stmts.size = 0 := rfl
  have hbefore := (inOrder_new storage).run before (by omega) hplain.1
  have hsize : ((new storage).run before).stmts.size = (appended before).length := by
    rw [hbefore.size, hnew, Nat.zero_add]
  have hcall := hbefore.inOrder.apply call (by omega) hplain.2.1
  have hafter := hcall.inOrder.run after (by rw [hcall.size]; omega) hplain.2.2
  obtain ⟨d, hfinish, hnone, heq⟩ := hafter.inOrder.finishUnchecked
  have hbuild : build storage (before ++ call :: after) = d.table := by
    rw [← heq]
    simp only [build, run, List.foldl_append, List.foldl_cons]
  have hlists := (hafter.trans hfinish).lists _ _ (lists_apply hs)
  rw [hbuild, ← hsize]
  cases hlists with
  | closed hid => exact hid
  | stillOpen hb => simp [hnone] at hb

/-- What is built keeps the order of the calls, matched or not: the walk through the root meets the
statements as they were appended, each once, and each in the block that was innermost then. -/
theorem build_inOrder (hfit : (appended calls).length ≤ UInt32.size)
    (hplain : ∀ s ∈ appended calls, s.bare = s) :
    (build storage calls).trail? .everything (build storage calls).root =
        some ((List.range (appended calls).length).map StmtId.ofIndex) ∧
      ((build storage calls).visits .everything (build storage calls).root).map Prod.fst =
        (List.range (appended calls).length).map StmtId.ofIndex ∧
      ∀ before call after s, calls = before ++ call :: after → call.stmt? = some s →
        (∃ t, (build storage calls).stmt? (StmtId.ofIndex (appended before).length) = some t ∧
          t.bare = s) ∧
        StmtId.ofIndex (appended before).length ∈
          (build storage calls).blockAt ((new storage).run before).place := by
  obtain ⟨hwalked, hids, hbares, _⟩ := @walked_build storage calls hfit hplain
  refine ⟨hids ▸ Program.trail?_eq_some.mpr hwalked, ?_, fun before call after s hcalls hs =>
    ⟨?_, mem_blockAt_build hfit hplain hcalls hs⟩⟩
  · rw [Program.map_fst_visits, hwalked.trail_eq, hids]
    intro id hid
    exact Program.exists_stmt?_of_mem_ids (hwalked.trail_eq ▸ hid)
  · have hsplit : appended calls = appended before ++ s :: appended after := by
      rw [hcalls, appended_append, appended_cons, hs]
      rfl
    have hget : (appended calls)[(appended before).length]? = some s := by simp [hsplit]
    have hlt : (appended before).length < UInt32.size := by
      rw [hsplit, List.length_append, List.length_cons] at hfit
      omega
    rw [← hbares, List.getElem?_map, Array.getElem?_toList] at hget
    rw [Program.stmt?, index_ofIndex hlt]
    exact Option.map_eq_some_iff.mp hget

/-- A task with a conditional that two calls try to close as something else. The loop in its second
branch and then the conditional are closed by calls that match, and each is followed by a constant.
The task is still open at the end. -/
def tangledCalls : List Call :=
  [.beginTask .rangeFor none, .push (.const (.i32 1)), .endBranch, .beginBranch ⟨1⟩,
    .push (.const (.i32 2)), .beginElse, .push (.const (.i32 3)), .endRangeFor,
    .beginRangeFor ⟨1⟩ ⟨1⟩, .push (.const (.i32 4)), .endRangeFor, .push (.const (.i32 5)),
    .endBranch, .push (.const (.i32 6))]

theorem tangledCalls_inOrder :
    (build .new tangledCalls).trail? .everything (build .new tangledCalls).root =
        some [⟨0⟩, ⟨1⟩, ⟨2⟩, ⟨3⟩, ⟨4⟩, ⟨5⟩, ⟨6⟩, ⟨7⟩, ⟨8⟩] ∧
      ⟨6⟩ ∈ (build .new tangledCalls).blockAt (some (⟨5⟩, .body)) ∧
      ⟨7⟩ ∈ (build .new tangledCalls).blockAt (some (⟨2⟩, .onFalse)) ∧
      ⟨8⟩ ∈ (build .new tangledCalls).blockAt (some (⟨0⟩, .body)) := by
  obtain ⟨htrail, _, hplaces⟩ :=
    @build_inOrder .new tangledCalls (by decide) (by decide)
  exact ⟨htrail, (hplaces (tangledCalls.take 9) (.push (.const (.i32 4))) _ _ rfl rfl).2,
    (hplaces (tangledCalls.take 11) (.push (.const (.i32 5))) _ _ rfl rfl).2,
    (hplaces (tangledCalls.take 13) (.push (.const (.i32 6))) _ _ rfl rfl).2⟩

end UniqueAccess.Draft
