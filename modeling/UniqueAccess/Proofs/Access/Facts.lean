import UniqueAccess.Proofs.Access.Equality
import UniqueAccess.Proofs.Access.Uniqueness
import UniqueAccess.Proofs.Program.Bare
import UniqueAccess.Proofs.Program.Order

/-!
# Facts that do not depend on the order

A walk learns something about a statement only when it visits it, from what it knows of the
operands. If it visits every statement once and no operand after its user, then what it knows in the
end solves equations in which the order does not occur. If it also visits all operands, that is the
only solution. Statements of one form solve the same equation, so that the same is known about them.
-/

namespace UniqueAccess

open List (Sublist)

-- ---------------------------------------------------------------------------
-- One visit
-- ---------------------------------------------------------------------------

namespace LoopFacts

variable {task id id' : StmtId} {f g : LoopFacts} {s : Stmt}

def derivesInvariant (f : LoopFacts) : Stmt → Bool
  | .const _ => true
  | .unary _ x => f.isInvariant x
  | .binary _ x y => f.isInvariant x && f.isInvariant y
  | _ => false

def derivedTag? (task : StmtId) (f : LoopFacts) : Stmt → Option LoopTag
  | .loopIndex owner k => if owner = task then some (.along k.toNat) else .none
  | .loopUnique _ => some .full
  | .unary op x => if op.isInjective then f.tag? x else .none
  | .binary op x y => if op.isInjectiveInEach then f.combinedTag? x y else .none
  | _ => .none

@[simp] theorem tag?_addInvariant : (f.addInvariant id).tag? = f.tag? := rfl

theorem isInvariant_visit :
    (f.visit task id s).isInvariant id' =
      if id' = id then f.derivesInvariant s || f.isInvariant id' else f.isInvariant id' := by
  have hadd : ∀ x, (f.addInvariant id).isInvariant x = (decide (x = id) || f.isInvariant x) := by
    intro x
    rw [Bool.eq_iff_iff, isInvariant_addInvariant]
    simp
  cases s with
  | const v => by_cases h : id' = id <;> simp [visit, derivesInvariant, hadd, h]
  | unary op x =>
    cases hx : f.isInvariant x <;> by_cases h : id' = id <;>
      simp [visit, derivesInvariant, hx, hadd, h]
  | binary op x y =>
    cases hxy : f.isInvariant x && f.isInvariant y <;> by_cases h : id' = id <;>
      simp [visit, derivesInvariant, hxy, hadd, h]
  | loopIndex owner k => by_cases h : owner = task <;> simp [visit, derivesInvariant, h]
  | _ => simp [visit, derivesInvariant]

theorem tag?_visit :
    (f.visit task id s).tag? id' =
      if id' = id then (f.derivedTag? task s).or (f.tag? id') else f.tag? id' := by
  cases s with
  | unary op x =>
    cases hx : f.isInvariant x <;> simp [visit, derivedTag?, hx, tag?_addTag]
  | binary op x y =>
    cases hxy : f.isInvariant x && f.isInvariant y <;>
      simp [visit, derivedTag?, hxy, tag?_addTag]
  | loopIndex owner k =>
    by_cases h : owner = task <;> simp [visit, derivedTag?, h, tag?_addTag]
  | loopUnique x => simp [visit, derivedTag?, tag?_addTag]
  | _ => simp [visit, derivedTag?]

theorem combinedTag?_comm (x y : StmtId) : f.combinedTag? x y = f.combinedTag? y x := by
  unfold combinedTag?
  cases f.tag? x <;> cases f.tag? y <;> rfl

structure Agree (f g : LoopFacts) (x y : StmtId) : Prop where
  invariant : f.isInvariant x = g.isInvariant y
  tag : f.tag? x = g.tag? y

theorem combinedTag?_congr {x x' y y' : StmtId} (hx : Agree f g x x') (hy : Agree f g y y') :
    f.combinedTag? x y = g.combinedTag? x' y' := by
  simp only [combinedTag?, hx.invariant, hx.tag, hy.invariant, hy.tag]

-- ---------------------------------------------------------------------------
-- Equations
-- ---------------------------------------------------------------------------

/-- What is known about the statement is what follows from what is known about its operands. -/
structure Solves (f : LoopFacts) (task id : StmtId) (s : Stmt) : Prop where
  invariant : f.isInvariant id = f.derivesInvariant s
  tag : f.tag? id = f.derivedTag? task s

theorem Solves.agree {t : Stmt} (hs : f.Solves task id s) (ht : g.Solves task id' t)
    (h : Program.SameForm (Agree f g) s t) : Agree f g id id' := by
  constructor
  · rw [hs.invariant, ht.invariant]
    cases h with
    | unary h => exact h.invariant
    | straight hl hr => simp only [derivesInvariant, hl.invariant, hr.invariant]
    | crossed _ hl hr => simp only [derivesInvariant, hl.invariant, hr.invariant, Bool.and_comm]
    | _ => rfl
  · rw [hs.tag, ht.tag]
    cases h with
    | unary h => simp only [derivedTag?, h.tag]
    | straight hl hr => simp only [derivedTag?, combinedTag?_congr hl hr]
    | @crossed l r' r l' op _ hl hr =>
      simp only [derivedTag?, combinedTag?_congr hl hr, combinedTag?_comm r' l']
    | _ => rfl

theorem Solves.of_bare {t : Stmt} (h : f.Solves task id s) (hbare : t.bare = s.bare) :
    f.Solves task id t := by
  have hinvariant : ∀ s : Stmt, f.derivesInvariant s.bare = f.derivesInvariant s := by
    intro s
    cases s <;> rfl
  have htag : ∀ s : Stmt, f.derivedTag? task s.bare = f.derivedTag? task s := by
    intro s
    cases s <;> rfl
  constructor
  · rw [h.invariant, ← hinvariant s, ← hbare, hinvariant t]
  · rw [h.tag, ← htag s, ← hbare, htag t]

theorem derivesInvariant_congr (h : ∀ x ∈ s.operands, Agree f g x x) :
    f.derivesInvariant s = g.derivesInvariant s := by
  cases s with
  | unary op x => exact (h x (by simp [Stmt.operands])).invariant
  | binary op x y =>
    simp only [derivesInvariant, (h x (by simp [Stmt.operands])).invariant,
      (h y (by simp [Stmt.operands])).invariant]
  | _ => rfl

theorem derivedTag?_congr (h : ∀ x ∈ s.operands, Agree f g x x) :
    f.derivedTag? task s = g.derivedTag? task s := by
  cases s with
  | unary op x => simp only [derivedTag?, (h x (by simp [Stmt.operands])).tag]
  | binary op x y =>
    simp only [derivedTag?, combinedTag?_congr (h x (by simp [Stmt.operands]))
      (h y (by simp [Stmt.operands]))]
  | _ => rfl

theorem Solves.agree_of_operands (hf : f.Solves task id s) (hg : g.Solves task id s)
    (h : ∀ x ∈ s.operands, Agree f g x x) : Agree f g id id :=
  ⟨by rw [hf.invariant, hg.invariant, derivesInvariant_congr h],
    by rw [hf.tag, hg.tag, derivedTag?_congr h]⟩

theorem agree_visit (s : Stmt) (h : id' ≠ id) : Agree f (f.visit task id s) id' id' :=
  ⟨by rw [isInvariant_visit, if_neg h], by rw [tag?_visit, if_neg h]⟩

theorem Solves.visit (h : f.Solves task id' s) (hid : id' ≠ id)
    (hoperands : ∀ operand ∈ s.operands, operand ≠ id) (t : Stmt) :
    (f.visit task id t).Solves task id' s := by
  have hagree : ∀ x ∈ s.operands, Agree f (f.visit task id t) x x := fun x hx =>
    agree_visit t (hoperands x hx)
  constructor
  · rw [← (agree_visit t hid).invariant, h.invariant, derivesInvariant_congr hagree]
  · rw [← (agree_visit t hid).tag, h.tag, derivedTag?_congr hagree]

theorem solves_visit (hinvariant : f.isInvariant id = false) (htag : f.tag? id = .none)
    (hoperands : ∀ operand ∈ s.operands, operand ≠ id) : (f.visit task id s).Solves task id s := by
  have hagree : ∀ x ∈ s.operands, Agree f (f.visit task id s) x x := fun x hx =>
    agree_visit s (hoperands x hx)
  constructor
  · rw [isInvariant_visit, if_pos rfl, hinvariant, Bool.or_false, derivesInvariant_congr hagree]
  · rw [tag?_visit, if_pos rfl, htag, Option.or_none, derivedTag?_congr hagree]

end LoopFacts

-- ---------------------------------------------------------------------------
-- All visits
-- ---------------------------------------------------------------------------

namespace LoopFacts

variable {task id : StmtId} {f : LoopFacts} {visits : List (StmtId × Stmt)}

theorem visitAll_append_singleton (v : StmtId × Stmt) :
    f.visitAll task (visits ++ [v]) = (f.visitAll task visits).visit task v.1 v.2 := by
  simp [visitAll]

theorem agree_visitAll (hid : id ∉ visits.map Prod.fst) :
    Agree f (f.visitAll task visits) id id := by
  induction visits generalizing f with
  | nil => exact ⟨rfl, rfl⟩
  | cons v rest ih =>
    rw [List.map_cons, List.mem_cons, not_or] at hid
    have hv : Agree f (f.visit task v.1 v.2) id id := agree_visit v.2 hid.1
    have hrest := ih (f := f.visit task v.1 v.2) hid.2
    exact ⟨hv.invariant.trans hrest.invariant, hv.tag.trans hrest.tag⟩

end LoopFacts

/-- Every statement is visited once, and after those of its operands that are visited at all. -/
structure FollowsOperands (visits : List (StmtId × Stmt)) : Prop where
  nodup : (visits.map Prod.fst).Nodup
  operands : ∀ v ∈ visits, ∀ operand ∈ v.2.operands, operand ∈ visits.map Prod.fst →
    Sublist [operand, v.1] (visits.map Prod.fst)

namespace FollowsOperands

variable {visits : List (StmtId × Stmt)} {u v : StmtId × Stmt} {task operand : StmtId}

theorem not_mem_of_append (h : FollowsOperands (visits ++ [v])) : v.1 ∉ visits.map Prod.fst := by
  have hnodup := h.nodup
  rw [List.map_append, List.nodup_append] at hnodup
  exact fun hmem => hnodup.2.2 _ hmem v.1 (by simp) rfl

theorem operand_ne_last (h : FollowsOperands (visits ++ [v])) (hu : u ∈ visits ++ [v])
    (hoperand : operand ∈ u.2.operands) : operand ≠ v.1 := by
  rintro rfl
  have hpair := h.operands u hu v.1 hoperand (by simp)
  rw [List.map_append] at hpair
  rcases Program.pair_sublist_append.mp hpair with hpair | ⟨hmem, _⟩ | hpair
  · exact h.not_mem_of_append (hpair.subset List.mem_cons_self)
  · exact h.not_mem_of_append hmem
  · exact absurd hpair.length_le (by simp)

theorem of_append (h : FollowsOperands (visits ++ [v])) : FollowsOperands visits where
  nodup := h.nodup.sublist ((List.sublist_append_left _ _).map _)
  operands u hu operand hoperand hvisited := by
    have hpair := h.operands u (List.mem_append_left _ hu) operand hoperand
      (by rw [List.map_append]; exact List.mem_append_left _ hvisited)
    rw [List.map_append] at hpair
    have hmem : u.1 ∈ visits.map Prod.fst := List.mem_map.mpr ⟨u, hu, rfl⟩
    have hne : u.1 ≠ v.1 := fun heq => h.not_mem_of_append (heq ▸ hmem)
    rcases Program.pair_sublist_append.mp hpair with hpair | ⟨_, hlast⟩ | hpair
    · exact hpair
    · exact absurd (by simpa using hlast) hne
    · exact absurd hpair.length_le (by simp)

theorem visitAll_solves (h : FollowsOperands visits) :
    ∀ v ∈ visits, (LoopFacts.none.visitAll task visits).Solves task v.1 v.2 := by
  induction visits using List.reverseRecOn with
  | nil => exact nofun
  | append_singleton visits v ih =>
    rw [LoopFacts.visitAll_append_singleton]
    intro u hu
    have hoperands : ∀ operand ∈ u.2.operands, operand ≠ v.1 := fun _ => h.operand_ne_last hu
    rcases List.mem_append.mp hu with hearlier | hlast
    · have hne : u.1 ≠ v.1 := fun heq => h.not_mem_of_append (heq ▸ List.mem_map_of_mem hearlier)
      exact (ih h.of_append u hearlier).visit hne hoperands v.2
    · obtain rfl := List.mem_singleton.mp hlast
      have hnone : LoopFacts.Agree .none (LoopFacts.none.visitAll task visits) u.1 u.1 :=
        LoopFacts.agree_visitAll h.not_mem_of_append
      exact LoopFacts.solves_visit hnone.invariant.symm hnone.tag.symm hoperands

end FollowsOperands

/-- Every statement is visited once, all its operands are visited, and before it. -/
structure DefinesFirst (visits : List (StmtId × Stmt)) : Prop where
  nodup : (visits.map Prod.fst).Nodup
  operands : ∀ v ∈ visits, ∀ operand ∈ v.2.operands,
    Sublist [operand, v.1] (visits.map Prod.fst)

namespace DefinesFirst

variable {p : Program} {visits : List (StmtId × Stmt)} {u v : StmtId × Stmt} {id : StmtId} {s : Stmt}

theorem followsOperands (h : DefinesFirst visits) : FollowsOperands visits :=
  ⟨h.nodup, fun v hv operand hoperand _ => h.operands v hv operand hoperand⟩

theorem mem_operand (h : DefinesFirst visits) (hmem : (id, s) ∈ visits) {operand : StmtId}
    (hoperand : operand ∈ s.operands) : operand ∈ visits.map Prod.fst :=
  (h.operands _ hmem operand hoperand).subset List.mem_cons_self

theorem mem_of_append (h : DefinesFirst (visits ++ [v])) (hu : u ∈ visits ++ [v])
    {operand : StmtId} (hoperand : operand ∈ u.2.operands) : operand ∈ visits.map Prod.fst := by
  have hne := h.followsOperands.operand_ne_last hu hoperand
  simpa [hne] using h.mem_operand hu hoperand

theorem of_append (h : DefinesFirst (visits ++ [v])) : DefinesFirst visits where
  nodup := h.followsOperands.of_append.nodup
  operands u hu operand hoperand := h.followsOperands.of_append.operands u hu operand hoperand
    (h.mem_of_append (List.mem_append_left _ hu) hoperand)

theorem grounded (h : DefinesFirst visits)
    (hvisits : ∀ id s, (id, s) ∈ visits → p.stmt? id = some s)
    (hid : id ∈ visits.map Prod.fst) : p.Grounded id := by
  induction visits using List.reverseRecOn generalizing id with
  | nil => cases hid
  | append_singleton visits v ih =>
    have hearlier : ∀ {id}, id ∈ visits.map Prod.fst → p.Grounded id := fun hid =>
      ih h.of_append (fun id s hmem => hvisits id s (List.mem_append_left _ hmem)) hid
    rw [List.map_append] at hid
    rcases List.mem_append.mp hid with hid | hid
    · exact hearlier hid
    · obtain rfl : id = v.1 := by simpa using hid
      refine .intro _ fun operand ⟨s, hs, hoperand⟩ => hearlier (h.mem_of_append (u := v) ?_ ?_)
      · simp
      · obtain rfl := Option.some.inj ((hvisits v.1 v.2 (by simp)).symm.trans hs)
        exact hoperand

end DefinesFirst

end UniqueAccess
