import UniqueAccess.Access.Results
import Mathlib.Data.Finset.Card

/-!
# Reading a cache after a change

A cache is read by pass. Keeping a result, or giving it up, changes what is read for its own pass
and for no other one, and a computation that fails is as if it had not been asked for.
-/

namespace UniqueAccess.ResultCache

variable {π : Type} [PassFamily π] [DecidableEq π] {pass other : π}

theorem lookup_cons_self {result : PassFamily.Result pass}
    {rest : List ((pass : π) × PassFamily.Result pass)} :
    lookup pass (⟨pass, result⟩ :: rest) = some result := by
  simp [lookup]

theorem lookup_cons_of_ne {result : PassFamily.Result pass}
    {rest : List ((pass : π) × PassFamily.Result pass)} (h : other ≠ pass) :
    lookup other (⟨pass, result⟩ :: rest) = lookup other rest := by
  simp [lookup, Ne.symm h]

theorem lookup_filter_of_ne {entries : List ((pass : π) × PassFamily.Result pass)}
    (h : other ≠ pass) :
    lookup other (entries.filter fun e => e.1 ≠ pass) = lookup other entries := by
  induction entries with
  | nil => rfl
  | cons e rest ih =>
    obtain ⟨kept, result⟩ := e
    by_cases hkept : kept = pass
    · subst hkept
      rw [List.filter_cons_of_neg (by simp), ih, lookup_cons_of_ne h]
    · rw [List.filter_cons_of_pos (by simp [hkept])]
      by_cases hother : other = kept
      · subst hother
        rw [lookup_cons_self, lookup_cons_self]
      · rw [lookup_cons_of_ne hother, lookup_cons_of_ne hother, ih]

@[simp] theorem get?_put_self (c : ResultCache π) (result : PassFamily.Result pass) :
    (c.put pass result).get? pass = some result :=
  lookup_cons_self

theorem get?_put_of_ne (c : ResultCache π) (result : PassFamily.Result pass) (h : other ≠ pass) :
    (c.put pass result).get? other = c.get? other :=
  (lookup_cons_of_ne h).trans (lookup_filter_of_ne h)

theorem lookup_eq_none_iff {entries : List ((pass : π) × PassFamily.Result pass)} :
    lookup pass entries = none ↔ pass ∉ entries.map Sigma.fst := by
  induction entries with
  | nil => simp [lookup]
  | cons e rest ih =>
    obtain ⟨kept, result⟩ := e
    by_cases h : pass = kept
    · subst h
      simp [lookup_cons_self]
    · rw [lookup_cons_of_ne h, ih]
      simp [h]

theorem mem_passes_iff (c : ResultCache π) : pass ∈ c.passes ↔ (c.get? pass).isSome := by
  rw [← Option.ne_none_iff_isSome, ne_eq, get?, lookup_eq_none_iff, not_not]
  rfl

theorem size_eq (c : ResultCache π) : c.size = c.passes.toFinset.card := by
  rw [passes, List.toFinset_card_of_nodup c.nodup, List.length_map, size]

@[simp] theorem get?_invalidate_self (c : ResultCache π) : (c.invalidate pass).get? pass = none :=
  lookup_eq_none_iff.mpr (by simp [invalidate])

theorem get?_invalidate_of_ne (c : ResultCache π) (h : other ≠ pass) :
    (c.invalidate pass).get? other = c.get? other :=
  lookup_filter_of_ne h

/-- The second cache has a result of a pass; for the other passes it has what the first one has. -/
structure Gains (c : ResultCache π) (pass : π) (result : PassFamily.Result pass)
    (c' : ResultCache π) : Prop where
  at_pass : c'.get? pass = some result
  elsewhere : ∀ other, other ≠ pass → c'.get? other = c.get? other

theorem gains_put (c : ResultCache π) (pass : π) (result : PassFamily.Result pass) :
    c.Gains pass result (c.put pass result) :=
  ⟨c.get?_put_self result, fun _ => c.get?_put_of_ne result⟩

variable {c : ResultCache π} {result : PassFamily.Result pass} {ε : Type}
  {compute : Unit → Except ε (PassFamily.Result pass)}

theorem getOrCompute_of_some (h : c.get? pass = some result) :
    c.getOrCompute pass compute = (.ok result, c) := by
  simp only [getOrCompute, h]

theorem getOrCompute_of_ok (h : c.get? pass = none) (hok : compute () = .ok result) :
    c.getOrCompute pass compute = (.ok result, c.put pass result) := by
  simp only [getOrCompute, h, hok]

theorem getOrCompute_of_error {e : ε} (h : c.get? pass = none) (herror : compute () = .error e) :
    c.getOrCompute pass compute = (.error e, c) := by
  simp only [getOrCompute, h, herror]

end UniqueAccess.ResultCache
