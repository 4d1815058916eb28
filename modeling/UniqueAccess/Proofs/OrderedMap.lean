import UniqueAccess.OrderedMap
import Mathlib.Data.List.Basic

/-!
# Reading an ordered map after an insertion

A map is known by its keys in their order and by what each of them is mapped to (`ext_get?`). Keys
stand in the order in which they were first inserted: `List.eraseDups` keeps the first of equal
items.
-/

namespace UniqueAccess

-- ---------------------------------------------------------------------------
-- Lists without repetitions
-- ---------------------------------------------------------------------------

section
variable {α : Type} [DecidableEq α]

theorem nodup_eraseDups (l : List α) : l.eraseDups.Nodup := by
  induction hn : l.length using Nat.strongRecOn generalizing l with
  | _ n ih =>
    cases l with
    | nil => simp
    | cons a rest =>
      rw [List.eraseDups_cons, List.nodup_cons]
      refine ⟨by simp, ih _ ?_ _ rfl⟩
      rw [← hn]
      exact Nat.lt_succ_of_le (List.length_filter_le ..)

theorem eraseDups_eq_self {l : List α} (h : l.Nodup) : l.eraseDups = l := by
  induction l with
  | nil => rfl
  | cons a rest ih =>
    obtain ⟨ha, hrest⟩ := List.nodup_cons.mp h
    have hfilter : rest.filter (fun b => !b == a) = rest :=
      List.filter_eq_self.mpr fun b hb => by simp [ne_of_mem_of_not_mem hb ha]
    rw [List.eraseDups_cons, hfilter, ih hrest]

theorem eraseDups_append_eraseDups (l l' : List α) :
    (l.eraseDups ++ l').eraseDups = (l ++ l').eraseDups := by
  have hremove : l'.removeAll l.eraseDups = l'.removeAll l :=
    List.filter_congr fun a _ => by simp
  rw [List.eraseDups_append, List.eraseDups_append, eraseDups_eq_self (nodup_eraseDups l), hremove]

theorem eraseDups_append_singleton_of_mem {l : List α} {a : α} (h : a ∈ l) :
    (l ++ [a]).eraseDups = l.eraseDups := by
  simp [List.eraseDups_append, List.removeAll, h]

theorem eraseDups_append_singleton_of_not_mem {l : List α} {a : α} (h : a ∉ l) :
    (l ++ [a]).eraseDups = l.eraseDups ++ [a] := by
  simp [List.eraseDups_append, List.removeAll, h, List.eraseDups_cons]

end

-- ---------------------------------------------------------------------------
-- Values
-- ---------------------------------------------------------------------------

namespace OrderedMap

variable {κ ν : Type} [DecidableEq κ]

@[simp] theorem get?_empty (k : κ) : (empty : OrderedMap κ ν).get? k = none := rfl

theorem lookup_cons (i : κ) (w : ν) (rest : List (κ × ν)) (j : κ) :
    ((i, w) :: rest).lookup j = if j = i then some w else rest.lookup j := by
  by_cases h : j = i
  · simp [h]
  · simp [List.lookup_cons, beq_false_of_ne h, h]

theorem replaced_cons (i : κ) (w : ν) (rest : List (κ × ν)) (k : κ) (v : ν) :
    replaced ((i, w) :: rest) k v = (if i = k then (k, v) else (i, w)) :: replaced rest k v := rfl

theorem lookup_replaced_self {entries : List (κ × ν)} {k : κ} (v : ν)
    (h : k ∈ entries.map Prod.fst) : (replaced entries k v).lookup k = some v := by
  induction entries with
  | nil => simp at h
  | cons e rest ih =>
    obtain ⟨i, w⟩ := e
    by_cases hik : i = k
    · rw [replaced_cons, if_pos hik, lookup_cons, if_pos rfl]
    · rw [replaced_cons, if_neg hik, lookup_cons, if_neg (Ne.symm hik)]
      exact ih ((List.mem_cons.mp h).resolve_left (Ne.symm hik))

theorem lookup_replaced_of_ne (entries : List (κ × ν)) {k j : κ} (v : ν) (h : j ≠ k) :
    (replaced entries k v).lookup j = entries.lookup j := by
  induction entries with
  | nil => rfl
  | cons e rest ih =>
    obtain ⟨i, w⟩ := e
    by_cases hik : i = k
    · subst hik
      rw [replaced_cons, if_pos rfl, lookup_cons, lookup_cons, if_neg h, if_neg h, ih]
    · rw [replaced_cons, if_neg hik, lookup_cons, lookup_cons, ih]

theorem lookup_eq_none {entries : List (κ × ν)} {k : κ} (h : k ∉ entries.map Prod.fst) :
    entries.lookup k = none := by
  induction entries with
  | nil => rfl
  | cons e rest ih =>
    obtain ⟨i, w⟩ := e
    simp only [List.map_cons, List.mem_cons, not_or] at h
    rw [lookup_cons, if_neg h.1, ih h.2]

@[simp] theorem get?_insert_self (m : OrderedMap κ ν) (k : κ) (v : ν) :
    (m.insert k v).get? k = some v := by
  unfold insert
  split
  · next h => exact lookup_replaced_self v h
  · next h =>
    simp [get?, List.lookup_append, lookup_eq_none (h : k ∉ m.entries.map Prod.fst)]

theorem get?_insert_of_ne (m : OrderedMap κ ν) {k j : κ} (v : ν) (h : j ≠ k) :
    (m.insert k v).get? j = m.get? j := by
  unfold insert
  split
  · exact lookup_replaced_of_ne m.entries v h
  · simp [get?, List.lookup_append, lookup_cons, h]

theorem mem_entries_iff (m : OrderedMap κ ν) (k : κ) (v : ν) :
    (k, v) ∈ m.entries ↔ m.get? k = some v := by
  obtain ⟨entries, hnodup⟩ := m
  simp only [get?]
  induction entries with
  | nil => simp
  | cons e rest ih =>
    obtain ⟨i, w⟩ := e
    simp only [List.map_cons, List.nodup_cons] at hnodup
    by_cases hki : k = i
    · subst hki
      have hrest : (k, v) ∉ rest := fun hmem =>
        hnodup.1 (List.mem_map.mpr ⟨(k, v), hmem, rfl⟩)
      simp [hrest, eq_comm]
    · simp [lookup_cons, hki, ih hnodup.2]

-- ---------------------------------------------------------------------------
-- Keys
-- ---------------------------------------------------------------------------

@[simp] theorem eraseDups_keys (m : OrderedMap κ ν) : m.keys.eraseDups = m.keys :=
  eraseDups_eq_self m.nodup

theorem mem_keys_iff {m : OrderedMap κ ν} {k : κ} : k ∈ m.keys ↔ ∃ v, m.get? k = some v := by
  simp only [keys, List.mem_map, Prod.exists, mem_entries_iff, exists_and_right, exists_eq_right]

theorem mem_keys_of_get? {m : OrderedMap κ ν} {k : κ} {v : ν} (h : m.get? k = some v) :
    k ∈ m.keys :=
  mem_keys_iff.mpr ⟨v, h⟩

theorem keys_insert (m : OrderedMap κ ν) (k : κ) (v : ν) :
    (m.insert k v).keys = (m.keys ++ [k]).eraseDups := by
  by_cases h : k ∈ m.keys
  · rw [eraseDups_append_singleton_of_mem h, eraseDups_keys, insert, dif_pos h]
    exact map_fst_replaced m.entries k v
  · rw [eraseDups_append_singleton_of_not_mem h, eraseDups_keys, insert, dif_neg h]
    exact List.map_append

theorem keys_foldlM {ε α : Type} {f : OrderedMap κ ν → α → Except ε (OrderedMap κ ν)}
    {key : α → Option κ}
    (hstep : ∀ m a m', f m a = .ok m' → m'.keys = (m.keys ++ (key a).toList).eraseDups)
    {l : List α} {m m' : OrderedMap κ ν} (h : l.foldlM f m = .ok m') :
    m'.keys = (m.keys ++ l.filterMap key).eraseDups := by
  induction l generalizing m with
  | nil =>
    obtain rfl := Except.ok.inj h
    simp
  | cons a rest ih =>
    rw [List.foldlM_cons] at h
    cases hm₁ : f m a with
    | error e =>
      rw [hm₁] at h
      cases h
    | ok m₁ =>
      rw [hm₁] at h
      rw [ih h, hstep m a m₁ hm₁, eraseDups_append_eraseDups, List.append_assoc]
      cases hkey : key a <;> simp [hkey]

theorem entries_eq (m : OrderedMap κ ν) :
    m.entries = m.keys.filterMap fun k => (m.get? k).map (k, ·) := by
  rw [keys, List.filterMap_map]
  refine List.filterMap_some.symm.trans (List.filterMap_congr fun e he => ?_)
  simp [(m.mem_entries_iff e.1 e.2).mp he]

theorem ext_get? {m n : OrderedMap κ ν} (hkeys : m.keys = n.keys)
    (hget : ∀ k, m.get? k = n.get? k) : m = n := by
  ext1
  rw [entries_eq m, entries_eq n, hkeys]
  simp only [hget]

-- ---------------------------------------------------------------------------
-- Maps made of a list
-- ---------------------------------------------------------------------------

theorem get?_foldl_insert {entries : List (κ × ν)} {m : OrderedMap κ ν} {k : κ} {v : ν}
    (h : (entries.foldl (fun m (k, v) => m.insert k v) m).get? k = some v) :
    (k, v) ∈ entries ∨ m.get? k = some v := by
  induction entries generalizing m with
  | nil => exact .inr h
  | cons e rest ih =>
    rcases ih h with hrest | h
    · exact .inl (List.mem_cons_of_mem e hrest)
    · by_cases hk : k = e.1
      · subst hk
        rw [get?_insert_self] at h
        obtain rfl := Option.some.inj h
        exact .inl List.mem_cons_self
      · exact .inr ((m.get?_insert_of_ne e.2 hk).symm.trans h)

theorem exists_get?_foldl_insert {entries : List (κ × ν)} {m : OrderedMap κ ν} {k : κ}
    (h : k ∈ entries.map Prod.fst ∨ ∃ v, m.get? k = some v) :
    ∃ v, (entries.foldl (fun m (k, v) => m.insert k v) m).get? k = some v := by
  induction entries generalizing m with
  | nil => exact h.resolve_left List.not_mem_nil
  | cons e rest ih =>
    by_cases hk : k = e.1
    · subst hk
      exact ih (.inr ⟨e.2, m.get?_insert_self e.1 e.2⟩)
    · refine ih (h.imp (fun h => (List.mem_cons.mp h).resolve_left hk) fun ⟨v, h⟩ => ⟨v, ?_⟩)
      exact (m.get?_insert_of_ne e.2 hk).trans h

theorem mem_of_get?_ofList {entries : List (κ × ν)} {k : κ} {v : ν}
    (h : (ofList entries).get? k = some v) : (k, v) ∈ entries :=
  (get?_foldl_insert h).resolve_right (by simp)

theorem exists_get?_ofList {entries : List (κ × ν)} {k : κ} (h : k ∈ entries.map Prod.fst) :
    ∃ v, (ofList entries).get? k = some v :=
  exists_get?_foldl_insert (.inl h)

end OrderedMap

end UniqueAccess
