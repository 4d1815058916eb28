import UniqueAccess.Access.Alias
import UniqueAccess.Proofs.Access.Valuation

/-!
# What the structural oracle says is so

Where it says that two statements have the same value, they have it in every valuation; where it
says that two pointers hold the same address, their indices have the same values in every instance.
-/

namespace UniqueAccess

variable {p : Program} {ν : Type} {ops : Operators ν} {value : StmtId → ν}

theorem bothHold_eq_true {a : Option Bool} {b : Unit → Option Bool} :
    bothHold a b = some true ↔ a = some true ∧ b () = some true := by
  rcases a with _ | _ | _ <;> simp [bothHold]

theorem eitherHolds_eq_true {a : Option Bool} {b : Unit → Option Bool} :
    eitherHolds a b = some true ↔ a = some true ∨ (a = some false ∧ b () = some true) := by
  rcases a with _ | _ | _ <;> simp [eitherHolds]

namespace Program

-- ---------------------------------------------------------------------------
-- Values
-- ---------------------------------------------------------------------------

theorem sameForm?_sound (hc : Congruent p ops value) {same : StmtId → StmtId → Option Bool}
    (hsame : ∀ x y, same x y = some true → value x = value y) {a b : StmtId} {s t : Stmt}
    (ha : p.stmt? a = some s) (hb : p.stmt? b = some t) (h : sameForm? same s t = some true) :
    value a = value b := by
  unfold sameForm? at h
  split at h
  · exact hc.const ha hb (Option.some.inj h)
  · next op x op' x' =>
    split at h
    · next hop =>
      subst hop
      rw [hc.unary ha, hc.unary hb, hsame x x' h]
    · cases h
  · next op l r op' l' r' =>
    split at h
    · next hop =>
      subst hop
      rw [hc.binary ha, hc.binary hb]
      rcases eitherHolds_eq_true.mp h with h | ⟨_, h⟩
      · obtain ⟨hl, hr⟩ := bothHold_eq_true.mp h
        rw [hsame l l' hl, hsame r r' hr]
      · split at h
        · next hcomm =>
          obtain ⟨hl, hr⟩ := bothHold_eq_true.mp h
          rw [hsame l r' hl, hsame r l' hr, hc.symmetric op hcomm]
        · cases h
    · cases h
  · next owner k owner' k' =>
    simp only [Option.some.injEq, Bool.and_eq_true, beq_iff_eq] at h
    obtain ⟨rfl, rfl⟩ := h
    exact hc.loopIndex ha hb
  · next x x' => rw [hc.loopUnique ha, hc.loopUnique hb, hsame x x' h]
  · cases h

theorem sameValueWithin?_sound (hc : Congruent p ops value) {n : Nat} {a b : StmtId}
    (h : p.sameValueWithin? n a b = some true) : value a = value b := by
  induction n generalizing a b with
  | zero => cases h
  | succ n ih =>
    rw [sameValueWithin?, compare?] at h
    split at h
    · next hab => rw [hab]
    · split at h
      · next hs ht => exact sameForm?_sound hc (fun _ _ => ih) hs ht h
      · cases h

theorem sameValue_sound (hc : Congruent p ops value) {a b : StmtId} (h : p.sameValue a b) :
    value a = value b := by
  unfold sameValue at h
  cases hvalue : p.sameValue? a b with
  | none => simp [hvalue] at h
  | some answer =>
    obtain rfl : answer = true := by simpa [hvalue] using h
    exact sameValueWithin?_sound hc hvalue

theorem map_value_eq (hc : Congruent p ops value) {l l' : List StmtId}
    (hlen : l.length = l'.length) (h : allSame p.sameValue l l') : l.map value = l'.map value := by
  induction l generalizing l' with
  | nil => rw [List.length_eq_zero_iff.mp hlen.symm]
  | cons i rest ih =>
    cases l' with
    | nil => cases hlen
    | cons j rest' =>
      simp only [allSame, List.zip_cons_cons, List.all_cons, Bool.and_eq_true] at h
      rw [List.map_cons, List.map_cons, sameValue_sound hc h.1, ih (Nat.succ.inj hlen) h.2]

-- ---------------------------------------------------------------------------
-- Addresses
-- ---------------------------------------------------------------------------

theorem aliasIndices_eq_same {same : StmtId → StmtId → Bool} {l l' : List StmtId}
    (h : p.aliasIndices same l l' = .same) :
    l.length = l'.length ∧ allSame same l l' := by
  unfold aliasIndices at h
  split at h
  · cases h
  · next hlen =>
    split at h
    · cases h
    · split at h
      · next hall => exact ⟨not_not.mp hlen, hall⟩
      · cases h

theorem aliasPointers_eq_same {same : StmtId → StmtId → Bool} {candidates candidates' : List NodeId}
    {l l' : List StmtId} (h : p.aliasPointers same candidates candidates' l l' = .same) :
    p.aliasIndices same l l' = .same := by
  unfold aliasPointers at h
  split at h
  · split at h
    · exact h
    · cases h
  · split at h <;> cases h

theorem sameAddress_sound (hc : Congruent p ops value) {a b : StmtId}
    {candidates candidates' : List NodeId} {l l' : List StmtId}
    (ha : p.stmt? a = some (.globalPtr candidates l))
    (hb : p.stmt? b = some (.globalPtr candidates' l')) (h : p.structuralOracle.sameAddress a b) :
    l.map value = l'.map value := by
  have hsame : p.aliasAnswerBy p.sameValue a b = .same := beq_iff_eq.mp h
  unfold aliasAnswerBy at hsame
  split at hsame
  · next hab =>
    subst hab
    obtain ⟨_, rfl⟩ := Stmt.globalPtr.inj (Option.some.inj (ha.symm.trans hb))
    rfl
  · simp only [ha, hb] at hsame
    obtain ⟨hlen, hall⟩ := aliasIndices_eq_same (aliasPointers_eq_same hsame)
    exact map_value_eq hc hlen hall

end Program

end UniqueAccess
