import UniqueAccess.Proofs.Json.Float
import UniqueAccess.Proofs.Json.Record
import UniqueAccess.Stmt.Constant

/-!
# Constants that are read back

Integers are read back. Binary numbers are if they are finite and have few digits, or in single
precision a moderate size (`Moderate.lasts`); infinities and NaNs are not read at all.
-/

namespace UniqueAccess

open Json (Tree Fields)

namespace SignedPattern

theorem toBits_ofBits {f : BinaryFormat} {bits : Nat} (h : bits < 2 * f.signBit) :
    (ofBits f bits).toBits f = bits := by
  rw [ofBits, toBits]
  dsimp only
  split
  · next hle =>
    rw [decide_eq_true_eq] at hle
    rw [Nat.mod_eq_sub_mod hle, Nat.mod_eq_of_lt (by omega), Nat.add_sub_cancel' hle]
  · next hlt =>
    rw [decide_eq_true_eq, Nat.not_le] at hlt
    exact Nat.mod_eq_of_lt hlt

end SignedPattern

namespace Constant

variable {c : Constant}

-- ---------------------------------------------------------------------------
-- Documents
-- ---------------------------------------------------------------------------

def typed : Constant → String × Tree
  | i32 v => ("i32", .ofInt v.toInt)
  | i64 v => ("i64", .ofInt v.toInt)
  | u32 v => ("u32", .ofNat v.toNat)
  | f32 bits => ("f32", .ofBinary .single (.ofBits .single bits.toNat))
  | f64 bits => ("f64", .ofBinary .double (.ofBits .double bits.toNat))

theorem toTree_eq (c : Constant) : c.toTree = .ofFields [c.typed] := by cases c <;> rfl

theorem writable_toTree (c : Constant) : c.toTree.Writable := by
  rw [toTree_eq, Tree.writable_ofFields, List.forall_mem_singleton]
  cases c with
  | i32 v => exact Tree.writable_ofInt _
  | i64 v => exact Tree.writable_ofInt _
  | u32 v => exact Tree.writable_ofNat _
  | f32 bits => exact Tree.writable_ofBinary ..
  | f64 bits => exact Tree.writable_ofBinary ..

theorem depth_toTree_le (c : Constant) : c.toTree.depth ≤ 1 := by
  have hbinary (f : BinaryFormat) (x : SignedPattern) : (Tree.ofBinary f x).depth ≤ 0 := by
    rw [Tree.ofBinary]
    split
    · exact le_rfl
    · split <;> exact le_rfl
  rw [toTree_eq]
  refine Tree.depth_ofFields_le (d := 0) (List.forall_mem_singleton.mpr ?_)
  cases c with
  | i32 v => exact le_rfl
  | i64 v => exact le_rfl
  | u32 v => exact le_rfl
  | f32 bits => exact hbinary ..
  | f64 bits => exact hbinary ..

-- ---------------------------------------------------------------------------
-- Reading
-- ---------------------------------------------------------------------------

def Lasts (c : Constant) : Prop := ofTree? c.toTree = some c

theorem lasts_iff : c.Lasts ↔ ofTyped? c.typed.1 c.typed.2 = some c := by
  rw [Lasts, toTree_eq]
  rfl

theorem isMeaningful_of_ofTyped? {type : String} {t : Tree} (h : ofTyped? type t = some c) :
    t.isMeaningful := by
  have hinteger {n : Numeral} {i : Int} (hn : n.integer? = some i) : n.double?.isSome := by
    rw [Numeral.double?, hn]
    rfl
  have hint {low high i : Int} (hi : t.int? low high = some i) : t.isMeaningful := by
    cases t with
    | number n =>
      obtain ⟨i, hi, -⟩ := Option.bind_eq_some_iff.mp hi
      exact hinteger hi
    | _ => cases hi
  unfold ofTyped? at h
  split at h
  · obtain ⟨i, hi, -⟩ := Option.map_eq_some_iff.mp h
    exact hint hi
  · obtain ⟨i, hi, -⟩ := Option.map_eq_some_iff.mp h
    exact hint hi
  · obtain ⟨k, hk, -⟩ := Option.map_eq_some_iff.mp h
    cases t with
    | number n =>
      obtain ⟨i, hi, -⟩ := Option.bind_eq_some_iff.mp hk
      exact hinteger hi
    | _ => cases hk
  · cases t with
    | number n =>
      obtain ⟨x, hx, -⟩ := Option.map_eq_some_iff.mp h
      rw [Numeral.single?] at hx
      cases hi : n.integer? with
      | some i => exact hinteger hi
      | none =>
        rw [hi] at hx
        obtain ⟨y, hy, -⟩ := Option.map_eq_some_iff.mp hx
        simp [Tree.isMeaningful, Numeral.double?, hi, hy]
    | _ => cases h
  · cases t with
    | number n =>
      obtain ⟨x, hx, -⟩ := Option.map_eq_some_iff.mp h
      simp [Tree.isMeaningful, hx]
    | _ => cases h
  · cases h

theorem Lasts.isMeaningful (h : c.Lasts) : c.toTree.isMeaningful := by
  rw [toTree_eq, Tree.isMeaningful_ofFields, List.forall_mem_singleton]
  exact isMeaningful_of_ofTyped? (lasts_iff.mp h)

def IsInfinite : Constant → Prop
  | f32 bits => BinaryFormat.single.infinity ≤ (SignedPattern.ofBits .single bits.toNat).pattern
  | f64 bits => BinaryFormat.double.infinity ≤ (SignedPattern.ofBits .double bits.toNat).pattern
  | _ => False

/-- Whether a constant is zero, or an integer, or a double whose digits make a short numeral, or in
single precision from `2 ^ (-13)` up to but without `2 ^ 53`. -/
def Moderate : Constant → Prop
  | f32 bits =>
    let magnitude := (SignedPattern.ofBits .single bits.toNat).pattern
    magnitude = 0 ∨
      2 ^ (BinaryFormat.single.scale - 13) ≤ BinaryFormat.single.quanta magnitude ∧
        BinaryFormat.single.quanta magnitude < 2 ^ (BinaryFormat.single.scale + 53)
  | f64 bits =>
    let x := SignedPattern.ofBits .double bits.toNat
    x.pattern = 0 ∨ x.pattern < BinaryFormat.double.infinity ∧
      (Json.numeralOfDecimal .double x.negative
        (BinaryFormat.double.shortest .even x.pattern)).Short
  | _ => True

instance (c : Constant) : Decidable c.IsInfinite :=
  match c with
  | i32 _ | i64 _ | u32 _ => .isFalse id
  | f32 _ => inferInstanceAs (Decidable (_ ≤ _))
  | f64 _ => inferInstanceAs (Decidable (_ ≤ _))

instance (c : Constant) : Decidable c.Moderate :=
  match c with
  | i32 _ | i64 _ | u32 _ => .isTrue trivial
  | f32 _ => inferInstanceAs (Decidable (_ ∨ _ ∧ _))
  | f64 _ => inferInstanceAs (Decidable (_ ∨ _ ∧ _))

theorem lasts_i32 (v : Int32) : (i32 v).Lasts := by
  have hread := Tree.int?_ofInt v.minValue_le_toInt v.toInt_le (by decide) (by decide)
  simp only [lasts_iff, typed, ofTyped?, hread, Option.map_some, Int32.ofInt_toInt]

theorem lasts_i64 (v : Int64) : (i64 v).Lasts := by
  have hread := Tree.int?_ofInt v.minValue_le_toInt v.toInt_le le_rfl (by decide)
  simp only [lasts_iff, typed, ofTyped?, hread, Option.map_some, Int64.ofInt_toInt]

theorem lasts_u32 (v : UInt32) : (u32 v).Lasts := by
  have hread := Tree.nat?_ofNat v.toNat_lt (by decide)
  simp only [lasts_iff, typed, ofTyped?, hread, Option.map_some, UInt32.ofNat_toNat]

theorem lasts_f32 (bits : UInt32) {n : Numeral}
    (htree : Tree.ofBinary .single (.ofBits .single bits.toNat) = .number n)
    (hread : n.single? = some (.ofBits .single bits.toNat)) : (f32 bits).Lasts := by
  have hbits : bits.toNat < 2 * BinaryFormat.single.signBit := bits.toNat_lt
  simp only [lasts_iff, typed, ofTyped?, htree, single?, hread, Option.map_some,
    SignedPattern.toBits_ofBits hbits, UInt32.ofNat_toNat]

theorem lasts_f64 (bits : UInt64) {n : Numeral}
    (htree : Tree.ofBinary .double (.ofBits .double bits.toNat) = .number n)
    (hread : n.double? = some (.ofBits .double bits.toNat)) : (f64 bits).Lasts := by
  have hbits : bits.toNat < 2 * BinaryFormat.double.signBit := bits.toNat_lt
  simp only [lasts_iff, typed, ofTyped?, htree, double?, hread, Option.map_some,
    SignedPattern.toBits_ofBits hbits, UInt64.ofNat_toNat]

theorem Moderate.lasts (h : c.Moderate) : c.Lasts := by
  cases c with
  | i32 v => exact lasts_i32 v
  | i64 v => exact lasts_i64 v
  | u32 v => exact lasts_u32 v
  | f32 bits =>
    rcases h with hzero | ⟨hlow, hhigh⟩
    · refine lasts_f32 bits (Tree.ofBinary_zero (by decide) hzero) ?_
      rw [Json.single?_zero, ← hzero]
    · obtain ⟨hpos, hfinite⟩ := Json.pos_and_lt_infinity hlow hhigh
      exact lasts_f32 bits (Tree.ofBinary_finite hpos hfinite) (Json.single?_shortest hlow hhigh)
  | f64 bits =>
    rcases Nat.eq_zero_or_pos (SignedPattern.ofBits .double bits.toNat).pattern with hzero | hpos
    · refine lasts_f64 bits (Tree.ofBinary_zero (by decide) hzero) ?_
      rw [Json.double?_zero, ← hzero]
    · obtain ⟨hfinite, hshort⟩ := h.resolve_left hpos.ne'
      exact lasts_f64 bits (Tree.ofBinary_finite hpos hfinite)
        (Json.double?_shortest hpos hfinite hshort)

theorem moderate_of_asInt? (h : c.asInt?.isSome) : c.Moderate := by
  cases c with
  | i32 | i64 | u32 => trivial
  | f32 | f64 => cases h

theorem ofTree?_of_isInfinite (h : c.IsInfinite) : ofTree? c.toTree = none := by
  cases c with
  | i32 | i64 | u32 => cases h
  | f32 bits =>
    have hnull : Tree.ofBinary .single (.ofBits .single bits.toNat) = .null := if_pos h
    rw [toTree, hnull]
    rfl
  | f64 bits =>
    have hnull : Tree.ofBinary .double (.ofBits .double bits.toNat) = .null := if_pos h
    rw [toTree, hnull]
    rfl

end Constant

end UniqueAccess
