import UniqueAccess.Json.Record
import UniqueAccess.Proofs.Json.Text

/-!
# Records that are read back

What is written as a record, a list, a number, a label or a value that may be absent is decoded to
what it was made of. A list is read back exactly if each of its items is.
-/

namespace UniqueAccess

namespace Json

variable {α : Type} {fields : List (String × Tree)} {names : List String} {encode : α → Tree}
  {decode : Tree → Option α}

-- ---------------------------------------------------------------------------
-- Records
-- ---------------------------------------------------------------------------

@[simp]
theorem Fields.required_cons {name other : String} {value : Tree} :
    Fields.required ((other, value) :: fields) name decode =
      if name = other then decode value else Fields.required fields name decode := by
  by_cases h : name = other
  · simp [Fields.required, h]
  · simp [Fields.required, List.lookup_cons, beq_false_of_ne h, h]

@[simp]
theorem Fields.defaulted_cons {name other : String} {value : Tree} {default : α} :
    Fields.defaulted ((other, value) :: fields) name default decode =
      if name = other then decode value else Fields.defaulted fields name default decode := by
  by_cases h : name = other
  · simp [Fields.defaulted, h]
  · simp [Fields.defaulted, List.lookup_cons, beq_false_of_ne h, h]

theorem ofMembers?_eq (hnodup : (fields.map Prod.fst).Nodup)
    (hknown : ∀ name ∈ fields.map Prod.fst, name ∈ names) :
    Fields.ofMembers? names (fields.map fun (name, value) => (some name, value)) = some fields := by
  induction fields with
  | nil => rfl
  | cons field fields ih =>
    obtain ⟨name, value⟩ := field
    obtain ⟨hnew, hnodup⟩ := List.nodup_cons.mp hnodup
    obtain ⟨hname, hknown⟩ := List.forall_mem_cons.mp hknown
    have hlookup : fields.lookup name = none := by
      rw [List.lookup_eq_none_iff]
      intro field hfield
      have hne : name ≠ field.1 := by
        rintro rfl
        exact hnew (List.mem_map.mpr ⟨field, hfield, rfl⟩)
      simpa using hne
    simp [Fields.ofMembers?, ih hnodup hknown, hname, hlookup]

theorem fields?_ofFields (hnodup : (fields.map Prod.fst).Nodup)
    (hknown : ∀ name ∈ fields.map Prod.fst, name ∈ names) :
    (Tree.ofFields fields).fields? names = some fields :=
  ofMembers?_eq hnodup hknown

-- ---------------------------------------------------------------------------
-- Values
-- ---------------------------------------------------------------------------

namespace Tree

theorem nat?_ofNat {bound n : Nat} (h : n < bound) (hbound : bound ≤ UInt64.size) :
    (ofNat n).nat? bound = some n := by
  have hfits : n ≤ Numeral.maxSignificand := Nat.le_sub_one_of_lt (Nat.lt_of_lt_of_le h hbound)
  simp [ofNat, nat?, Numeral.integer?_ofNat hfits, h]

theorem int?_ofInt {low high i : Int} (hlow : low ≤ i) (hhigh : i ≤ high)
    (hmin : Int64.minValue.toInt ≤ low) (hmax : high ≤ Numeral.maxSignificand) :
    (ofInt i).int? low high = some i := by
  have hread := Numeral.integer?_ofInt (Int.le_trans hmin hlow) (Int.le_trans hhigh hmax)
  simp [ofInt, int?, hread, hlow, hhigh]

theorem text?_ofString (s : String) : (ofString s).text? = some s := rfl

theorem list?_ofList {items : List α} :
    (ofList encode items).list? decode = some items ↔ ∀ a ∈ items, decode (encode a) = some a := by
  rw [ofList, list?]
  induction items with
  | nil => simp
  | cons a items ih =>
    rw [List.map_cons, List.mapM_cons, List.forall_mem_cons, ← ih]
    simp [Option.bind_eq_some_iff]

theorem list?_ofList_eq_none {items : List α} {a : α} (ha : a ∈ items)
    (h : decode (encode a) = none) : (ofList encode items).list? decode = none := by
  rw [ofList, list?]
  induction items with
  | nil => cases ha
  | cons b items ih =>
    rw [List.map_cons, List.mapM_cons]
    rcases List.mem_cons.mp ha with rfl | ha
    · simp [h]
    · simp [ih ha]

theorem nullable?_ofOption (hencode : ∀ a, encode a ≠ .null) (h : ∀ a, decode (encode a) = some a)
    (o : Option α) : nullable? decode (ofOption encode o) = some o := by
  cases o with
  | none => rfl
  | some a =>
    have hnull := hencode a
    rw [ofOption, nullable?]
    · simp [h]
    · exact hnull

-- ---------------------------------------------------------------------------
-- Texts and depths
-- ---------------------------------------------------------------------------

theorem writable_ofNat (n : Nat) : (ofNat n).Writable := Numeral.proper_ofNat n

theorem writable_ofInt (i : Int) : (ofInt i).Writable := Numeral.proper_ofInt i

theorem writable_ofString (s : String) : (ofString s).Writable := nofun

theorem writable_ofList {items : List α} :
    (ofList encode items).Writable ↔ ∀ a ∈ items, (encode a).Writable := by
  rw [ofList, Writable, itemsWritable_iff, List.forall_mem_map]

theorem writable_ofOption (h : ∀ a, (encode a).Writable) (o : Option α) :
    (ofOption encode o).Writable := by
  cases o with
  | none => trivial
  | some a => exact h a

theorem writable_ofFields : (ofFields fields).Writable ↔ ∀ field ∈ fields, field.2.Writable := by
  rw [ofFields, Writable]
  induction fields with
  | nil => simp [MembersWritable]
  | cons field fields ih => simp [MembersWritable, ih]

theorem isMeaningful_ofFields :
    (ofFields fields).isMeaningful ↔ ∀ field ∈ fields, field.2.isMeaningful := by
  rw [ofFields, isMeaningful]
  induction fields with
  | nil => simp [membersMeaningful]
  | cons field fields ih => simp [membersMeaningful, ih]

theorem depth_ofFields_le {d : Nat} (h : ∀ field ∈ fields, field.2.depth ≤ d) :
    (ofFields fields).depth ≤ d + 1 := by
  rw [ofFields, depth]
  refine Nat.succ_le_succ ?_
  induction fields with
  | nil => simp [depthMembers]
  | cons field fields ih =>
    obtain ⟨hfield, hfields⟩ := List.forall_mem_cons.mp h
    exact Nat.max_le.mpr ⟨hfield, ih hfields⟩

theorem isMeaningful_ofNat {n : Nat} (h : n ≤ Numeral.maxSignificand) : (ofNat n).isMeaningful := by
  simp [ofNat, isMeaningful, Numeral.double?, Numeral.integer?_ofNat h]

structure Plain (t : Tree) : Prop where
  writable : t.Writable
  meaningful : t.isMeaningful
  shallow : t.depth ≤ 1

theorem plain_ofString (s : String) : (ofString s).Plain :=
  ⟨writable_ofString s, rfl, by simp [ofString, depth]⟩

theorem plain_ofNat {n : Nat} (h : n ≤ Numeral.maxSignificand) : (ofNat n).Plain :=
  ⟨writable_ofNat n, isMeaningful_ofNat h, by simp [ofNat, depth]⟩

theorem plain_ofOption (h : ∀ a, (encode a).Plain) (o : Option α) : (ofOption encode o).Plain := by
  cases o with
  | none => exact ⟨trivial, rfl, by simp [ofOption, depth]⟩
  | some a => exact h a

theorem plain_ofList {number : α → Nat} (h : ∀ a, number a ≤ Numeral.maxSignificand)
    (items : List α) : (ofList (fun a => ofNat (number a)) items).Plain where
  writable := writable_ofList.mpr fun a _ => writable_ofNat _
  meaningful := by
    rw [ofList, isMeaningful]
    induction items with
    | nil => rfl
    | cons a items ih => simp [itemsMeaningful, isMeaningful_ofNat (h a), ih]
  shallow := by
    rw [ofList, depth]
    refine Nat.succ_le_succ (Nat.le_of_eq ?_)
    induction items with
    | nil => rfl
    | cons a items ih => simpa [depthItems, ofNat, depth] using ih

end Tree

end Json

-- ---------------------------------------------------------------------------
-- Labels and names
-- ---------------------------------------------------------------------------

namespace Labelled

variable {α : Type} [Labelled α]

theorem ofTree?_toTree {a : α} (h : ofLabel? (label a) = some a) (isUnit : Json.Tree → Bool) :
    ofTree? isUnit (toTree a) = some a := h

end Labelled

end UniqueAccess
