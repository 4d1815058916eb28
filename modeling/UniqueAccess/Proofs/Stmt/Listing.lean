import UniqueAccess.Proofs.Number.Numeral
import UniqueAccess.Stmt.Listing

/-!
# Statements are listed on one line

Nothing that a listing says of a statement holds a line break: neither digits nor the names of
operators do.
-/

namespace UniqueAccess

def OneLine (text : String) : Prop := '\n' ∉ text.toList

instance (text : String) : Decidable (OneLine text) := inferInstanceAs (Decidable (¬ _))

@[simp] theorem oneLine_append {a b : String} : OneLine (a ++ b) ↔ OneLine a ∧ OneLine b := by
  simp [OneLine]

-- ---------------------------------------------------------------------------
-- Numbers
-- ---------------------------------------------------------------------------

@[simp] theorem oneLine_repr (n : Nat) : OneLine n.repr := by
  intro hmem
  rw [Nat.toList_repr] at hmem
  exact absurd (Nat.isDigit_of_mem_toDigits (by decide) (by decide) hmem) (by decide)

theorem oneLine_intText (i : Int) : OneLine (toString i) := by
  cases i with
  | ofNat n => exact oneLine_repr n
  | negSucc n => exact oneLine_append.mpr ⟨by decide, oneLine_repr (n + 1)⟩

namespace Constant

theorem oneLine_digitText (ds : List Digit) : OneLine (digitText ds) := by
  intro hmem
  rw [digitText, String.toList_ofList] at hmem
  obtain ⟨d, _, hd⟩ := List.mem_map.mp hmem
  exact Digit.toChar_ne (by decide) hd

theorem oneLine_magnitudeText (f : BinaryFormat) (pattern : Nat) :
    OneLine (magnitudeText f pattern) := by
  unfold magnitudeText
  split
  · decide
  · split
    · decide
    · dsimp only
      split
      · exact oneLine_digitText _
      · rw [oneLine_append, oneLine_append]
        exact ⟨⟨oneLine_digitText _, by decide⟩, oneLine_digitText _⟩

theorem oneLine_binaryText (f : BinaryFormat) (x : SignedPattern) : OneLine (binaryText f x) := by
  unfold binaryText
  split
  · decide
  · rw [oneLine_append]
    refine ⟨?_, oneLine_magnitudeText f x.pattern⟩
    split <;> decide

@[simp] theorem oneLine_text (c : Constant) : OneLine c.text := by
  cases c with
  | i32 v => exact oneLine_append.mpr ⟨oneLine_intText _, by decide⟩
  | i64 v => exact oneLine_append.mpr ⟨oneLine_intText _, by decide⟩
  | u32 v => exact oneLine_append.mpr ⟨oneLine_repr _, by decide⟩
  | f32 bits => exact oneLine_append.mpr ⟨oneLine_binaryText _ _, by decide⟩
  | f64 bits => exact oneLine_append.mpr ⟨oneLine_binaryText _ _, by decide⟩

end Constant

-- ---------------------------------------------------------------------------
-- Names
-- ---------------------------------------------------------------------------

@[simp] theorem StmtId.oneLine_text (id : StmtId) : OneLine id.text :=
  oneLine_append.mpr ⟨by decide, oneLine_repr _⟩

@[simp] theorem NodeId.oneLine_text (id : NodeId) : OneLine id.text :=
  oneLine_append.mpr ⟨by decide, oneLine_repr _⟩

@[simp] theorem UnaryOp.oneLine_text (op : UnaryOp) : OneLine op.text := by
  cases op <;> decide

@[simp] theorem BinaryOp.oneLine_text (op : BinaryOp) : OneLine op.text := by
  cases op <;> decide

@[simp] theorem AtomicOp.oneLine_text (op : AtomicOp) : OneLine op.text := by
  cases op <;> decide

@[simp] theorem NodeOp.oneLine_text (op : NodeOp) : OneLine op.text := by
  cases op <;> decide

@[simp] theorem TaskKind.oneLine_text (kind : TaskKind) : OneLine kind.text := by
  cases kind <;> decide

theorem oneLine_commaSeparated {items : List String} (h : ∀ item ∈ items, OneLine item) :
    OneLine (commaSeparated items) := by
  unfold commaSeparated
  induction items with
  | nil => decide
  | cons item rest ih =>
    rw [List.forall_mem_cons] at h
    cases rest with
    | nil => simpa using h.1
    | cons next rest =>
      rw [String.intercalate_cons_cons, oneLine_append, oneLine_append]
      exact ⟨⟨h.1, by decide⟩, ih h.2⟩

-- ---------------------------------------------------------------------------
-- Statements
-- ---------------------------------------------------------------------------

namespace Stmt

theorem oneLine_description (s : Stmt) : OneLine s.description := by
  unfold description
  split <;> simp [oneLine_commaSeparated]
  all_goals simp [OneLine, openBrace]

theorem oneLine_line (s : Stmt) (id : StmtId) : OneLine (s.line id) :=
  oneLine_append.mpr ⟨id.oneLine_text, s.oneLine_description⟩

end Stmt

end UniqueAccess
