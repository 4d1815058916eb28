import UniqueAccess.Proofs.Program.Validity
import UniqueAccess.Proofs.Stmt.Json

/-!
# Programs that are read back

A program is read back from its document, in either layout, exactly if all of its constants are
(`Program.ofTree?_toTree`).
-/

namespace UniqueAccess

open Json (Tree Fields)

-- ---------------------------------------------------------------------------
-- Storage trees
-- ---------------------------------------------------------------------------

theorem ofLabel?_nodeKind (kind : NodeKind) :
    Labelled.ofLabel? (Labelled.label kind) = some kind := by
  cases kind <;> rfl

namespace StorageNode

theorem ofTree?_toTree (n : StorageNode) : ofTree? n.toTree = some n := by
  have hkind := Labelled.ofTree?_toTree (ofLabel?_nodeKind n.kind) Tree.isNull
  have hparent := Tree.nullable?_ofOption nofun NodeId.ofTree?_toTree n.parent
  have hdimensions := Tree.nat?_ofNat n.dimensions.toNat_lt le_rfl
  have hname := Tree.nullable?_ofOption nofun Tree.text?_ofString n.name
  rw [ofTree?, toTree, Json.fields?_ofFields (by simp) (by simp [fieldNames])]
  simp only [Fields.required_cons, Fields.defaulted_cons, String.reduceEq, if_true, if_false,
    Option.bind_eq_bind, Option.bind_some, NodeId.ofTree?_toTree, hkind, hparent, Tree.bool?,
    hdimensions, hname, UInt64.ofNat_toNat]
  rfl

theorem writable_toTree (n : StorageNode) : n.toTree.Writable := by
  rw [toTree, Tree.writable_ofFields]
  simp only [List.forall_mem_cons]
  exact ⟨Tree.writable_ofNat _, Tree.writable_ofString _,
    Tree.writable_ofOption (fun _ => Tree.writable_ofNat _) _, trivial, Tree.writable_ofNat _,
    Tree.writable_ofOption Tree.writable_ofString _, nofun⟩

end StorageNode

namespace StorageTree

theorem ofTree?_toTree (t : StorageTree) : ofTree? t.toTree = some t := by
  have hfields : t.toTree.fields? ["nodes"] = some _ := Json.fields?_ofFields (by simp) (by simp)
  have hnodes : (Tree.ofList StorageNode.toTree t.nodes.toList).list? StorageNode.ofTree? =
      some t.nodes.toList := Tree.list?_ofList.mpr fun n _ => n.ofTree?_toTree
  rw [ofTree?, hfields]
  simp [hnodes]

theorem writable_toTree (t : StorageTree) : t.toTree.Writable := by
  rw [toTree, Tree.writable_ofFields, List.forall_mem_singleton, Tree.writable_ofList]
  exact fun n _ => n.writable_toTree

end StorageTree

-- ---------------------------------------------------------------------------
-- Programs
-- ---------------------------------------------------------------------------

namespace Program

variable {p : Program}

def constants (p : Program) : List Constant := p.stmts.toList.filterMap Stmt.constant?

theorem list?_stmts :
    (Tree.ofList Stmt.toTree p.stmts.toList).list? (Stmt.ofTree? stmtNesting) =
      some p.stmts.toList ↔ ∀ c ∈ p.constants, c.Lasts := by
  simp only [Tree.list?_ofList, Stmt.ofTree?_toTree (show stmtNesting + 2 ≤ _ by decide),
    constants, List.mem_filterMap]
  exact ⟨fun h c ⟨s, hs, hc⟩ => h s hs c hc, fun h s hs c hc => h c ⟨s, hs, hc⟩⟩

theorem ofTree?_eq (p : Program) :
    ofTree? p.toTree =
      ((Tree.ofList Stmt.toTree p.stmts.toList).list? (Stmt.ofTree? stmtNesting)).map
        fun stmts => { p with stmts := stmts.toArray } := by
  have hversion := Tree.nat?_ofNat p.version.toNat_lt (by decide)
  rw [ofTree?, toTree, Json.fields?_ofFields (by simp) (by simp [fieldNames])]
  simp only [Fields.required_cons, Fields.defaulted_cons, String.reduceEq, if_true, if_false,
    Option.bind_eq_bind, Option.bind_some, hversion, StorageTree.ofTree?_toTree,
    Block.ofTree?_toTree, UInt32.ofNat_toNat, Option.pure_def, Option.map_eq_bind,
    Function.comp_def]

theorem ofTree?_toTree : ofTree? p.toTree = some p ↔ ∀ c ∈ p.constants, c.Lasts := by
  rw [← list?_stmts, ofTree?_eq, Option.map_eq_some_iff]
  constructor
  · rintro ⟨stmts, hstmts, h⟩
    have hsame : stmts.toArray = p.stmts := congrArg Program.stmts h
    rw [hstmts, ← hsame]
  · intro h
    exact ⟨_, h, rfl⟩

theorem writable_toTree (p : Program) : p.toTree.Writable := by
  rw [toTree, Tree.writable_ofFields]
  simp only [List.forall_mem_cons]
  exact ⟨Tree.writable_ofNat _, p.storage.writable_toTree,
    Tree.writable_ofList.mpr fun s _ => s.writable_toTree,
    (Block.plain_toTree p.root).writable, nofun⟩

theorem decode?_indented (p : Program) : decode? p.toTree.indented = ofTree? p.toTree := by
  rw [decode?, Tree.ofString?_indented p.writable_toTree, Option.bind_some]

theorem decode?_compact (p : Program) : decode? p.toTree.compact = ofTree? p.toTree := by
  rw [decode?, Tree.ofString?_compact p.writable_toTree, Option.bind_some]

/-- A program whose constants are integers is read back from both layouts. -/
theorem decode?_toTree (h : ∀ c ∈ p.constants, c.asInt?.isSome) :
    decode? p.toTree.indented = some p ∧ decode? p.toTree.compact = some p := by
  have hread : ofTree? p.toTree = some p :=
    ofTree?_toTree.mpr fun c hc => (Constant.moderate_of_asInt? (h c hc)).lasts
  exact ⟨p.decode?_indented.trans hread, p.decode?_compact.trans hread⟩

/-- Every form of statement, extreme integers, and names that have to be escaped. -/
def variedProgram : Program where
  version := 7
  storage := ⟨#[
    { id := ⟨0⟩, kind := .root, name := some "root" },
    { id := ⟨4294967295⟩, kind := .bitStruct, parent := some ⟨9⟩, isBitLevel := true,
      dimensions := 18446744073709551615, name := some "a \"b\" \\ \n \u0001 \u00fc 😀" },
    { id := ⟨2⟩, kind := .place, name := some "" }]⟩
  stmts := #[
    .const (.i32 (-2147483648)), .const (.i64 (-9223372036854775808)), .const (.u32 4294967295),
    .unary .bitNot ⟨0⟩, .binary .floorDiv ⟨0⟩ ⟨77⟩, .loopIndex ⟨14⟩ 18446744073709551615,
    .loopUnique ⟨5⟩, .globalPtr [⟨2⟩, ⟨8⟩] [], .globalLoad ⟨7⟩, .globalStore ⟨7⟩ ⟨8⟩,
    .atomic .bitXor ⟨7⟩ ⟨8⟩, .nodeOp .append ⟨1⟩ ⟨7⟩ (some ⟨8⟩), .nodeOp .isActive ⟨1⟩ ⟨7⟩ none,
    .branch ⟨8⟩ [⟨9⟩] [], .rangeFor ⟨0⟩ ⟨1⟩ [⟨14⟩], .task .structFor (some ⟨1⟩) [⟨5⟩, ⟨6⟩],
    .task .serial none []]
  root := [⟨15⟩, ⟨15⟩, ⟨4294967295⟩]

theorem variedProgram_decoded :
    (∀ c ∈ variedProgram.constants, c.asInt?.isSome) ∧
      decode? variedProgram.toTree.indented = some variedProgram ∧
      decode? variedProgram.toTree.compact = some variedProgram := by
  have hintegers : ∀ c ∈ variedProgram.constants, c.asInt?.isSome := by decide
  exact ⟨hintegers, decode?_toTree hintegers⟩

theorem ofTree?_of_isInfinite {c : Constant} (hc : c ∈ p.constants) (h : c.IsInfinite) :
    ofTree? p.toTree = none := by
  obtain ⟨s, hs, hconstant⟩ := List.mem_filterMap.mp hc
  have hstmts := Tree.list?_ofList_eq_none hs
    (Stmt.ofTree?_of_constant? hconstant (Constant.ofTree?_of_isInfinite h) stmtNesting)
  rw [ofTree?_eq, hstmts, Option.map_none]

theorem load_of_isInfinite {c : Constant} (hc : c ∈ p.constants) (h : c.IsInfinite) :
    load p.toTree.indented = .error .malformed := by
  rw [load, decode?_indented, ofTree?_of_isInfinite hc h]

/-- A program that was loaded is loaded again from its document exactly if its constants last. Those
of moderate size do; an infinite one makes the document malformed. -/
theorem load_indented {text : String} (hload : load text = .ok p) :
    (load p.toTree.indented = .ok p ↔ ∀ c ∈ p.constants, c.Lasts) ∧
      ((∀ c ∈ p.constants, c.Moderate) → load p.toTree.indented = .ok p) ∧
      ((∃ c ∈ p.constants, c.IsInfinite) → load p.toTree.indented = .error .malformed) := by
  obtain ⟨-, hversion, hvalid⟩ := load_eq_ok.mp hload
  have hreload : load p.toTree.indented = .ok p ↔ ∀ c ∈ p.constants, c.Lasts := by
    rw [load_eq_ok, decode?_indented, ofTree?_toTree]
    exact and_iff_left ⟨hversion, hvalid⟩
  exact ⟨hreload, fun h => hreload.mpr fun c hc => (h c hc).lasts,
    fun ⟨_, hc, h⟩ => load_of_isInfinite hc h⟩

def decimalText : String :=
  "[1,[[]],[[\"const\",\x7b\"f32\":0.1\x7d],[\"const\",\x7b\"f64\":-2.5e-3\x7d]," ++
    "[\"const\",\x7b\"i64\":-9223372036854775808\x7d]],[0,1,2]]"

def decimalProgram : Program where
  version := currentVersion
  storage := ⟨#[]⟩
  stmts := #[.const (.f32 0x3dcccccd), .const (.f64 0xbf647ae147ae147b),
    .const (.i64 (-9223372036854775808))]
  root := [⟨0⟩, ⟨1⟩, ⟨2⟩]

theorem decimalProgram_reloaded :
    load decimalText = .ok decimalProgram ∧ (∀ c ∈ decimalProgram.constants, c.Moderate) ∧
      load decimalProgram.toTree.indented = .ok decimalProgram := by
  have hvalid : decimalProgram.isValid :=
    isValid_iff.mpr ⟨by decide, [⟨0⟩, ⟨1⟩, ⟨2⟩], trail?_eq_some.mp (by decide +kernel),
      by decide, by decide⟩
  have hload : load decimalText = .ok decimalProgram :=
    load_eq_ok.mpr ⟨by decide +kernel, rfl, hvalid⟩
  have hmoderate : ∀ c ∈ decimalProgram.constants, c.Moderate := by decide +kernel
  exact ⟨hload, hmoderate, (load_indented hload).2.1 hmoderate⟩

def overflowText : String := "[1,[[]],[[\"const\",\x7b\"f32\":1e39\x7d]],[0]]"

def overflowProgram : Program where
  version := currentVersion
  storage := ⟨#[]⟩
  stmts := #[.const (.f32 0x7f800000)]
  root := [⟨0⟩]

/-- A number past the largest of single precision is loaded as an infinity, which has no text. -/
theorem overflowProgram_malformed :
    load overflowText = .ok overflowProgram ∧
      load overflowProgram.toTree.indented = .error .malformed := by
  have hvalid : overflowProgram.isValid :=
    isValid_iff.mpr ⟨by decide, [⟨0⟩], trail?_eq_some.mp (by decide +kernel), by decide, by decide⟩
  refine ⟨load_eq_ok.mpr ⟨by decide +kernel, rfl, hvalid⟩, ?_⟩
  exact load_of_isInfinite (c := .f32 0x7f800000) (by decide) (by decide)

end Program

end UniqueAccess
