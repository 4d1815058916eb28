import UniqueAccess.Proofs.Access.Packed
import UniqueAccess.Proofs.Storage.BitLevel

/-!
# Fields below bit-structs

Fields are folded by their flags, and loading takes the flags of a tree as they are written. Where
they say what is above each node, every accessed field below a bit-struct takes part in the entry of
the outermost bit-struct above it, and nothing else has an entry. A field whose flag is missing is
left out, and its bit-struct may then pass for uniquely accessed.
-/

namespace UniqueAccess.Program

open Relation (TransGen)

variable {p : Program} {o : AliasOracle} {task : StmtId}

theorem storage_wellFormed (hp : p.isValid) : p.storage.WellFormed :=
  StorageTree.flaws_eq_nil.mp (isValid_iff.mp hp).1

theorem exists_isPackedInto (hstorage : p.storage.WellFormed) (hflags : p.storage.FlagsExact)
    {field : NodeId} (hbelow : p.storage.BelowBitStruct field) :
    ∃ container, p.IsPackedInto field container ∧ p.storage.IsBitStruct container ∧
      TransGen p.storage.HasParent field container ∧ ¬ p.storage.BelowBitStruct container := by
  obtain ⟨container, hcontainer, hstruct, hreach, houter⟩ :=
    hflags.exists_container hstorage.acyclic hbelow
  obtain ⟨_, hparent, _⟩ := StorageTree.belowBitStruct_iff.mp hbelow
  obtain ⟨n, hn, _⟩ := StorageTree.hasParent_iff.mp hparent
  have hlevel := isBitLevel_iff.mpr ⟨n, hn, (hflags field n hn).mpr hbelow⟩
  exact ⟨container, ⟨hlevel, hcontainer⟩, hstruct, hreach, houter⟩

theorem isBitStruct_of_isPackedInto (hstorage : p.storage.WellFormed)
    (hflags : p.storage.FlagsExact) {field container : NodeId}
    (h : p.IsPackedInto field container) : p.storage.IsBitStruct container := by
  obtain ⟨n, hn, hflag⟩ := isBitLevel_iff.mp h.1
  obtain ⟨container', hpacked, hstruct, _⟩ :=
    exists_isPackedInto hstorage hflags ((hflags field n hn).mp hflag)
  obtain rfl : container' = container := Option.some.inj (hpacked.2.symm.trans h.2)
  exact hstruct

theorem PackedReflects.exists_isPackedInto {c : AccessMap} {fields : List (NodeId × Option StmtId)}
    (hc : p.PackedReflects o c fields) {container : NodeId} {entry : Option StmtId}
    (h : c.get? container = some entry) : ∃ field, p.IsPackedInto field container := by
  obtain ⟨_, hmem⟩ := exists_entryOf_iff.mp ⟨entry, (hc container).symm.trans h⟩
  obtain ⟨field, _, hpacked⟩ := mem_fieldsOf.mp hmem
  exact ⟨field, hpacked⟩

/-- In a loaded program flags say what is above each node exactly if every flag fits the parent of
its node. If so, the entries of a task's containers are made of all accessed fields below them, and
the containers are bit-structs. -/
theorem fields_folded {text : String} (h : load text = .ok p) :
    (p.storage.FlagsExact ↔ p.storage.FlagsInherited) ∧
      (p.storage.FlagsExact → ∀ o task c, p.packedContainers o task = .ok c →
        (∀ container entry, c.get? container = some entry → p.storage.IsBitStruct container) ∧
        ∃ m, p.uniquePointers o task = .ok m ∧
          ∀ field entry, m.get? field = some entry → p.storage.BelowBitStruct field →
            ∃ container, p.storage.IsBitStruct container ∧
              TransGen p.storage.HasParent field container ∧
              ¬ p.storage.BelowBitStruct container ∧
              entry ∈ p.fieldsOf container m.entries ∧
              c.get? container =
                entryOf (fun e => e) (p.agreesWith o) (p.fieldsOf container m.entries)) := by
  obtain ⟨_, _, hp⟩ := load_eq_ok.mp h
  have hstorage := storage_wellFormed hp
  refine ⟨(StorageTree.flagsInherited_iff hstorage.acyclic).symm, fun hflags o task c hc => ?_⟩
  obtain ⟨m, hm, hreflects⟩ := packedContainers_eq_ok hc
  constructor
  · intro container entry hentry
    obtain ⟨field, hpacked⟩ := hreflects.exists_isPackedInto hentry
    exact isBitStruct_of_isPackedInto hstorage hflags hpacked
  · refine ⟨m, hm, fun field entry hentry hbelow => ?_⟩
    obtain ⟨container, hpacked, hstruct, hreach, houter⟩ :=
      exists_isPackedInto hstorage hflags hbelow
    have hmem : entry ∈ p.fieldsOf container m.entries :=
      mem_fieldsOf.mpr ⟨field, (m.mem_entries_iff field entry).mpr hentry, hpacked⟩
    exact ⟨container, hstruct, hreach, houter, hmem, hreflects container⟩

/-- A task over a range with pointers to two fields of a bit-struct, one of them a level deeper. -/
def wordProgram : Program where
  version := currentVersion
  storage := ⟨#[
    { id := ⟨0⟩, kind := .root },
    { id := ⟨1⟩, kind := .bitStruct, parent := some ⟨0⟩ },
    { id := ⟨2⟩, kind := .dense, parent := some ⟨1⟩, isBitLevel := true },
    { id := ⟨3⟩, kind := .place, parent := some ⟨2⟩, isBitLevel := true },
    { id := ⟨4⟩, kind := .place, parent := some ⟨1⟩, isBitLevel := true }]⟩
  stmts := #[
    .task .rangeFor none [⟨1⟩, ⟨2⟩, ⟨3⟩],
    .loopIndex ⟨0⟩ 0,
    .globalPtr [⟨3⟩] [⟨1⟩],
    .globalPtr [⟨4⟩] [⟨1⟩]]
  root := [⟨0⟩]

def wordText : String :=
  "[1,[[[0,\"root\"],[1,\"bit_struct\",0],[2,\"dense\",1,true],[3,\"place\",2,true]," ++
    "[4,\"place\",1,true]]],[[\"offloaded\",\"range_for\",null,[1,2,3]],[\"loop_index\",0,0]," ++
    "[\"global_ptr\",[3],[1]],[\"global_ptr\",[4],[1]]],[0]]"

theorem wordProgram_flagsInherited : wordProgram.storage.FlagsInherited := by
  have hall : ∀ node ∈ wordProgram.storage.nodes.toList,
      node.isBitLevel = node.parent.any wordProgram.storage.makesBitLevel := by decide
  intro id node hnode
  have hmem := Array.mem_toList_iff.mpr (Array.mem_of_getElem? hnode)
  rw [hall node hmem, Option.any_eq_true]

theorem wordFields_folded :
    load wordText = .ok wordProgram ∧ wordProgram.storage.FlagsExact ∧
      wordProgram.packedContainers wordProgram.structuralOracle ⟨0⟩ =
        .ok (.ofList [(⟨1⟩, some ⟨2⟩)]) ∧
      ∃ container, wordProgram.storage.IsBitStruct container ∧
        TransGen wordProgram.storage.HasParent ⟨3⟩ container := by
  have hvalid : wordProgram.isValid :=
    isValid_iff.mpr ⟨by decide, [⟨0⟩, ⟨1⟩, ⟨2⟩, ⟨3⟩], trail?_eq_some.mp (by decide +kernel),
      by decide, by decide⟩
  have hload : load wordText = .ok wordProgram :=
    load_eq_ok.mpr ⟨by decide +kernel, rfl, hvalid⟩
  have hpointers : wordProgram.uniquePointers wordProgram.structuralOracle ⟨0⟩ =
      .ok (.ofList [(⟨3⟩, some ⟨2⟩), (⟨4⟩, some ⟨3⟩)]) := by decide +kernel
  have hpacked : wordProgram.packedContainers wordProgram.structuralOracle ⟨0⟩ =
      .ok (.ofList [(⟨1⟩, some ⟨2⟩)]) := by decide +kernel
  obtain ⟨hiff, hfolded⟩ := fields_folded hload
  have hflags := hiff.mpr wordProgram_flagsInherited
  obtain ⟨_, m, hm, hfields⟩ := hfolded hflags _ _ _ hpacked
  obtain rfl := Except.ok.inj (hpointers.symm.trans hm)
  have hbelow : wordProgram.storage.BelowBitStruct ⟨3⟩ :=
    ⟨⟨1⟩, .tail (.single rfl) rfl, _, rfl, rfl⟩
  obtain ⟨container, hstruct, hreach, _⟩ := hfields ⟨3⟩ (some ⟨2⟩) rfl hbelow
  exact ⟨hload, hflags, hpacked, container, hstruct, hreach⟩

/-- A task over a range with pointers to two fields of a bit-struct, at `i` and at `i - i`. The
second field has no flag. -/
def gapProgram : Program where
  version := currentVersion
  storage := ⟨#[
    { id := ⟨0⟩, kind := .root },
    { id := ⟨1⟩, kind := .bitStruct, parent := some ⟨0⟩ },
    { id := ⟨2⟩, kind := .place, parent := some ⟨1⟩, isBitLevel := true },
    { id := ⟨3⟩, kind := .place, parent := some ⟨1⟩ }]⟩
  stmts := #[
    .task .rangeFor none [⟨1⟩, ⟨2⟩, ⟨3⟩, ⟨4⟩],
    .loopIndex ⟨0⟩ 0,
    .binary .sub ⟨1⟩ ⟨1⟩,
    .globalPtr [⟨2⟩] [⟨1⟩],
    .globalPtr [⟨3⟩] [⟨2⟩]]
  root := [⟨0⟩]

def gapText : String :=
  "[1,[[[0,\"root\"],[1,\"bit_struct\",0],[2,\"place\",1,true],[3,\"place\",1]]]," ++
    "[[\"offloaded\",\"range_for\",null,[1,2,3,4]],[\"loop_index\",0,0]," ++
    "[\"binary_op\",\"sub\",1,1],[\"global_ptr\",[2],[1]],[\"global_ptr\",[3],[2]]],[0]]"

/-- All iterations meet in the second field, but the bit-struct has a representative. -/
theorem gapField_leftOut :
    load gapText = .ok gapProgram ∧ ⟨0⟩ ∈ gapProgram.parallelTasks ∧
      gapProgram.storage.BelowBitStruct ⟨3⟩ ∧ ¬ gapProgram.storage.isBitLevel ⟨3⟩ ∧
      gapProgram.uniquePointers gapProgram.structuralOracle ⟨0⟩ =
        .ok (.ofList [(⟨2⟩, some ⟨3⟩), (⟨3⟩, none)]) ∧
      gapProgram.packedContainers gapProgram.structuralOracle ⟨0⟩ =
        .ok (.ofList [(⟨1⟩, some ⟨3⟩)]) := by
  have hvalid : gapProgram.isValid :=
    isValid_iff.mpr ⟨by decide, [⟨0⟩, ⟨1⟩, ⟨2⟩, ⟨3⟩, ⟨4⟩], trail?_eq_some.mp (by decide +kernel),
      by decide, by decide⟩
  exact ⟨load_eq_ok.mpr ⟨by decide +kernel, rfl, hvalid⟩, by decide +kernel,
    ⟨⟨1⟩, .single rfl, _, rfl, rfl⟩, by decide, by decide +kernel, by decide +kernel⟩

end UniqueAccess.Program
