import UniqueAccess.Proofs.Program.Encounters

/-!
# Nodes above themselves

In a tree that was read from a document the parents may lead in circles. Validity finds the nodes
that are on one, each at its own position, and passes by the nodes from which a circle can only be
entered (`nodeCycles_exact`).
-/

namespace UniqueAccess

/-- Found where the name or the parent of a node is looked at by itself. -/
inductive Finding.OfLink : Finding → Prop
  | misplaced {position : Nat} {id : NodeId} : OfLink ⟨none, .nodeMisplaced position id⟩
  | dangling {parent : NodeId} : OfLink ⟨none, .danglingNode parent⟩

namespace StorageTree

open Relation (TransGen)

variable {t : StorageTree} {id : NodeId}

instance (t : StorageTree) (id : NodeId) : Decidable (TransGen t.HasParent id id) :=
  decidable_of_iff (t.onCycle id) onCycle_iff

theorem ofLink_of_mem_nodeFlaws {position : Nat} {node : StorageNode} {flaw : Flaw}
    (h : flaw ∈ t.nodeFlaws position node) : Finding.OfLink ⟨none, flaw⟩ := by
  rcases List.mem_append.mp h with h | h
  · split at h
    · cases h
    · obtain rfl := List.mem_singleton.mp h
      exact .misplaced
  · split at h
    · cases h
    · split at h
      · cases h
      · obtain rfl := List.mem_singleton.mp h
        exact .dangling

def cyclePositions (t : StorageTree) : List Nat :=
  (List.range t.size).filter fun k => t.onCycle (.ofIndex k)

theorem mem_cyclePositions {k : Nat} :
    k ∈ t.cyclePositions ↔ k < t.size ∧ TransGen t.HasParent (.ofIndex k) (.ofIndex k) := by
  rw [cyclePositions, List.mem_filter, List.mem_range, onCycle_iff]

theorem pairwise_cyclePositions (t : StorageTree) : t.cyclePositions.Pairwise (· < ·) :=
  List.pairwise_lt_range.filter _

def linkFlaws (t : StorageTree) : List Flaw :=
  t.nodes.toList.zipIdx.flatMap fun v => t.nodeFlaws v.2 v.1

theorem ofLink_of_mem_linkFlaws {flaw : Flaw} (h : flaw ∈ t.linkFlaws) :
    Finding.OfLink ⟨none, flaw⟩ := by
  obtain ⟨v, _, hflaw⟩ := List.mem_flatMap.mp h
  exact ofLink_of_mem_nodeFlaws hflaw

theorem flaws_eq (t : StorageTree) :
    t.flaws = t.linkFlaws ++ (t.cyclePositions.map NodeId.ofIndex).map .nodeCycle := by
  rw [flaws, cyclePositions, List.filter_map]
  rfl

theorem mem_map_cyclePositions :
    id ∈ t.cyclePositions.map NodeId.ofIndex ↔ TransGen t.HasParent id id := by
  rw [List.mem_map]
  constructor
  · rintro ⟨k, hk, rfl⟩
    exact (mem_cyclePositions.mp hk).2
  · intro hcycle
    have hlt : id.index < t.size := of_decide_eq_true (contains_of_transGen hcycle)
    refine ⟨id.index, mem_cyclePositions.mpr ⟨hlt, ?_⟩, nodeId_ofIndex_index id⟩
    rwa [nodeId_ofIndex_index]

/-- In a tree with no more nodes than there are names, every position has its own. -/
theorem nodup_map_cyclePositions (hfit : t.size ≤ UInt32.size) :
    (t.cyclePositions.map NodeId.ofIndex).Nodup := by
  have hindex : ∀ k ∈ t.cyclePositions, (NodeId.ofIndex k).index = k := fun k hk =>
    nodeId_index_ofIndex (Nat.lt_of_lt_of_le (mem_cyclePositions.mp hk).1 hfit)
  refine List.pairwise_map.mpr (t.pairwise_cyclePositions.imp_of_mem fun hi hj hlt heq => ?_)
  rw [← hindex _ hi, ← hindex _ hj, heq] at hlt
  exact Nat.lt_irrefl _ hlt

end StorageTree

namespace Program

open Relation (TransGen)

variable {p : Program}

theorem Encounter.not_ofLink {e : Encounter} {f : Finding} (hf : f ∈ e.findings p) :
    ¬ f.OfLink ∧ ∀ id, f.flaw ≠ .nodeCycle id := by
  cases e with
  | again id =>
    obtain rfl := List.mem_singleton.mp hf
    exact ⟨nofun, nofun⟩
  | unknown owner id =>
    obtain rfl := List.mem_singleton.mp hf
    exact ⟨nofun, nofun⟩
  | statement id s =>
    obtain ⟨flaw, hflaw, rfl⟩ := List.mem_map.mp hf
    exact ⟨nofun, fun node (heq : flaw = _) => not_isStructural hflaw (heq ▸ .nodeCycle)⟩

theorem count_nodeCycle {t : StorageTree} {id : NodeId} (hfit : t.size ≤ UInt32.size) :
    (t.cyclePositions.map fun k => (⟨none, .nodeCycle (.ofIndex k)⟩ : Finding)).count
      ⟨none, .nodeCycle id⟩ = if TransGen t.HasParent id id then 1 else 0 := by
  have hinjective : Function.Injective fun id => (⟨none, .nodeCycle id⟩ : Finding) :=
    fun first second heq => by simpa using heq
  have hcount := List.count_map_of_injective (t.cyclePositions.map NodeId.ofIndex) _ hinjective id
  rw [List.map_map] at hcount
  refine hcount.trans ?_
  rw [(StorageTree.nodup_map_cyclePositions hfit).count]
  simp only [StorageTree.mem_map_cyclePositions]

/-- Whatever the names and parents of a tree are, the nodes that are found to be above themselves
are those from which the links lead back to where they started, in the order of their positions.
All that is found at single nodes comes before, and nothing after is about the links of the tree. A
tree with more nodes than there are names would have positions that share one. -/
theorem nodeCycles_exact (p : Program) :
    ∃ (links : List Finding) (positions : List Nat) (others : List Finding),
      p.findings =
        links ++ positions.map (fun k => ⟨none, .nodeCycle (.ofIndex k)⟩) ++ others ∧
      (∀ f ∈ links, f.OfLink) ∧
      (∀ k, k ∈ positions ↔
        k < p.storage.size ∧ TransGen p.storage.HasParent (.ofIndex k) (.ofIndex k)) ∧
      positions.Pairwise (· < ·) ∧
      (∀ f ∈ others, ¬ f.OfLink ∧ ∀ id, f.flaw ≠ .nodeCycle id) ∧
      (p.storage.size ≤ UInt32.size → ∀ id, p.findings.count ⟨none, .nodeCycle id⟩ =
        if TransGen p.storage.HasParent id id then 1 else 0) := by
  obtain ⟨es, _, _, hplaces⟩ := exists_examines p [] (p.root.map (none, ·))
  have hfindings : p.findings = p.storage.linkFlaws.map (⟨none, ·⟩) ++
      p.storage.cyclePositions.map (fun k => ⟨none, .nodeCycle (.ofIndex k)⟩) ++
        es.flatMap (Encounter.findings p) := by
    rw [findings, hplaces, StorageTree.flaws_eq, List.map_append, List.map_map, List.map_map]
    rfl
  have hlinks : ∀ f ∈ p.storage.linkFlaws.map fun flaw => (⟨none, flaw⟩ : Finding), f.OfLink := by
    intro f hf
    obtain ⟨flaw, hflaw, rfl⟩ := List.mem_map.mp hf
    exact StorageTree.ofLink_of_mem_linkFlaws hflaw
  have hothers : ∀ f ∈ es.flatMap (Encounter.findings p),
      ¬ f.OfLink ∧ ∀ id, f.flaw ≠ .nodeCycle id := by
    intro f hf
    obtain ⟨e, _, hf⟩ := List.mem_flatMap.mp hf
    exact Encounter.not_ofLink hf
  refine ⟨_, p.storage.cyclePositions, _, hfindings, hlinks,
    fun k => StorageTree.mem_cyclePositions, p.storage.pairwise_cyclePositions, hothers,
    fun hfit id => ?_⟩
  have hlink : (⟨none, .nodeCycle id⟩ : Finding) ∉ p.storage.linkFlaws.map (⟨none, ·⟩) := by
    intro hmem
    cases hlinks _ hmem
  have hother : (⟨none, .nodeCycle id⟩ : Finding) ∉ es.flatMap (Encounter.findings p) :=
    fun hmem => (hothers _ hmem).2 id rfl
  rw [hfindings, List.count_append, List.count_append, List.count_eq_zero.mpr hlink,
    List.count_eq_zero.mpr hother, count_nodeCycle hfit, Nat.zero_add, Nat.add_zero]

/-- Below the root, which names a parent outside the tree, two nodes are above each other, one leads
to them from outside, and one is its own parent. -/
def circularTree : Program :=
  ⟨currentVersion,
    ⟨#[⟨⟨0⟩, .root, some ⟨9⟩, false, 0, none⟩, ⟨⟨1⟩, .dense, some ⟨2⟩, false, 0, none⟩,
      ⟨⟨2⟩, .dense, some ⟨1⟩, false, 0, none⟩, ⟨⟨3⟩, .dense, some ⟨1⟩, false, 0, none⟩,
      ⟨⟨4⟩, .place, some ⟨4⟩, false, 0, none⟩]⟩,
    #[], []⟩

theorem circularTree_nodeCycles :
    circularTree.findings.count ⟨none, .nodeCycle ⟨2⟩⟩ = 1 ∧
      circularTree.findings.count ⟨none, .nodeCycle ⟨3⟩⟩ = 0 ∧
      circularTree.findings.count ⟨none, .nodeCycle ⟨4⟩⟩ = 1 := by
  obtain ⟨_, _, _, _, _, _, _, _, hcount⟩ := nodeCycles_exact circularTree
  have hcount := hcount (by decide)
  exact ⟨(hcount _).trans (by decide), (hcount _).trans (by decide), (hcount _).trans (by decide)⟩

end Program

end UniqueAccess
