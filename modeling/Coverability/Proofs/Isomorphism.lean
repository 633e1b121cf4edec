import Coverability.Proofs.Comparison
import Coverability.Proofs.Refinement

/-! The search for an isomorphism finds one just if there is one. What it finds embeds one graph
into another of the same size, so nothing is left over. Conversely, corresponding elements of
isomorphic graphs have the same signatures, so none of the comparisons that narrow the search gives
up an isomorphism. -/

namespace Coverability

open Skeleton

namespace Signature

variable {signature one other : Signature} {word : UInt32}

private theorem mem_swapped {edge : EdgeId} :
    (word, edge) ∈ signature.edges.entries.map (fun entry => (entry.2, entry.1)) ↔
    signature.edges.get? edge = some word := by
  rw [← Table.mem_entries_iff, List.mem_map]
  constructor
  · intro known
    obtain ⟨entry, member, same⟩ := known
    cases same
    exact member
  · intro member
    exact ⟨(edge, word), member, rfl⟩

/-- A bucket lists the edges with its word. -/
theorem mem_edgeBuckets {edge : EdgeId} : edge ∈ signature.edgeBuckets.getD word [] ↔
    signature.edges.get? edge = some word := by
  rw [edgeBuckets, Table.getD_eq, Table.get?_group, ← mem_swapped]
  split
  · simp only [Option.getD_some, List.mem_map, List.mem_filter, decide_eq_true_eq]
    constructor
    · intro known
      obtain ⟨entry, ⟨member, rfl⟩, rfl⟩ := known
      exact member
    · intro member
      exact ⟨(word, edge), ⟨member, rfl⟩, rfl⟩
  next unused =>
    rw [Option.getD_none]
    constructor
    · nofun
    · intro member
      exact absurd (List.mem_map_of_mem member) unused

private theorem length_edgeBuckets : (signature.edgeBuckets.get? word).map List.length =
    if word ∈ signature.edges.values then some (signature.edges.values.count word) else none := by
  have words : (signature.edges.entries.map fun entry => (entry.2, entry.1)).map Prod.fst =
      signature.edges.values := by
    rw [List.map_map]
    rfl
  rw [edgeBuckets, Table.get?_group, words]
  split
  · rw [Option.map_some, List.length_map, ← words, List.count, List.countP_map,
      List.countP_eq_length_filter]
    congr 2
  · rfl

/-- Words that occur as often fill the buckets to the same size. -/
theorem sameBuckets_of_perm (perm : List.Perm one.edges.values other.edges.values) :
    one.sameBuckets other = true := by
  have sizes : ∀ word, (other.edgeBuckets.get? word).map List.length =
      (one.edgeBuckets.get? word).map List.length := by
    intro word
    simp only [length_edgeBuckets, perm.mem_iff, perm.count_eq]
  have keys : one.edgeBuckets.keys = other.edgeBuckets.keys := by
    apply Table.keys_eq_of_contains
    intro word
    rw [Table.contains, Table.contains, ← Option.isSome_map (f := List.length), ← sizes,
      Option.isSome_map]
  have count := congrArg List.length keys
  rw [Table.length_keys, Table.length_keys] at count
  simp only [sameBuckets, Bool.and_eq_true, beq_iff_eq, List.all_eq_true]
  refine ⟨count, ?_⟩
  intro entry member
  rw [sizes, Table.mem_entries_iff.mp member, Option.map_some]

end Signature

/-- An embedding that leaves over no vertex and no edge. -/
structure Morphism.Bijects (morphism : Morphism) (source target : Hypergraph) :
    Prop extends morphism.Embeds source target where
  vertex_onto : ∀ {image}, target.hasVertex image = true →
    ∃ vertex, morphism.vertex? vertex = some image
  edge_onto : ∀ {image}, target.skeleton.HasEdge image → ∃ edge, morphism.edge? edge = some image

section Search

variable {first second third : Hypergraph} {morphism : Morphism}

private theorem Morphism.Embeds.bijects (embeds : morphism.Embeds first second)
    (vertices : first.vertexCount = second.vertexCount)
    (edges : first.edgeCount = second.edgeCount) : morphism.Bijects first second where
  toEmbeds := embeds
  vertex_onto {image} inside := full_of_count embeds.model (Nat.le_of_eq vertices.symm) image inside
  edge_onto {image} present := by
    have taken := tight_of_count embeds.model (Nat.le_of_eq edges.symm) image present
    rw [Model.Free] at taken
    push Not at taken
    obtain ⟨edge, source, rfl⟩ := taken
    obtain ⟨found, stored⟩ := embeds.edge_iff.mpr source
    exact ⟨edge, embeds.image_eq stored ▸ stored⟩

/-- A morphism that leaves nothing over is an isomorphism. -/
theorem Morphism.Bijects.isomorphic (bijects : morphism.Bijects first second) :
    Isomorphic first.skeleton second.skeleton := by
  refine bijects.toEmbeds.model.isomorphic_of_tight (fun edge present free => ?_)
    fun member inside => bijects.vertex_onto inside
  obtain ⟨source, stored⟩ := bijects.edge_onto present
  exact free source (bijects.edge_iff.mp ⟨edge, stored⟩) (bijects.image_eq stored)

private theorem bijects_of_found (formedFirst : first.WellFormed) (formedSecond : second.WellFormed)
    (found : findIsomorphism first second = some morphism) : morphism.Bijects first second := by
  rw [findIsomorphism] at found
  split at found
  · cases found
  next counts =>
    dsimp only at found
    split at found
    · cases found
    split at found
    · cases found
    rw [not_or, not_not, not_not] at counts
    refine (Embedding.embeds_of_run formedFirst formedSecond (fun edge present => ?_) found).bijects
      counts.1 counts.2
    rw [List.map_map]
    exact List.mem_map.mpr ⟨edge, Hypergraph.mem_edgeIds_iff.mpr present, rfl⟩

private theorem found_of_iso (formedFirst : first.WellFormed) (formedSecond : second.WellFormed)
    (iso : Iso first.skeleton second.skeleton) :
    ∃ morphism, findIsomorphism first second = some morphism := by
  have agree : Signature.Agree iso (.of first) (.of second) :=
    Signature.ofSeeds_agree labelSeed formedFirst formedSecond iso
  have summary := agree.summary_eq
  have counts := summary
  rw [Signature.summary, Signature.summary, Summary.mk.injEq] at counts
  have buckets := Signature.sameBuckets_of_perm agree.perm_edges
  rw [findIsomorphism, if_neg (by simp [counts.1, counts.2.1])]
  simp only [summary, buckets, ne_eq, not_true, Bool.not_true, Bool.false_eq_true, if_false]
  refine Embedding.run_succeeds formedFirst formedSecond (iso.model_single formedFirst.closed)
    (fun one image along => ?_) ?_
    (fun entry member => ?_) (Nat.le_of_eq counts.1)
  · obtain ⟨inside, rfl⟩ := along
    exact beq_iff_eq.mpr (agree.vertex inside).symm
  · rw [List.map_map]
    exact (List.map_id first.edgeIds).symm ▸ Hypergraph.nodup_edgeIds
  · obtain ⟨edge, known, rfl⟩ := List.mem_map.mp member
    have present : first.skeleton.HasEdge edge := Hypergraph.mem_edgeIds_iff.mp known
    rw [← agree.covers.edges, Table.mem_keys_iff] at known
    obtain ⟨word, stored⟩ := known
    have image : (Signature.of second).edges.get? (iso.edge edge) =
        some ((Signature.of first).edges.getD edge 0) := by
      rw [agree.edge present, Table.getD_eq, stored, Option.getD_some]
    dsimp only
    exact ⟨present, Signature.mem_edgeBuckets.mpr image⟩

theorem areIsomorphic_iff (formedFirst : first.WellFormed) (formedSecond : second.WellFormed) :
    areIsomorphic first second = true ↔ Isomorphic first.skeleton second.skeleton := by
  rw [areIsomorphic, Option.isSome_iff_exists]
  constructor
  · intro known
    obtain ⟨morphism, found⟩ := known
    exact (bijects_of_found formedFirst formedSecond found).isomorphic
  · intro same
    obtain ⟨iso⟩ := same
    exact found_of_iso formedFirst formedSecond iso

/-- The search finds a morphism just if the graphs are isomorphic, and the morphism it finds pairs
all their vertices and edges, keeping labels and ends. So the decision it makes is an equivalence. -/
theorem findIsomorphism_exact (formedFirst : first.WellFormed) (formedSecond : second.WellFormed)
    (formedThird : third.WellFormed) :
    ((∃ morphism, findIsomorphism first second = some morphism) ↔
      Isomorphic first.skeleton second.skeleton) ∧
      (∀ morphism, findIsomorphism first second = some morphism → morphism.Bijects first second) ∧
      areIsomorphic first first = true ∧
      (areIsomorphic first second = true → areIsomorphic second first = true) ∧
      (areIsomorphic first second = true → areIsomorphic second third = true →
        areIsomorphic first third = true) := by
  refine ⟨?_, fun morphism found => bijects_of_found formedFirst formedSecond found, ?_,
    fun same => ?_, fun same next => ?_⟩
  · rw [← areIsomorphic_iff formedFirst formedSecond, areIsomorphic, Option.isSome_iff_exists]
  · exact (areIsomorphic_iff formedFirst formedFirst).mpr ⟨.refl _⟩
  · rw [areIsomorphic_iff formedFirst formedSecond] at same
    exact (areIsomorphic_iff formedSecond formedFirst).mpr
      (Hypergraph.isomorphic_symm formedFirst same)
  · rw [areIsomorphic_iff formedFirst formedSecond] at same
    rw [areIsomorphic_iff formedSecond formedThird] at next
    obtain ⟨iso⟩ := same
    obtain ⟨iso'⟩ := next
    exact (areIsomorphic_iff formedFirst formedThird).mpr ⟨iso.trans iso'⟩

end Search

/-- An isomorphism need not keep the order of the vertices. -/
theorem findIsomorphism_reversed : ∃ morphism : Morphism,
    findIsomorphism (.ofEdges 3 [("F", [2, 0, 0]), ("P", [1])])
      (.ofEdges 3 [("P", [1]), ("F", [0, 2, 2])]) = some morphism ∧
      morphism.Bijects (.ofEdges 3 [("F", [2, 0, 0]), ("P", [1])])
        (.ofEdges 3 [("P", [1]), ("F", [0, 2, 2])]) :=
  have formed : Hypergraph.WellFormed (.ofEdges 3 [("F", [2, 0, 0]), ("P", [1])]) := by decide +kernel
  have formed' : Hypergraph.WellFormed (.ofEdges 3 [("P", [1]), ("F", [0, 2, 2])]) := by
    decide +kernel
  have exact := findIsomorphism_exact formed formed' formed
  have same :=
    (Order.minor_decides.antisymmetric formed formed').mp ⟨by decide +kernel, by decide +kernel⟩
  let ⟨morphism, found⟩ := exact.1.mpr same
  ⟨morphism, found, exact.2.1 morphism found⟩

end Coverability
