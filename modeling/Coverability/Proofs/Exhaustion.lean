import Coverability.Proofs.Growth
import Coverability.Proofs.MinorSearch
import Coverability.Proofs.Operations
import Mathlib.Data.Set.Card
import Mathlib.Order.Partition.Finpartition

/-! Contracting against trying everything. The search skips many combinations of partitions, and
skips the search altogether where every target is reached once. It still finds a right way to
contract the unselected edges whenever there is one: its answer is that of a plain search through
all combinations. -/

namespace Coverability.Minor

open Relation (EqvGen)

variable {smaller bigger : Hypergraph} {chosen : List (EdgeId × EdgeId)}
  {forced : Table VertexId VertexId} {selected : List EdgeId} {spare : Nat}
  {partitions : List (Partition VertexId)} {lists : List (List VertexId)}

/-- All combinations of partitions, one for each list. -/
def combinations : List (List VertexId) → List (List (Partition VertexId))
  | [] => [[]]
  | ids :: rest =>
    (Partition.strings ids.length).flatMap fun blocks =>
      (combinations rest).map (⟨ids, blocks, false⟩ :: ·)

/-- Whether one combination joins the vertices to the right blocks. -/
def suits (bigger : Hypergraph) (forced : Table VertexId VertexId) (spare : Nat)
    (partitions : List (Partition VertexId)) : Bool :=
  match Blocks.joinPartitions { targets := forced } 0 partitions with
  | .ok blocks => blocks.realises bigger.vertexIds forced spare
  | .error _ => false

/-- Tries every combination of partitions of the unselected edges. -/
def exhaustive (bigger : Hypergraph) (forced : Table VertexId VertexId) (selected : List EdgeId)
    (spare : Nat) : Bool :=
  (combinations (unselected bigger selected)).any (suits bigger forced spare)

theorem mem_combinations : partitions ∈ combinations lists ↔ Partition.AllValid partitions ∧
    Partition.shape partitions = lists := by
  induction lists generalizing partitions with
  | nil =>
    rw [combinations, List.mem_singleton, Partition.shape, List.map_eq_nil_iff, iff_and_self]
    rintro rfl
    exact List.forall_mem_nil _
  | cons ids rest ih =>
    simp only [combinations, List.mem_flatMap, List.mem_map, ih, Partition.mem_strings]
    constructor
    · rintro ⟨blocks, ⟨growth, length⟩, others, ⟨valid, rfl⟩, rfl⟩
      exact ⟨List.forall_mem_cons.mpr ⟨Partition.valid_iff.mpr ⟨rfl, length, growth⟩, valid⟩, rfl⟩
    · rintro ⟨valid, same⟩
      cases partitions with
      | nil => cases same
      | cons partition others =>
        obtain ⟨rfl, rfl⟩ := List.cons.inj same
        obtain ⟨validFirst, validOthers⟩ := List.forall_mem_cons.mp valid
        obtain ⟨running, length, growth⟩ := Partition.valid_iff.mp validFirst
        exact ⟨partition.blocks, ⟨growth, length⟩, others, ⟨validOthers, rfl⟩, by rw [← running]⟩

theorem suits_iff : suits bigger forced spare partitions = true ↔
    Realised bigger forced spare partitions := by
  rw [suits, Realised]
  split
  next blocks joins => simp [joins]
  next joins => simp [joins]

theorem exhaustive_iff (formed : bigger.WellFormed) :
    exhaustive bigger forced selected spare = true ↔
    Nonempty (Contraction bigger forced selected spare) := by
  simp only [exhaustive, List.any_eq_true, mem_combinations, suits_iff, and_assoc]
  exact exists_realised_iff formed (offers_unselected formed)

/-- A partition of the vertices of every edge. -/
abbrev Choice : Type := ∀ edge : Edge, Finpartition edge.distinctVertices.toFinset

namespace Choice

/-- The vertices that hang together when the blocks of all unselected edges are contracted. -/
def Connected (choice : Choice) (bigger : Hypergraph) (selected : List EdgeId) :
    VertexId → VertexId → Prop :=
  EqvGen fun first second => ∃ id edge, bigger.edge? id = some edge ∧ id ∉ selected ∧
    ∃ block ∈ (choice edge).parts, first ∈ block ∧ second ∈ block

/-- The vertices that hang together with one. -/
def block (choice : Choice) (bigger : Hypergraph) (selected : List EdgeId)
    (vertex : VertexId) : Set VertexId :=
  {other | choice.Connected bigger selected vertex other}

/-- The blocks that have no target. -/
def freeBlocks (choice : Choice) (bigger : Hypergraph) (forced : Table VertexId VertexId)
    (selected : List EdgeId) : Set (Set VertexId) :=
  {block | ∃ vertex, bigger.hasVertex vertex = true ∧ choice.block bigger selected vertex = block ∧
    ∀ other ∈ block, forced.get? other = none}

/-- What the blocks of the whole graph have to be like. -/
structure Works (choice : Choice) (bigger : Hypergraph) (forced : Table VertexId VertexId)
    (selected : List EdgeId) (spare : Nat) : Prop where
  apart : ∀ {first second one other}, forced.get? first = some one →
    forced.get? second = some other → one ≠ other →
    ¬choice.Connected bigger selected first second
  together : ∀ {first second target}, forced.get? first = some target →
    forced.get? second = some target →
    choice.Connected bigger selected first second
  enough : spare ≤ (choice.freeBlocks bigger forced selected).ncard

variable {choice : Choice} {first second : VertexId}

theorem block_eq_iff : choice.block bigger selected first = choice.block bigger selected second ↔
    choice.Connected bigger selected first second := by
  constructor
  · intro same
    have inside : second ∈ choice.block bigger selected second := EqvGen.refl second
    rwa [← same] at inside
  · intro path
    ext other
    exact ⟨fun joined => path.symm.trans _ _ _ joined, fun joined => path.trans _ _ _ joined⟩

theorem finite_freeBlocks : (choice.freeBlocks bigger forced selected).Finite := by
  refine (bigger.vertexIds.finite_toSet.image (choice.block bigger selected)).subset ?_
  rintro block ⟨vertex, inside, rfl, _⟩
  exact ⟨vertex, Hypergraph.mem_vertexIds.mpr inside, rfl⟩

instance (root : VertexId → VertexId) : DecidableRel (Setoid.ker root) :=
  fun one other => decEq (root one) (root other)

/-- Vertices of one edge are in one block if they have one root. -/
def ofRoot (root : VertexId → VertexId) : Choice :=
  fun _ => Finpartition.ofSetSetoid (Setoid.ker root) _

private theorem mem_ofRoot {root : VertexId → VertexId} {edge : Edge} :
    (∃ block ∈ (ofRoot root edge).parts, first ∈ block ∧ second ∈ block) ↔
      first ∈ edge.vertices ∧ second ∈ edge.vertices ∧ root first = root second := by
  have ends : ∀ {vertex}, vertex ∈ edge.distinctVertices.toFinset ↔ vertex ∈ edge.vertices :=
    List.mem_toFinset.trans List.mem_eraseDups
  simp only [ofRoot, Finpartition.ofSetSetoid_parts, Finset.exists_mem_image, Finset.mem_filter, ends]
  constructor
  · rintro ⟨top, _, ⟨left, sameLeft⟩, right, sameRight⟩
    exact ⟨left, right, sameLeft.symm.trans sameRight⟩
  · rintro ⟨left, right, same⟩
    exact ⟨first, left, ⟨left, rfl⟩, right, same⟩

private theorem connected_ofRoot (contraction : Contraction bigger forced selected spare) :
    (ofRoot contraction.root).Connected bigger selected first second ↔
    contraction.root first = contraction.root second := by
  constructor
  · apply eqvGen_value
    rintro one other ⟨id, edge, _, _, shared⟩
    exact (mem_ofRoot.mp shared).2.2
  · intro same
    refine EqvGen.mono ?_ _ _ (contraction.joined same)
    rintro one other ⟨equal, id, edge, found, free, left, right⟩
    exact ⟨id, edge, found, free, mem_ofRoot.mpr ⟨left, right, equal⟩⟩

theorem works_ofRoot (contraction : Contraction bigger forced selected spare) :
    (ofRoot contraction.root).Works bigger forced selected spare where
  apart atFirst atSecond different joined :=
    different ((contraction.root_forced atFirst atSecond).mp
      ((connected_ofRoot contraction).mp joined))
  together atFirst atSecond :=
    (connected_ofRoot contraction).mpr ((contraction.root_forced atFirst atSecond).mpr rfl)
  enough := by
    have distinct : contraction.spares.Nodup :=
      List.Nodup.of_map contraction.root contraction.distinct
    have apart : Set.InjOn ((ofRoot contraction.root).block bigger selected)
        (contraction.spares.toFinset : Set VertexId) := by
      intro one atOne other atOther same
      refine List.inj_on_of_nodup_map contraction.distinct (List.mem_toFinset.mp atOne)
        (List.mem_toFinset.mp atOther) ?_
      exact (connected_ofRoot contraction).mp (block_eq_iff.mp same)
    have within : (ofRoot contraction.root).block bigger selected ''
        (contraction.spares.toFinset : Set VertexId) ⊆
        (ofRoot contraction.root).freeBlocks bigger forced selected := by
      rintro block ⟨vertex, member, rfl⟩
      have spared := List.mem_toFinset.mp member
      refine ⟨vertex, contraction.inside vertex spared, rfl, ?_⟩
      intro other joined
      cases stored : forced.get? other with
      | none => rfl
      | some target =>
        exact absurd ((connected_ofRoot contraction).mp joined)
          (contraction.free vertex spared other target stored)
    calc spare = contraction.spares.toFinset.card := by
           rw [List.toFinset_card_of_nodup distinct, contraction.length_spares]
      _ = ((ofRoot contraction.root).block bigger selected ''
          (contraction.spares.toFinset : Set VertexId)).ncard := by
        rw [apart.ncard_image, Set.ncard_coe_finset]
      _ ≤ _ := Set.ncard_le_ncard within finite_freeBlocks

theorem shared_of_part {edge : Edge} {block : Finset VertexId}
    (member : block ∈ (choice edge).parts) (inside : first ∈ block) :
    first ∈ edge.vertices :=
  List.mem_eraseDups.mp (List.mem_toFinset.mp ((choice edge).le member inside))

/-- Any vertex of a block can be its root. -/
theorem Works.contraction (works : choice.Works bigger forced selected spare) :
    Nonempty (Contraction bigger forced selected spare) := by
  let same : Setoid VertexId :=
    EqvGen.setoid fun first second => ∃ id edge, bigger.edge? id = some edge ∧ id ∉ selected ∧
      ∃ block ∈ (choice edge).parts, first ∈ block ∧ second ∈ block
  let root (vertex : VertexId) : VertexId := (Quotient.mk same vertex).out
  have rooted : ∀ {first second}, root first = root second ↔
      choice.Connected bigger selected first second := by
    intro first second
    exact Quotient.out_inj.trans Quotient.eq
  have known : ∀ block ∈ choice.freeBlocks bigger forced selected,
      ∃ vertex, bigger.hasVertex vertex = true ∧
      choice.block bigger selected vertex = block ∧ ∀ other ∈ block, forced.get? other = none :=
        fun _ free => free
  choose! vertex inside stands free using known
  obtain ⟨blocks, within, length⟩ := Set.exists_subset_card_eq works.enough
  have finite : blocks.Finite := finite_freeBlocks.subset within
  have listed : ∀ {block}, block ∈ finite.toFinset.toList →
      block ∈ choice.freeBlocks bigger forced selected := by
    intro block member
    exact within (finite.mem_toFinset.mp (Finset.mem_toList.mp member))
  refine ⟨⟨root, fun joined => ?_, fun atFirst atSecond => ⟨fun joined => ?_, ?_⟩,
    finite.toFinset.toList.map vertex, ?_, ?_, ?_, ?_⟩⟩
  · refine EqvGen.mono ?_ _ _ (rooted.mp joined)
    rintro one other ⟨id, edge, found, unselected, block, member, left, right⟩
    refine ⟨rooted.mpr (.rel _ _ ⟨id, edge, found, unselected, block, member, left, right⟩), id,
      edge, found, unselected, ?_, ?_⟩
    · exact shared_of_part member left
    · exact shared_of_part member right
  · by_contra different
    exact works.apart atFirst atSecond different (rooted.mp joined)
  · rintro rfl
    exact rooted.mpr (works.together atFirst atSecond)
  · rw [List.length_map, Finset.length_toList, ← Set.ncard_eq_toFinset_card blocks finite, length]
  · rw [List.map_map]
    refine List.Nodup.map_on ?_ (Finset.nodup_toList _)
    intro one atOne other atOther equal
    rw [← stands one (listed atOne), ← stands other (listed atOther)]
    exact block_eq_iff.mpr (rooted.mp equal)
  · intro member spared
    obtain ⟨block, atBlock, rfl⟩ := List.mem_map.mp spared
    exact inside block (listed atBlock)
  · intro member spared other target stored joined
    obtain ⟨block, atBlock, rfl⟩ := List.mem_map.mp spared
    have reached : other ∈ block := stands block (listed atBlock) ▸ rooted.mp joined
    rw [free block (listed atBlock) other reached] at stored
    cases stored

theorem exists_works_iff : (∃ choice : Choice, choice.Works bigger forced selected spare) ↔
    Nonempty (Contraction bigger forced selected spare) := by
  constructor
  · rintro ⟨choice, works⟩
    exact works.contraction
  · rintro ⟨contraction⟩
    exact ⟨_, works_ofRoot contraction⟩

end Choice

/-- No vertex is forced that is not there, so the vertices that are not forced can be counted. -/
theorem forced_size_le (formed : bigger.WellFormed)
    (found : forcedBy smaller bigger chosen = some forced) :
    forced.size ≤ bigger.vertexCount := by
  rw [← Table.length_keys, ← Hypergraph.length_vertexIds]
  refine Listing.length_le_of_subset Table.nodup_keys ?_
  intro vertex member
  obtain ⟨target, stored⟩ := Table.mem_keys_iff.mp member
  exact Hypergraph.mem_vertexIds.mpr (forced_inside formed found vertex target stored)

/-- What is left of the bigger graph can be contracted just if partitions of the unselected edges, closed
transitively, make the right blocks, which is what a plain search through all combinations of partitions
finds out. This is so as well where every target is reached once and the vertices that are not forced are
counted. In all other cases the attempts, which skip some combinations, come to an end. -/
theorem contractRest_exact (formed : bigger.WellFormed)
    (found : forcedBy smaller bigger chosen = some forced) :
    (contractRest bigger forced (chosen.map Prod.snd) smaller.isolatedVertices.length = true ↔
      ∃ choice : Choice,
        choice.Works bigger forced (chosen.map Prod.snd) smaller.isolatedVertices.length) ∧
    contractRest bigger forced (chosen.map Prod.snd) smaller.isolatedVertices.length =
      exhaustive bigger forced (chosen.map Prod.snd) smaller.isolatedVertices.length ∧
    forced.size ≤ bigger.vertexCount ∧
    (¬forced.values.Nodup →
      Ends bigger forced smaller.isolatedVertices.length (start bigger (chosen.map Prod.snd))
      (contractRest bigger forced (chosen.map Prod.snd) smaller.isolatedVertices.length)) := by
  have exact :=
    @contractRest_iff bigger forced (chosen.map Prod.snd) smaller.isolatedVertices.length formed
      (forced_inside formed found)
  refine ⟨exact.trans Choice.exists_works_iff.symm, ?_, forced_size_le formed found,
    contractRest_ends⟩
  rw [Bool.eq_iff_iff, exact, exhaustive_iff formed]

/-- One block of all four vertices has two targets, and so has every other one that holds the first
three, so these are skipped. The fourth vertex has to be left alone to spare one block, and two
cannot be spared. -/
theorem contractRest_spares :
    forcedBy (.ofEdges 3 [("E", [0, 0, 1])])
      (.ofEdges 4 [("E", [0, 1, 2]), ("F", [0, 1, 2, 3])]) [(⟨3⟩, ⟨4⟩)] =
      some (.ofList [(⟨0⟩, ⟨0⟩), (⟨1⟩, ⟨0⟩), (⟨2⟩, ⟨1⟩)]) ∧
    (∃ choice : Choice, choice.Works (.ofEdges 4 [("E", [0, 1, 2]), ("F", [0, 1, 2, 3])])
      (.ofList [(⟨0⟩, ⟨0⟩), (⟨1⟩, ⟨0⟩), (⟨2⟩, ⟨1⟩)]) [⟨4⟩] 1) ∧
    ¬∃ choice : Choice, choice.Works (.ofEdges 4 [("E", [0, 1, 2]), ("F", [0, 1, 2, 3])])
      (.ofList [(⟨0⟩, ⟨0⟩), (⟨1⟩, ⟨0⟩), (⟨2⟩, ⟨1⟩)]) [⟨4⟩] 2 := by
  have formed : Hypergraph.WellFormed (.ofEdges 4 [("E", [0, 1, 2]), ("F", [0, 1, 2, 3])]) := by
    decide +kernel
  have found : forcedBy (.ofEdges 3 [("E", [0, 0, 1])])
      (.ofEdges 4 [("E", [0, 1, 2]), ("F", [0, 1, 2, 3])]) [(⟨3⟩, ⟨4⟩)] =
      some (.ofList [(⟨0⟩, ⟨0⟩), (⟨1⟩, ⟨0⟩), (⟨2⟩, ⟨1⟩)]) := by decide +kernel
  have again : forcedBy (.ofEdges 4 [("E", [0, 0, 1])])
      (.ofEdges 4 [("E", [0, 1, 2]), ("F", [0, 1, 2, 3])]) [(⟨4⟩, ⟨4⟩)] =
      some (.ofList [(⟨0⟩, ⟨0⟩), (⟨1⟩, ⟨0⟩), (⟨2⟩, ⟨1⟩)]) := by decide +kernel
  have one : (Hypergraph.ofEdges 3 [("E", [0, 0, 1])]).isolatedVertices.length =
    1 := by decide +kernel
  have two : (Hypergraph.ofEdges 4 [("E", [0, 0, 1])]).isolatedVertices.length =
    2 := by decide +kernel
  have spared := (contractRest_exact formed found).1
  have missed := (contractRest_exact formed again).1
  rw [one, List.map_singleton] at spared
  rw [two, List.map_singleton] at missed
  refine ⟨found, spared.mp (by decide +kernel), ?_⟩
  rw [← missed]
  decide +kernel

end Coverability.Minor
