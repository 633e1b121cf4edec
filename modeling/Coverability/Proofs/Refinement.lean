import Coverability.Proofs.Operations
import Coverability.Signature

/-! Refinement of signatures does not see identifiers. Along an isomorphism, corresponding elements
start from the same signatures and every round mixes in corresponding surroundings, so the rounds go
on in lock step, as many elements are told apart on both sides, and refinement ends in the same
round. It does end: every round but the last tells one more element apart. -/

namespace Coverability

namespace Listing

variable {α β : Type}

/-- An image is listed as often as its source, if nothing else that is listed has the same image. -/
theorem count_map [DecidableEq α] [DecidableEq β] {items : List α} {change : α → β} {item : α}
    (injective : ∀ other ∈ items, change other = change item → other = item) :
    (items.map change).count (change item) = items.count item := by
  rw [List.count, List.count, List.countP_map]
  apply List.countP_congr
  intro other member
  simp only [Function.comp_apply, beq_iff_eq]
  exact ⟨injective other member, fun same => same ▸ rfl⟩

/-- Keys that correspond, with the same values, give the same values in some order. -/
theorem values_perm {κ ι : Type} [Ord κ] [Std.TransOrd κ] [Std.LawfulEqOrd κ] [Ord ι]
    [Std.TransOrd ι] [Std.LawfulEqOrd ι] {first : Table κ α} {second : Table ι α} (change : κ → ι)
    (keys : List.Perm (first.keys.map change) second.keys)
    (same : ∀ key ∈ first.keys, second.get? (change key) = first.get? key) :
    List.Perm first.values second.values := by
  have listed : ∀ {κ : Type} [Ord κ] [Std.TransOrd κ] [Std.LawfulEqOrd κ] (table : Table κ α),
      table.keys.filterMap table.get? = table.values := by
    intro κ _ _ _ table
    rw [Table.keys, Table.values, List.filterMap_map]
    have found : ∀ entry ∈ table.entries, (table.get? ∘ Prod.fst) entry = some entry.2 :=
      fun entry member =>
        Table.mem_entries_iff.mp member
    rw [List.filterMap_congr found, ← List.filterMap_eq_map]
    rfl
  rw [← listed first, ← listed second]
  refine List.Perm.trans ?_ (keys.filterMap _)
  rw [List.filterMap_map]
  exact List.Perm.of_eq (List.filterMap_congr fun key member => (same key member).symm)

end Listing

namespace Hypergraph

variable {first second : Hypergraph}

theorem perm_vertexIds (iso : Skeleton.Iso first.skeleton second.skeleton) :
    List.Perm (first.vertexIds.map iso.vertex) second.vertexIds := by
  refine (List.perm_ext_iff_of_nodup ?_ nodup_vertexIds).mpr fun vertex => ?_
  · refine (List.nodup_map_iff_inj_on nodup_vertexIds).mpr fun one atOne other atOther same => ?_
    exact iso.vertex_injective (mem_vertexIds.mp atOne) (mem_vertexIds.mp atOther) same
  · rw [List.mem_map, mem_vertexIds]
    constructor
    · intro found
      obtain ⟨one, member, rfl⟩ := found
      exact iso.vertex_inside (mem_vertexIds.mp member)
    · intro present
      obtain ⟨one, inside, same⟩ := iso.vertex_surjective present
      exact ⟨one, mem_vertexIds.mpr inside, same⟩

theorem perm_edgeIds (iso : Skeleton.Iso first.skeleton second.skeleton) :
    List.Perm (first.edgeIds.map iso.edge) second.edgeIds := by
  refine (List.perm_ext_iff_of_nodup ?_ nodup_edgeIds).mpr fun edge => ?_
  · refine (List.nodup_map_iff_inj_on nodup_edgeIds).mpr fun one atOne other atOther same => ?_
    exact iso.edge_injective (mem_edgeIds_iff.mp atOne) (mem_edgeIds_iff.mp atOther) same
  · rw [List.mem_map, mem_edgeIds, ← skeleton_hasEdge]
    constructor
    · intro found
      obtain ⟨one, member, rfl⟩ := found
      exact iso.hasEdge (mem_edgeIds_iff.mp member)
    · intro present
      obtain ⟨one, inside, same⟩ := iso.edge_surjective present
      exact ⟨one, mem_edgeIds_iff.mpr inside, same⟩

/-- Maps that list the vertices and the edges of the second graph and keep labels and ends. -/
def isoOfListed (vertex : VertexId → VertexId) (edge : EdgeId → EdgeId)
    (vertices : List.Perm (first.vertexIds.map vertex) second.vertexIds)
    (edges : List.Perm (first.edgeIds.map edge) second.edgeIds)
    (kept : ∀ entry ∈ first.edges.entries,
      second.skeleton.edge? (edge entry.1) = some (entry.2.label, entry.2.vertices.map vertex)) :
    Skeleton.Iso first.skeleton second.skeleton where
  vertex := vertex
  edge := edge
  vertex_inside present :=
    mem_vertexIds.mp (vertices.mem_iff.mp (List.mem_map_of_mem (mem_vertexIds.mpr present)))
  vertex_injective atOne atOther same :=
    List.inj_on_of_nodup_map (vertices.nodup_iff.mpr nodup_vertexIds) (mem_vertexIds.mpr atOne)
      (mem_vertexIds.mpr atOther) same
  vertex_surjective {target} present := by
    obtain ⟨one, member, same⟩ := List.mem_map.mp (vertices.mem_iff.mpr (mem_vertexIds.mpr present))
    exact ⟨one, mem_vertexIds.mp member, same⟩
  edge_kept stored := by
    obtain ⟨found, known, rfl, rfl⟩ := skeleton_edge_iff.mp stored
    exact kept _ (Table.mem_entries_iff.mpr known)
  edge_injective atOne atOther same :=
    List.inj_on_of_nodup_map (edges.nodup_iff.mpr nodup_edgeIds) (mem_edgeIds_iff.mpr atOne)
      (mem_edgeIds_iff.mpr atOther) same
  edge_surjective {target} present := by
    obtain ⟨one, member, same⟩ := List.mem_map.mp (edges.mem_iff.mpr (mem_edgeIds_iff.mpr present))
    exact ⟨one, mem_edgeIds_iff.mp member, same⟩

/-- Corresponding vertices have corresponding incidences, in whatever order they are listed. -/
theorem perm_incident (formedFirst : first.WellFormed) (formedSecond : second.WellFormed)
    (iso : Skeleton.Iso first.skeleton second.skeleton) {vertex : VertexId}
    (present : first.hasVertex vertex = true) :
    List.Perm ((first.incident vertex).map iso.edge) (second.incident (iso.vertex vertex)) := by
  have incident_edge : ∀ {id}, id ∈ first.incident vertex → first.skeleton.HasEdge id := by
    intro id member
    obtain ⟨edge, stored, _⟩ := formedFirst.mem_incident.mp member
    exact Hypergraph.skeleton_hasEdge.mpr ⟨edge, stored⟩
  rw [List.perm_iff_count]
  intro id
  rw [formedSecond.count_incident]
  by_cases known : second.skeleton.HasEdge id
  · obtain ⟨one, inside, rfl⟩ := iso.edge_surjective known
    obtain ⟨label, ends, stored⟩ := inside
    obtain ⟨edge, here, _, rfl⟩ := skeleton_edge_iff.mp stored
    obtain ⟨other, there, _, moved⟩ := skeleton_edge_iff.mp (iso.edge_kept stored)
    rw [occurrences_of_some there, moved, Listing.count_map, Listing.count_map,
      formedFirst.count_incident, occurrences_of_some here]
    · exact fun member inside same =>
        iso.vertex_injective (formedFirst.has_ends here inside) present same
    · exact fun member inside same => iso.edge_injective (incident_edge inside) ⟨_, _, stored⟩ same
  · have absent : second.edge? id = none := by
      rw [Option.eq_none_iff_forall_ne_some]
      exact fun edge found => known (skeleton_hasEdge.mpr ⟨edge, found⟩)
    rw [occurrences, absent, List.count_eq_zero]
    intro member
    obtain ⟨one, inside, rfl⟩ := List.mem_map.mp member
    exact known (iso.hasEdge (incident_edge inside))

end Hypergraph

namespace Signature

/-- A signature gives a word to every vertex and every edge of a graph, and to nothing else. -/
structure Covers (signature : Signature) (graph : Hypergraph) : Prop where
  vertices : signature.vertices.keys = graph.vertexIds
  edges : signature.edges.keys = graph.edgeIds

/-- Corresponding elements have the same words. -/
structure Agree {first second : Hypergraph} (iso : Skeleton.Iso first.skeleton second.skeleton)
    (one other : Signature) : Prop where
  covers : one.Covers first
  coversOther : other.Covers second
  vertex : ∀ {vertex}, first.hasVertex vertex = true →
    other.vertices.get? (iso.vertex vertex) = one.vertices.get? vertex
  edge : ∀ {edge}, first.skeleton.HasEdge edge →
    other.edges.get? (iso.edge edge) = one.edges.get? edge

/-- The edges with the words their labels start from. -/
def seededBy (seed : String → UInt32) (graph : Hypergraph) : Seeded :=
  graph.edgeList.map fun edge => (edge, seed edge.label)

variable {graph first second : Hypergraph} {seed : String → UInt32} {signature one other : Signature}

private theorem seeded_eq (seed : String → UInt32) (graph : Hypergraph) :
    (graph.edgeList.map fun edge =>
      (edge, (Table.ofList (graph.labels.map fun label => (label, seed label))).getD edge.label
        0)) = seededBy seed graph := by
  apply List.map_congr_left
  intro edge member
  have listed : edge.label ∈ graph.labels := Table.mem_distinct.mpr (List.mem_map_of_mem member)
  have distinct : ((graph.labels.map fun label => (label, seed label)).map Prod.fst).Nodup := by
    rw [List.map_map]
    exact (List.map_id graph.labels).symm ▸ Table.nodup_distinct
  have stored : (Table.ofList (graph.labels.map fun label => (label, seed label))).get? edge.label =
      some (seed edge.label) :=
    (Table.get?_insertAll distinct).mpr (.inl (List.mem_map_of_mem listed))
  rw [Table.getD_eq, stored, Option.getD_some]

private theorem get?_ofSeeded (formed : graph.WellFormed)
    (word : Edge × UInt32 → UInt32) {id : EdgeId} :
    (Table.ofList ((seededBy seed graph).map fun entry => (entry.1.id, word entry))).get? id =
      (graph.edge? id).map fun edge => word (edge, seed edge.label) := by
  have keys : ((seededBy seed graph).map fun entry => (entry.1.id, word entry)).map Prod.fst =
      graph.edgeIds := by
    rw [seededBy, List.map_map, List.map_map, ← formed.edgeList_ids]
    rfl
  apply Option.ext
  intro value
  rw [Table.ofList, Table.get?_insertAll (keys ▸ Hypergraph.nodup_edgeIds), Option.map_eq_some_iff]
  simp only [seededBy, List.mem_map, exists_exists_and_eq_and, Prod.mk.injEq]
  constructor
  · intro known
    obtain ⟨edge, member, rfl, rfl⟩ := known.resolve_right fun absent => by cases absent.2
    exact ⟨edge, formed.mem_edgeList.mp member, rfl⟩
  · intro known
    obtain ⟨edge, stored, rfl⟩ := known
    have named := formed.edge_id stored
    exact .inl ⟨edge, formed.mem_edgeList.mpr (named.symm ▸ stored), named, rfl⟩

private theorem keys_ofSeeded (formed : graph.WellFormed) (word : Edge × UInt32 → UInt32) :
    (Table.ofList ((seededBy seed graph).map fun entry => (entry.1.id, word entry))).keys =
      graph.edgeIds := by
  apply Table.keys_eq_of_contains
  intro id
  rw [Table.contains, get?_ofSeeded formed word, Option.isSome_map, Hypergraph.edge?, Table.contains]

private theorem keys_mapVertices (graph : Hypergraph) (word : VertexId → Vertex → UInt32) :
    (graph.vertices.mapValues word).keys = graph.vertexIds := by
  apply Table.keys_eq_of_contains
  intro vertex
  rw [Table.contains_mapValues]

theorem start_covers (formed : graph.WellFormed) : (start graph (seededBy seed graph)).Covers graph :=
  ⟨keys_mapVertices _ _, keys_ofSeeded formed Prod.snd⟩

theorem refine_covers (formed : graph.WellFormed) (signature : Signature) :
    (refine graph (seededBy seed graph) signature).Covers graph :=
  ⟨keys_mapVertices _ _, keys_ofSeeded formed _⟩

/-- No more elements are told apart than there are. -/
theorem Covers.distinctCount_le (covers : signature.Covers graph) :
    signature.distinctCount ≤ graph.vertexCount + graph.edgeCount := by
  have words : signature.distinctCount ≤ signature.all.length :=
    Listing.length_le_of_subset Table.nodup_distinct fun word member => Table.mem_distinct.mp member
  have vertices := congrArg List.length covers.vertices
  have edges := congrArg List.length covers.edges
  rw [Table.length_keys, Hypergraph.length_vertexIds] at vertices
  rw [Table.length_keys, Hypergraph.length_edgeIds] at edges
  rw [all, List.length_append, Table.values, Table.values, List.length_map, List.length_map] at words
  simp only [Table.size] at vertices edges
  omega

/-! ### Rounds -/

/-- The rounds that refinement takes: it goes on as long as a round tells more elements apart than
the one before. -/
inductive Settles (graph : Hypergraph) (seeded : Seeded) : Signature → Nat → Signature → Prop where
  | last {signature : Signature}
      (still : (refine graph seeded signature).distinctCount ≤ signature.distinctCount) :
      Settles graph seeded signature 1 (refine graph seeded signature)
  | more {signature final : Signature} {rounds : Nat}
      (apart : signature.distinctCount < (refine graph seeded signature).distinctCount)
      (later : Settles graph seeded (refine graph seeded signature) rounds final) :
        Settles graph seeded signature (rounds + 1) final

theorem Settles.unique {seeded : Seeded} {rounds others : Nat} {final : Signature}
    (settles : Settles graph seeded signature rounds final)
    (again : Settles graph seeded signature others other) : others = rounds ∧ other = final := by
  induction settles generalizing others with
  | last still =>
    cases again with
    | last => exact ⟨rfl, rfl⟩
    | more apart => exact absurd still (Nat.not_le.mpr apart)
  | more apart _ ih =>
    cases again with
    | last still => exact absurd still (Nat.not_le.mpr apart)
    | more _ later =>
      obtain ⟨same, equal⟩ := ih later
      exact ⟨congrArg (· + 1) same, equal⟩

/-- Every round but the last tells one more element apart, so rounds that outnumber the elements are
never used up. -/
theorem settle_settles (formed : graph.WellFormed) {rounds : Nat} (covers : signature.Covers graph)
    (enough : graph.vertexCount + graph.edgeCount < signature.distinctCount + rounds) :
    ∃ taken ≤ rounds,
      Settles graph (seededBy seed graph) signature taken
        (settle graph (seededBy seed graph) rounds signature) := by
  induction rounds generalizing signature with
  | zero =>
    have bound := covers.distinctCount_le
    omega
  | succ rounds ih =>
    rw [settle]
    split
    next still => exact ⟨1, by omega, .last still⟩
    next apart =>
      have next : (refine graph (seededBy seed graph) signature).Covers graph :=
        refine_covers formed signature
      obtain ⟨taken, within, settles⟩ := ih next (by omega)
      exact ⟨taken + 1, by omega, .more (Nat.lt_of_not_le apart) settles⟩

theorem ofSeeds_settles (seed : String → UInt32) (formed : graph.WellFormed) :
    ∃ taken ≤ graph.vertexCount + graph.edgeCount + 1,
    Settles graph (seededBy seed graph) (start graph (seededBy seed graph)) taken
      (ofSeeds seed graph) := by
  simp only [ofSeeds, seeded_eq]
  exact settle_settles formed (start_covers formed) (by omega)

section Lockstep

variable {iso : Skeleton.Iso first.skeleton second.skeleton}

private theorem get?_mapVertices (word : VertexId → UInt32) {vertex : VertexId}
    (present : graph.hasVertex vertex = true) :
    (graph.vertices.mapValues fun vertex _ => word vertex).get? vertex = some (word vertex) := by
  obtain ⟨stored, found⟩ := Table.contains_iff.mp present
  rw [Table.get?_mapValues, found, Option.map_some]

private theorem edge_corresponds (formedFirst : first.WellFormed)
    (iso : Skeleton.Iso first.skeleton second.skeleton) {id : EdgeId}
    (present : first.skeleton.HasEdge id) :
    ∃ edge other, first.edge? id = some edge ∧ second.edge? (iso.edge id) = some other ∧
      other.label = edge.label ∧ other.vertices = edge.vertices.map iso.vertex ∧
        ∀ vertex ∈ edge.vertices, first.hasVertex vertex = true := by
  obtain ⟨label, ends, stored⟩ := present
  obtain ⟨edge, here, rfl, rfl⟩ := Hypergraph.skeleton_edge_iff.mp stored
  obtain ⟨other, there, label, ends⟩ := Hypergraph.skeleton_edge_iff.mp (iso.edge_kept stored)
  exact ⟨edge, other, here, there, label, ends, fun vertex member => formedFirst.has_ends here member⟩

private theorem start_agree (formedFirst : first.WellFormed) (formedSecond : second.WellFormed) :
    Agree iso (start first (seededBy seed first)) (start second (seededBy seed second)) where
  covers := start_covers formedFirst
  coversOther := start_covers formedSecond
  vertex {vertex} present := by
    have inside : second.hasVertex (iso.vertex vertex) = true := iso.vertex_inside present
    exact (get?_mapVertices (fun _ => 1) inside).trans (get?_mapVertices (fun _ => 1) present).symm
  edge {id} present := by
    obtain ⟨edge, other, here, there, label, _⟩ := edge_corresponds formedFirst iso present
    simp only [start]
    rw [get?_ofSeeded formedFirst Prod.snd, get?_ofSeeded formedSecond Prod.snd, here, there,
      Option.map_some, Option.map_some, label]

private theorem refine_agree (formedFirst : first.WellFormed) (formedSecond : second.WellFormed)
    (agree : Agree iso one other) :
    Agree iso (refine first (seededBy seed first) one)
      (refine second (seededBy seed second) other) where
  covers := refine_covers formedFirst one
  coversOther := refine_covers formedSecond other
  vertex {vertex} present := by
    have inside : second.hasVertex (iso.vertex vertex) = true := iso.vertex_inside present
    have sums : (first.incident vertex).foldl (fun sum edge => sum + one.edges.getD edge 0)
        (one.vertices.getD vertex 0) =
        (second.incident (iso.vertex vertex)).foldl (fun sum edge => sum + other.edges.getD edge 0)
          (other.vertices.getD (iso.vertex vertex) 0) := by
      have swap : ∀ sum x y : UInt32, sum + x + y = sum + y + x := fun sum x y => by
        rw [UInt32.add_assoc, UInt32.add_comm x, UInt32.add_assoc]
      rw [← (Hypergraph.perm_incident formedFirst formedSecond iso present).foldl_eq'
        (fun _ _ _ _ sum => swap sum _ _),
        List.foldl_map, Table.getD_eq, Table.getD_eq, agree.vertex present]
      apply List.foldl_ext
      intro sum edge member
      obtain ⟨found, stored, _⟩ := formedFirst.mem_incident.mp member
      rw [Table.getD_eq, Table.getD_eq, agree.edge (Hypergraph.skeleton_hasEdge.mpr ⟨found, stored⟩)]
    simp only [refine]
    rw [get?_mapVertices
        (fun vertex => (second.incident vertex).foldl (fun sum edge => sum + other.edges.getD edge 0)
        (other.vertices.getD vertex 0)) inside,
      get?_mapVertices
        (fun vertex => (first.incident vertex).foldl (fun sum edge => sum + one.edges.getD edge 0)
        (one.vertices.getD vertex 0)) present, sums]
  edge {id} present := by
    obtain ⟨edge, image, here, there, label, ends, within⟩ := edge_corresponds formedFirst iso present
    have named := formedFirst.edge_id here
    have namedImage := formedSecond.edge_id there
    have words : image.vertices.map (fun vertex => other.vertices.getD vertex 0) =
        edge.vertices.map fun vertex => one.vertices.getD vertex 0 := by
      rw [ends, List.map_map]
      apply List.map_congr_left
      intro vertex member
      rw [Function.comp_apply, Table.getD_eq, Table.getD_eq, agree.vertex (within vertex member)]
    have word : other.edges.getD (iso.edge id) 0 = one.edges.getD id 0 := by
      rw [Table.getD_eq, Table.getD_eq, agree.edge present]
    simp only [refine]
    rw [get?_ofSeeded formedFirst fun entry => mixEdge entry.2 (one.edges.getD entry.1.id 0)
        (entry.1.vertices.map fun vertex => one.vertices.getD vertex 0),
      get?_ofSeeded formedSecond fun entry => mixEdge entry.2 (other.edges.getD entry.1.id 0)
        (entry.1.vertices.map fun vertex => other.vertices.getD vertex 0), here, there,
          Option.map_some, Option.map_some]
    rw [named, namedImage, words, word, label]

namespace Agree

theorem perm_vertices (agree : Agree iso one other) :
    List.Perm one.vertices.values other.vertices.values := by
  refine Listing.values_perm iso.vertex ?_ fun vertex member => ?_
  · rw [agree.covers.vertices, agree.coversOther.vertices]
    exact Hypergraph.perm_vertexIds iso
  · rw [agree.covers.vertices] at member
    exact agree.vertex (Hypergraph.mem_vertexIds.mp member)

theorem perm_edges (agree : Agree iso one other) : List.Perm one.edges.values other.edges.values := by
  refine Listing.values_perm iso.edge ?_ fun edge member => ?_
  · rw [agree.covers.edges, agree.coversOther.edges]
    exact Hypergraph.perm_edgeIds iso
  · rw [agree.covers.edges] at member
    exact agree.edge (Hypergraph.mem_edgeIds_iff.mp member)

theorem distinctCount_eq (agree : Agree iso one other) : one.distinctCount = other.distinctCount := by
  apply List.Perm.length_eq
  refine (List.perm_ext_iff_of_nodup Table.nodup_distinct Table.nodup_distinct).mpr fun word => ?_
  rw [Table.mem_distinct, Table.mem_distinct]
  exact (agree.perm_vertices.append agree.perm_edges).mem_iff

theorem summary_eq (agree : Agree iso one other) : one.summary first = other.summary second := by
  have vertices := (Hypergraph.perm_vertexIds iso).length_eq
  have edges := (Hypergraph.perm_edgeIds iso).length_eq
  rw [List.length_map, Hypergraph.length_vertexIds, Hypergraph.length_vertexIds] at vertices
  rw [List.length_map, Hypergraph.length_edgeIds, Hypergraph.length_edgeIds] at edges
  have total : one.all.foldl (· + ·) 0 = other.all.foldl (· + ·) 0 := by
    apply (agree.perm_vertices.append agree.perm_edges).foldl_eq'
    intro x _ y _ sum
    rw [UInt32.add_assoc, UInt32.add_comm x, UInt32.add_assoc]
  rw [summary, summary, vertices, edges, total]

end Agree

/-- The rounds go on in lock step, and the last one is the same for both. -/
theorem Settles.lockstep {rounds : Nat} {final : Signature}
    (settles : Settles first (seededBy seed first) one rounds final)
    (formedFirst : first.WellFormed) (formedSecond : second.WellFormed)
    (agree : Agree iso one other) :
    ∃ last, Settles second (seededBy seed second) other rounds last ∧ Agree iso final last := by
  induction settles generalizing other with
  | last still =>
    have next : Agree iso (refine first (seededBy seed first) _)
        (refine second (seededBy seed second) other) :=
      refine_agree formedFirst formedSecond agree
    rw [agree.distinctCount_eq, next.distinctCount_eq] at still
    exact ⟨_, .last still, next⟩
  | more apart _ ih =>
    have next : Agree iso (refine first (seededBy seed first) _)
        (refine second (seededBy seed second) other) :=
      refine_agree formedFirst formedSecond agree
    obtain ⟨last, later, result⟩ := ih next
    rw [agree.distinctCount_eq, next.distinctCount_eq] at apart
    exact ⟨last, .more apart later, result⟩

theorem ofSeeds_lockstep (seed : String → UInt32) (formedFirst : first.WellFormed)
    (formedSecond : second.WellFormed)
    (iso : Skeleton.Iso first.skeleton second.skeleton) {rounds : Nat}
    (settles : Settles first (seededBy seed first) (start first (seededBy seed first)) rounds
      (ofSeeds seed first)) :
    Settles second (seededBy seed second) (start second (seededBy seed second)) rounds
      (ofSeeds seed second) ∧
      Agree iso (ofSeeds seed first) (ofSeeds seed second) := by
  have begun : Agree iso (start first (seededBy seed first))
    (start second (seededBy seed second)) := start_agree formedFirst formedSecond
  obtain ⟨last, along, agree⟩ := settles.lockstep formedFirst formedSecond begun
  obtain ⟨others, _, again⟩ := ofSeeds_settles seed formedSecond
  obtain ⟨_, same⟩ := along.unique again
  rw [same]
  exact ⟨along, agree⟩

/-- Whatever words the labels start from, corresponding elements of isomorphic graphs end up with
the same signatures. -/
theorem ofSeeds_agree (seed : String → UInt32) (formedFirst : first.WellFormed)
    (formedSecond : second.WellFormed) (iso : Skeleton.Iso first.skeleton second.skeleton) :
    Agree iso (ofSeeds seed first) (ofSeeds seed second) := by
  obtain ⟨rounds, _, settles⟩ := ofSeeds_settles seed formedFirst
  exact (ofSeeds_lockstep seed formedFirst formedSecond iso settles).2

/-- Signatures do not see identifiers. Refinement ends after at most one round more than there are
elements, in the same round for isomorphic graphs, and then corresponding elements have the same
signature and the summaries are equal. -/
theorem ofSeeds_invariant (seed : String → UInt32) (formed : first.WellFormed) :
    ∃ rounds ≤ first.vertexCount + first.edgeCount + 1,
      Settles first (seededBy seed first) (start first (seededBy seed first)) rounds
        (ofSeeds seed first) ∧
      ∀ second, second.WellFormed → ∀ iso : Skeleton.Iso first.skeleton second.skeleton,
        Settles second (seededBy seed second) (start second (seededBy seed second)) rounds
          (ofSeeds seed second) ∧
        (∀ vertex, first.hasVertex vertex = true →
          ∃ word, (ofSeeds seed first).vertex? vertex = some word ∧
          (ofSeeds seed second).vertex? (iso.vertex vertex) = some word) ∧
        (∀ edge, first.hasEdge edge = true → ∃ word, (ofSeeds seed first).edge? edge = some word ∧
          (ofSeeds seed second).edge? (iso.edge edge) = some word) ∧
        (ofSeeds seed first).summary first = (ofSeeds seed second).summary second := by
  obtain ⟨rounds, within, settles⟩ := ofSeeds_settles seed formed
  refine ⟨rounds, within, settles, ?_⟩
  intro second formedSecond iso
  obtain ⟨along, agree⟩ := ofSeeds_lockstep seed formed formedSecond iso settles
  refine ⟨along, ?_, ?_, agree.summary_eq⟩
  · intro vertex present
    have listed : vertex ∈ (ofSeeds seed first).vertices.keys :=
      agree.covers.vertices ▸ Hypergraph.mem_vertexIds.mpr present
    obtain ⟨word, stored⟩ := Table.mem_keys_iff.mp listed
    exact ⟨word, stored, (agree.vertex present).trans stored⟩
  · intro edge present
    have listed : edge ∈ (ofSeeds seed first).edges.keys :=
      agree.covers.edges ▸ Table.mem_keys_iff_contains.mpr present
    obtain ⟨word, stored⟩ := Table.mem_keys_iff.mp listed
    have known : first.skeleton.HasEdge edge :=
      Hypergraph.skeleton_hasEdge.mpr (Option.isSome_iff_exists.mp present)
    exact ⟨word, stored, (agree.edge known).trans stored⟩

def straight : Hypergraph := .ofEdges 3 [("A", [0, 1]), ("B", [1, 2, 1])]

def turned : Hypergraph := .ofEdges 3 [("B", [1, 0, 1]), ("A", [2, 1])]

/-- The outer vertices change places, and so do the edges. -/
def turning : Skeleton.Iso straight.skeleton turned.skeleton :=
  Hypergraph.isoOfListed (fun vertex => ⟨2 - vertex.number⟩) (fun edge => ⟨7 - edge.number⟩)
    (by decide +kernel) (by decide +kernel) (by decide +kernel)

/-- Words that no digest is needed for. -/
def marks (label : String) : UInt32 := if label = "A" then 2 else 7

theorem ofSeeds_turned : ∃ rounds ≤ 6, ∃ word,
    Settles straight (seededBy marks straight) (start straight (seededBy marks straight)) rounds
      (ofSeeds marks straight) ∧
      Settles turned (seededBy marks turned) (start turned (seededBy marks turned)) rounds
        (ofSeeds marks turned) ∧
      (ofSeeds marks straight).vertex? ⟨0⟩ = some word ∧
      (ofSeeds marks turned).vertex? ⟨2⟩ = some word ∧
      (ofSeeds marks straight).summary straight = (ofSeeds marks turned).summary turned := by
  have formed : straight.WellFormed := by decide +kernel
  have formedTurned : turned.WellFormed := by decide +kernel
  obtain ⟨rounds, within, settles, alike⟩ := ofSeeds_invariant marks formed
  obtain ⟨along, vertices, _, summaries⟩ := alike turned formedTurned turning
  obtain ⟨word, stored, moved⟩ := vertices ⟨0⟩ (by decide +kernel)
  have size : straight.vertexCount + straight.edgeCount + 1 = 6 := by decide +kernel
  have place : turning.vertex ⟨0⟩ = ⟨2⟩ := rfl
  rw [size] at within
  rw [place] at moved
  exact ⟨rounds, within, word, settles, along, stored, moved, summaries⟩

end Lockstep

end Signature

end Coverability
