import Coverability.Order.Basic
import Coverability.Proofs.Skeleton
import Coverability.Table.Lemmas
import Mathlib.Data.List.Nodup

/-! Graphs whose tables agree with each other: the graphs that the operations build. Reading a graph
from outside promises nothing of this, so whatever needs it says so. -/

namespace Coverability

namespace Hypergraph

/-- How often a vertex occurs in an edge. -/
def occurrences (graph : Hypergraph) (edge : EdgeId) (vertex : VertexId) : Nat :=
  match graph.edge? edge with
  | some found => found.vertices.count vertex
  | none => 0

/-- Everything is stored under its own identifier, edges run between vertices of the graph, and the
incidence index lists an edge at a vertex once for every occurrence. -/
structure WellFormed (graph : Hypergraph) : Prop where
  vertex_keyed : ∀ entry ∈ graph.vertices.entries, entry.2.id = entry.1
  edge_keyed : ∀ entry ∈ graph.edges.entries, entry.2.id = entry.1
  attached : ∀ entry ∈ graph.edges.entries, ∀ vertex ∈ entry.2.vertices, graph.hasVertex vertex = true
  indexed : graph.incidence.keys = graph.vertexIds
  listed : ∀ entry ∈ graph.incidence.entries, ∀ edge ∈ entry.2 ++ graph.edgeIds,
    entry.2.count edge = graph.occurrences edge entry.1

instance (graph : Hypergraph) : Decidable graph.WellFormed :=
  decidable_of_iff
    ((∀ entry ∈ graph.vertices.entries, entry.2.id = entry.1) ∧
      (∀ entry ∈ graph.edges.entries, entry.2.id = entry.1) ∧
      (∀ entry ∈ graph.edges.entries, ∀ vertex ∈ entry.2.vertices, graph.hasVertex vertex = true) ∧
      graph.incidence.keys = graph.vertexIds ∧
      ∀ entry ∈ graph.incidence.entries, ∀ edge ∈ entry.2 ++ graph.edgeIds,
        entry.2.count edge = graph.occurrences edge entry.1)
    ⟨fun ⟨vertices, edges, attached, indexed, listed⟩ => ⟨vertices, edges, attached, indexed, listed⟩,
      fun formed =>
        ⟨formed.vertex_keyed, formed.edge_keyed, formed.attached, formed.indexed, formed.listed⟩⟩

variable {graph : Hypergraph} {vertex : VertexId} {id : EdgeId} {edge : Edge}

theorem mem_vertexIds : vertex ∈ graph.vertexIds ↔ graph.hasVertex vertex = true :=
  Table.mem_keys_iff_contains

theorem nodup_vertexIds : graph.vertexIds.Nodup := Table.nodup_keys

theorem length_vertexIds : graph.vertexIds.length = graph.vertexCount := Table.length_keys

theorem hasEdge_iff : graph.hasEdge id = true ↔ ∃ edge, graph.edge? id = some edge :=
  Table.contains_iff

theorem mem_edgeIds : id ∈ graph.edgeIds ↔ ∃ edge, graph.edge? id = some edge := Table.mem_keys_iff

theorem nodup_edgeIds : graph.edgeIds.Nodup := Table.nodup_keys

theorem length_edgeIds : graph.edgeIds.length = graph.edgeCount := Table.length_keys

theorem occurrences_of_some (found : graph.edge? id = some edge) :
    graph.occurrences id vertex = edge.vertices.count vertex := by
  rw [occurrences, found]

theorem skeleton_edge (found : graph.edge? id = some edge) :
    graph.skeleton.edge? id = some (edge.label, edge.vertices) := by
  simp [skeleton, found]

theorem skeleton_edge_iff {label : String} {ends : List VertexId} :
    graph.skeleton.edge? id = some (label, ends) ↔
    ∃ edge, graph.edge? id = some edge ∧ edge.label = label ∧ edge.vertices = ends := by
  simp [skeleton]

theorem skeleton_hasEdge : graph.skeleton.HasEdge id ↔ ∃ edge, graph.edge? id = some edge := by
  constructor
  · rintro ⟨label, ends, found⟩
    obtain ⟨edge, stored, _⟩ := skeleton_edge_iff.mp found
    exact ⟨edge, stored⟩
  · rintro ⟨edge, found⟩
    exact ⟨_, _, skeleton_edge found⟩

theorem mem_edgeIds_iff : id ∈ graph.edgeIds ↔ graph.skeleton.HasEdge id :=
  mem_edgeIds.trans skeleton_hasEdge.symm

namespace WellFormed

theorem edge_id (formed : graph.WellFormed) (found : graph.edge? id = some edge) : edge.id = id :=
  formed.edge_keyed (id, edge) (Table.mem_entries_iff.mpr found)

theorem has_ends (formed : graph.WellFormed) (found : graph.edge? id = some edge)
    (member : vertex ∈ edge.vertices) :
    graph.hasVertex vertex = true :=
  formed.attached (id, edge) (Table.mem_entries_iff.mpr found) vertex member

theorem closed (formed : graph.WellFormed) : graph.skeleton.Closed := by
  intro id label ends found vertex member
  obtain ⟨edge, stored, _, rfl⟩ := skeleton_edge_iff.mp found
  exact formed.has_ends stored member

theorem mem_edgeList (formed : graph.WellFormed) :
    edge ∈ graph.edgeList ↔ graph.edge? edge.id = some edge := by
  refine ⟨fun member => ?_, fun found => Table.mem_values_iff.mpr ⟨_, found⟩⟩
  obtain ⟨id, found⟩ := Table.mem_values_iff.mp member
  have same : edge.id = id := formed.edge_id found
  rwa [same]

theorem edgeList_ids (formed : graph.WellFormed) : graph.edgeList.map Edge.id = graph.edgeIds := by
  rw [edgeList, Table.values, List.map_map, edgeIds, Table.keys]
  exact List.map_congr_left formed.edge_keyed

theorem length_edgeList : graph.edgeList.length = graph.edgeCount := Table.length_values

theorem mem_edgesOfShape (formed : graph.WellFormed) {shape : String × Nat} :
    id ∈ graph.edgesOfShape shape ↔ ∃ edge, graph.edge? id = some edge ∧ edge.shape = shape := by
  simp only [edgesOfShape, List.mem_map, List.mem_filter, decide_eq_true_eq, formed.mem_edgeList]
  constructor
  · rintro ⟨edge, ⟨found, shaped⟩, rfl⟩
    exact ⟨edge, found, shaped⟩
  · rintro ⟨edge, found, shaped⟩
    have same := formed.edge_id found
    exact ⟨edge, ⟨same.symm ▸ found, shaped⟩, same⟩

theorem nodup_edgesOfShape (formed : graph.WellFormed) {shape : String × Nat} :
    (graph.edgesOfShape shape).Nodup := by
  have distinct : (graph.edgeList.map Edge.id).Nodup := formed.edgeList_ids ▸ nodup_edgeIds
  exact distinct.sublist (List.filter_sublist.map _)

/-- The index counts right at every vertex, also at those the graph lacks. -/
theorem count_incident (formed : graph.WellFormed) :
    (graph.incident vertex).count id = graph.occurrences id vertex := by
  cases stored : graph.incidence.get? vertex with
  | some listed =>
    rw [incident, Table.getD_eq, stored, Option.getD_some]
    have entry := Table.mem_entries_iff.mpr stored
    by_cases known : id ∈ listed ++ graph.edgeIds
    · exact formed.listed _ entry id known
    · rw [List.mem_append, not_or] at known
      have absent : graph.edge? id = none :=
        Option.eq_none_iff_forall_ne_some.mpr fun edge found =>
          known.2 (mem_edgeIds.mpr ⟨edge, found⟩)
      rw [List.count_eq_zero_of_not_mem known.1, occurrences, absent]
  | none =>
    rw [incident, Table.getD_eq, stored, Option.getD_none, List.count_nil]
    have missing : vertex ∉ graph.vertexIds := by
      rw [← formed.indexed, Table.mem_keys_iff, stored]
      simp
    cases found : graph.edge? id with
    | none => rw [occurrences, found]
    | some edge =>
      rw [occurrences_of_some found]
      exact (List.count_eq_zero_of_not_mem fun member =>
        missing (mem_vertexIds.mpr (formed.has_ends found member))).symm

theorem mem_incident (formed : graph.WellFormed) :
    id ∈ graph.incident vertex ↔ ∃ edge, graph.edge? id = some edge ∧ vertex ∈ edge.vertices := by
  rw [← List.count_pos_iff, formed.count_incident]
  cases found : graph.edge? id with
  | none => simp [occurrences, found]
  | some edge => simp [occurrences_of_some found]

theorem incident?_eq (formed : graph.WellFormed) (present : graph.hasVertex vertex = true) :
    graph.incident? vertex = some (graph.incident vertex) := by
  have listed : vertex ∈ graph.incidence.keys := formed.indexed ▸ mem_vertexIds.mpr present
  obtain ⟨edges, stored⟩ := Table.mem_keys_iff.mp listed
  rw [incident?, incident, Table.getD_eq, stored, Option.getD_some]

theorem mem_isolatedVertices (formed : graph.WellFormed) : vertex ∈ graph.isolatedVertices ↔
    graph.hasVertex vertex = true ∧ ∀ id edge, graph.edge? id = some edge →
      vertex ∉ edge.vertices := by
  have isolated : vertex ∈ graph.isolatedVertices ↔ graph.incidence.get? vertex = some [] := by
    simp [isolatedVertices, ← Table.mem_entries_iff]
  rw [isolated]
  constructor
  · intro stored
    have present : vertex ∈ graph.vertexIds := formed.indexed ▸ Table.mem_keys_iff.mpr ⟨_, stored⟩
    refine ⟨mem_vertexIds.mp present, fun id edge found member => ?_⟩
    have inside := formed.mem_incident.mpr ⟨edge, found, member⟩
    rw [incident, Table.getD_eq, stored] at inside
    cases inside
  · rintro ⟨present, apart⟩
    have empty : graph.incident vertex = [] := by
      rw [List.eq_nil_iff_forall_not_mem]
      intro id member
      obtain ⟨edge, found, inside⟩ := formed.mem_incident.mp member
      exact apart id edge found inside
    exact (formed.incident?_eq present).trans (congrArg some empty)

theorem nodup_isolatedVertices : graph.isolatedVertices.Nodup :=
  Table.nodup_keys.sublist (List.filter_sublist.map _)

end WellFormed

end Hypergraph

end Coverability
