import Coverability.Proofs.Operations
import Mathlib.Algebra.Ring.Nat

/-! Reading a graph off its edges alone. Where the tables agree, whatever is looked up in the
incidence index is what going through all edges would give, so the graph passes its own check.
Tables that contradict each other pass it just if they agree on what the check is about: the keys of
the index, and how often it lists an identifier. -/

namespace Coverability

variable {edges : List Edge} {edge : Edge} {vertex : VertexId} {id : EdgeId}

/-- The edges at a vertex, one entry per incidence, found by going through the listed edges. -/
def Edge.incidences (edges : List Edge) (vertex : VertexId) : List EdgeId :=
  edges.flatMap fun edge => List.replicate (edge.vertices.count vertex) edge.id

private theorem Edge.count_incidences_of_absent (absent : id ∉ edges.map Edge.id) :
    (incidences edges vertex).count id = 0 := by
  apply List.count_eq_zero.mpr
  intro member
  obtain ⟨edge, listed, inside⟩ := List.mem_flatMap.mp member
  apply absent
  exact List.mem_map.mpr ⟨edge, listed, (List.eq_of_mem_replicate inside).symm⟩

private theorem Edge.count_incidences (distinct : (edges.map Edge.id).Nodup) (listed : edge ∈ edges) :
    (incidences edges vertex).count edge.id = edge.vertices.count vertex := by
  obtain ⟨before, behind, rfl⟩ := List.append_of_mem listed
  rw [List.map_append, List.map_cons] at distinct
  obtain ⟨_, distinctBehind, apart⟩ := List.nodup_append.mp distinct
  have absentBefore : edge.id ∉ before.map Edge.id :=
    fun member => apart _ member _ List.mem_cons_self rfl
  have absentBehind : edge.id ∉ behind.map Edge.id := (List.nodup_cons.mp distinctBehind).1
  have split : incidences (before ++ edge :: behind) vertex =
      incidences before vertex ++
        (List.replicate (edge.vertices.count vertex) edge.id ++ incidences behind vertex) := by
    simp only [incidences, List.flatMap_append, List.flatMap_cons]
  rw [split, List.count_append, List.count_append, count_incidences_of_absent absentBefore,
    count_incidences_of_absent absentBehind, List.count_replicate_self]
  omega

/-- Under an identifier that several edges carry, all of them count. -/
theorem Edge.count_incidences_eq_sum (edges : List Edge) : (incidences edges vertex).count id =
    ((edges.filter fun edge => edge.id = id).map fun edge => edge.vertices.count vertex).sum := by
  induction edges with
  | nil => rfl
  | cons first rest ih =>
    rw [incidences, List.flatMap_cons, List.count_append, List.count_replicate, ← incidences, ih]
    by_cases same : first.id = id
    · rw [List.filter_cons_of_pos (by simpa using same), List.map_cons, List.sum_cons,
        if_pos (beq_iff_eq.mpr same)]
    · rw [List.filter_cons_of_neg (by simpa using same), if_neg (mt beq_iff_eq.mp same), Nat.zero_add]

namespace Hypergraph

variable {graph : Hypergraph}

private theorem foldlM_ends {ends : List VertexId} {index : Table VertexId (List EdgeId)}
    (inside : ∀ vertex ∈ ends, index.contains vertex = true) :
    ends.foldlM
      (fun index vertex => if index.contains vertex then some (index.modify vertex (· ++ [id]))
        else none) index =
      some (ends.foldl (fun index vertex => index.modify vertex (· ++ [id])) index) := by
  induction ends generalizing index with
  | nil => rfl
  | cons first rest ih =>
    rw [List.forall_mem_cons] at inside
    rw [List.foldlM_cons, if_pos inside.1]
    apply ih
    intro vertex member
    exact Table.contains_mapValues.trans (inside.2 vertex member)

private theorem foldlM_edges {index : Table VertexId (List EdgeId)}
    (inside : ∀ edge ∈ edges, ∀ vertex ∈ edge.vertices, index.contains vertex = true) :
    ∃ expected, edges.foldlM (fun index edge => edge.vertices.foldlM (fun index vertex =>
        if index.contains vertex then some (index.modify vertex (· ++ [edge.id])) else none) index)
          index = some expected ∧
      ∀ vertex, expected.get? vertex =
        (index.get? vertex).map (· ++ Edge.incidences edges vertex) := by
  induction edges generalizing index with
  | nil => exact ⟨index, rfl, fun vertex => by simp [Edge.incidences]⟩
  | cons first rest ih =>
    rw [List.forall_mem_cons] at inside
    rw [List.foldlM_cons, foldlM_ends inside.1]
    have after vertex :
        (first.vertices.foldl (fun index vertex => index.modify vertex (· ++ [first.id]))
          index).get? vertex =
        (index.get? vertex).map (· ++ List.replicate (first.vertices.count vertex) first.id) :=
      get?_append first.vertices index
    have kept : ∀ edge ∈ rest, ∀ vertex ∈ edge.vertices,
        (first.vertices.foldl (fun index vertex => index.modify vertex (· ++ [first.id]))
          index).contains vertex = true := by
      intro edge listed vertex member
      rw [Table.contains, after, Option.isSome_map]
      exact inside.2 edge listed vertex member
    obtain ⟨expected, made, lookups⟩ := ih kept
    refine ⟨expected, made, ?_⟩
    intro vertex
    rw [lookups, after, Option.map_map]
    congr 1
    funext listed
    simp [Edge.incidences]

private theorem foldlM_ends_absent {ends : List VertexId} {index : Table VertexId (List EdgeId)}
    (member : vertex ∈ ends) (absent : index.contains vertex = false) :
    ends.foldlM
      (fun index vertex => if index.contains vertex then some (index.modify vertex (· ++ [id]))
        else none) index = none := by
  induction ends generalizing index with
  | nil => cases member
  | cons first rest ih =>
    rw [List.foldlM_cons]
    by_cases inside : index.contains first = true
    · rw [if_pos inside]
      rcases List.mem_cons.mp member with rfl | later
      · rw [absent] at inside
        cases inside
      · exact ih later (Table.contains_mapValues.trans absent)
    · rw [if_neg inside]
      rfl

private theorem foldlM_edges_absent {index : Table VertexId (List EdgeId)} (listed : edge ∈ edges)
    (member : vertex ∈ edge.vertices) (absent : index.contains vertex = false) :
    edges.foldlM (fun index edge => edge.vertices.foldlM (fun index vertex =>
      if index.contains vertex then some (index.modify vertex (· ++ [edge.id])) else none) index)
        index = none := by
  induction edges generalizing index with
  | nil => cases listed
  | cons first rest ih =>
    rw [List.foldlM_cons]
    by_cases inside : ∀ vertex ∈ first.vertices, index.contains vertex = true
    · rw [foldlM_ends inside]
      rcases List.mem_cons.mp listed with rfl | later
      · rw [inside vertex member] at absent
        cases absent
      · refine ih later ?_
        rw [Table.contains, get?_append, Option.isSome_map]
        exact absent
    · push Not at inside
      obtain ⟨other, atOther, missing⟩ := inside
      rw [foldlM_ends_absent atOther (by simpa using missing)]
      rfl

/-- All vertices of all edges are in the vertex table. -/
def Attached (graph : Hypergraph) : Prop :=
  ∀ edge ∈ graph.edgeList, ∀ vertex ∈ edge.vertices, graph.hasVertex vertex = true

theorem expectedIncidence_of_attached (attached : graph.Attached) :
    ∃ expected, graph.expectedIncidence = some expected ∧
    ∀ vertex, expected.get? vertex = if graph.hasVertex vertex
      then some (Edge.incidences graph.edgeList vertex) else none := by
  have inside : ∀ edge ∈ graph.edgeList, ∀ vertex ∈ edge.vertices,
      (graph.vertices.mapValues fun _ _ => ([] : List EdgeId)).contains vertex = true := by
    intro edge listed vertex member
    exact Table.contains_mapValues.trans (attached edge listed vertex member)
  obtain ⟨expected, made, lookups⟩ := foldlM_edges inside
  refine ⟨expected, made, ?_⟩
  intro vertex
  rw [lookups, Table.get?_mapValues, hasVertex, Table.contains]
  cases graph.vertices.get? vertex with
  | none => rfl
  | some vertex => rfl

theorem expectedIncidence_eq_none (loose : ¬graph.Attached) : graph.expectedIncidence = none := by
  unfold Attached at loose
  push Not at loose
  obtain ⟨edge, listed, vertex, member, missing⟩ := loose
  exact foldlM_edges_absent listed member
    (Table.contains_mapValues.trans (Bool.not_eq_true _ ▸ missing))

theorem incidences_eq_nil (attached : graph.Attached) (absent : graph.hasVertex vertex = false) :
    Edge.incidences graph.edgeList vertex = [] := by
  apply List.flatMap_eq_nil_iff.mpr
  intro edge listed
  have apart : vertex ∉ edge.vertices := by
    intro member
    rw [attached edge listed vertex member] at absent
    cases absent
  rw [List.count_eq_zero.mpr apart, List.replicate_zero]

private theorem contains_incidence (size : graph.vertexIds.length = graph.incidence.keys.length)
    (inside : graph.vertexIds ⊆ graph.incidence.keys) (vertex : VertexId) :
    graph.incidence.contains vertex = graph.hasVertex vertex := by
  -- As many keys as vertices, and every vertex among them, leaves no room for another key.
  have same : graph.vertexIds.Perm graph.incidence.keys :=
    (List.subperm_of_subset nodup_vertexIds inside).perm_of_length_le (Nat.le_of_eq size.symm)
  rw [Bool.eq_iff_iff, ← Table.mem_keys_iff_contains, ← mem_vertexIds, same.mem_iff]

/-- The check compares sizes and looks up the expected keys only. -/
theorem isConsistent_iff_perm :
    graph.isConsistent = true ↔ graph.Attached ∧ graph.incidence.keys = graph.vertexIds ∧
    ∀ vertex, (graph.incident vertex).Perm (Edge.incidences graph.edgeList vertex) := by
  by_cases attached : graph.Attached
  case neg => simp [isConsistent, expectedIncidence_eq_none attached, attached]
  obtain ⟨expected, made, lookups⟩ := expectedIncidence_of_attached attached
  have expectedKeys : expected.keys = graph.vertexIds := by
    apply Table.keys_eq_of_contains
    intro vertex
    rw [Table.contains, lookups, hasVertex]
    cases graph.vertices.contains vertex <;> rfl
  have decided : graph.isConsistent = true ↔ graph.vertexIds.length = graph.incidence.keys.length ∧
      ∀ vertex, graph.hasVertex vertex = true →
        ∃ stored, graph.incident? vertex = some stored ∧
          stored.Perm (Edge.incidences graph.edgeList vertex) := by
    rw [isConsistent, made, ← expectedKeys, Table.length_keys, Table.length_keys]
    simp only [Bool.and_eq_true, beq_iff_eq, List.all_eq_true, Prod.forall, Table.mem_entries_iff,
      lookups, Option.ite_none_right_eq_some, Option.some.injEq]
    refine and_congr_right fun _ => forall_congr' fun vertex => ?_
    cases graph.incident? vertex <;> simp [List.isPerm_iff]
  rw [decided]
  constructor
  · rintro ⟨size, covered⟩
    have inside : graph.vertexIds ⊆ graph.incidence.keys := by
      intro vertex member
      obtain ⟨stored, found, _⟩ := covered vertex (mem_vertexIds.mp member)
      exact Table.mem_keys_iff.mpr ⟨stored, found⟩
    have keys := contains_incidence size inside
    refine ⟨attached, Table.keys_eq_of_contains keys, ?_⟩
    intro vertex
    by_cases present : graph.hasVertex vertex = true
    · obtain ⟨stored, found, perm⟩ := covered vertex present
      rwa [incident, Table.getD_eq, show graph.incidence.get? vertex = some stored from found]
    · rw [Bool.not_eq_true] at present
      have missing := keys vertex
      rw [present, Table.contains, Option.isSome_eq_false_iff, Option.isNone_iff_eq_none] at missing
      rw [incident, Table.getD_eq, missing, incidences_eq_nil attached present]
      exact .nil
  · rintro ⟨_, keys, perm⟩
    refine ⟨by rw [keys], ?_⟩
    intro vertex present
    obtain ⟨stored, found⟩ := Table.mem_keys_iff.mp (keys ▸ mem_vertexIds.mpr present)
    have held := perm vertex
    rw [incident, Table.getD_eq, found] at held
    exact ⟨stored, found, held⟩

/-- What the index holds is what the edges call for, and whatever is read from it can be read
off the edges. -/
structure Recomputed (graph : Hypergraph) : Prop where
  consistent : graph.isConsistent = true
  unlisted : ∀ vertex, graph.hasVertex vertex = false → graph.incident? vertex = none
  incident : ∀ vertex, graph.hasVertex vertex = true →
    ∃ listed, graph.incident? vertex = some listed ∧
      listed.Perm (Edge.incidences graph.edgeList vertex)
  degree : ∀ vertex, graph.degree vertex =
    (graph.edgeList.map fun edge => edge.vertices.count vertex).sum
  isolated : ∀ vertex, graph.isIsolated vertex = true ↔
    graph.hasVertex vertex = true ∧ ∀ edge ∈ graph.edgeList, vertex ∉ edge.vertices
  isolatedVertices : graph.isolatedVertices = graph.vertexIds.filter fun vertex =>
    graph.edgeList.all fun edge => vertex ∉ edge.vertices

namespace WellFormed

theorem incident?_absent (formed : graph.WellFormed) (absent : graph.hasVertex vertex = false) :
    graph.incident? vertex = none := by
  rw [← formed.indexed_iff] at absent
  exact Option.isSome_eq_false_iff.mp absent |> Option.isNone_iff_eq_none.mp

/-- Also at a vertex that the graph lacks, where there is nothing on either side. -/
theorem incident_perm (formed : graph.WellFormed) (vertex : VertexId) :
    (graph.incident vertex).Perm (Edge.incidences graph.edgeList vertex) := by
  apply List.perm_iff_count.mpr
  intro id
  rw [formed.count_incident]
  have distinct : (graph.edgeList.map Edge.id).Nodup := formed.edgeList_ids ▸ nodup_edgeIds
  cases found : graph.edge? id with
  | none =>
    have absent : id ∉ graph.edgeList.map Edge.id := by
      rw [formed.edgeList_ids, mem_edgeIds, found]
      simp
    rw [occurrences, found, Edge.count_incidences_of_absent absent]
  | some edge =>
    have same := formed.edge_id found
    subst same
    rw [occurrences_of_some found, Edge.count_incidences distinct (formed.mem_edgeList.mpr found)]

private theorem incident_eq_nil (formed : graph.WellFormed) :
    graph.incident vertex = [] ↔ ∀ edge ∈ graph.edgeList, vertex ∉ edge.vertices := by
  rw [List.eq_nil_iff_forall_not_mem]
  constructor
  · intro none edge listed member
    exact none edge.id (formed.mem_incident.mpr ⟨edge, formed.mem_edgeList.mp listed, member⟩)
  · intro apart id inside
    obtain ⟨edge, found, member⟩ := formed.mem_incident.mp inside
    have same := formed.edge_id found
    subst same
    exact apart edge (formed.mem_edgeList.mpr found) member

private theorem consistent (formed : graph.WellFormed) : graph.isConsistent = true := by
  apply isConsistent_iff_perm.mpr
  refine ⟨?_, formed.indexed, formed.incident_perm⟩
  intro edge listed vertex member
  exact formed.has_ends (formed.mem_edgeList.mp listed) member

theorem recomputed (formed : graph.WellFormed) : graph.Recomputed where
  consistent := formed.consistent
  unlisted vertex absent := formed.incident?_absent absent
  incident vertex present := ⟨_, formed.incident?_eq present, formed.incident_perm vertex⟩
  degree vertex := by
    rw [degree, (formed.incident_perm vertex).length_eq, Edge.incidences, List.length_flatMap]
    simp only [List.length_replicate]
  isolated vertex := by
    rw [isIsolated, beq_iff_eq]
    cases present : graph.hasVertex vertex with
    | false => simp [formed.incident?_absent present]
    | true => simp [formed.incident?_eq present, formed.incident_eq_nil]
  isolatedVertices := by
    rw [isolatedVertices, ← formed.indexed, Table.keys, List.filter_map]
    congr 1
    apply List.filter_congr
    intro entry member
    have stored : graph.incidence.get? entry.1 = some entry.2 := Table.mem_entries_iff.mp member
    have held : graph.incident entry.1 =
      entry.2 := by rw [incident, Table.getD_eq, stored, Option.getD_some]
    rw [Bool.eq_iff_iff, List.isEmpty_iff, ← held, formed.incident_eq_nil]
    simp

end WellFormed

/-- The check passes just if all vertices of all edges are there, the index has the keys of the
vertex table, and it lists an edge's identifier under a vertex as often as the vertex occurs in the
edges that carry the identifier, whatever they are stored under. -/
theorem isConsistent_exact (graph : Hypergraph) : graph.isConsistent = true ↔
    (∀ edge ∈ graph.edgeList, ∀ vertex ∈ edge.vertices, graph.hasVertex vertex = true) ∧
    graph.incidence.keys = graph.vertexIds ∧
    ∀ vertex id, (graph.incident vertex).count id =
      ((graph.edgeList.filter fun edge => edge.id = id).map fun edge =>
        edge.vertices.count vertex).sum := by
  rw [isConsistent_iff_perm]
  refine and_congr_right fun _ => and_congr_right fun _ => forall_congr' fun vertex => ?_
  rw [List.perm_iff_count]
  refine forall_congr' fun id => ?_
  rw [Edge.count_incidences_eq_sum]

-- Two edges carry one identifier, and neither is stored under it.
example : isConsistent {
    vertices := .ofList [(⟨0⟩, ⟨⟨0⟩⟩)]
    edges := .ofList [(⟨7⟩, ⟨⟨3⟩, "A", [⟨0⟩]⟩), (⟨8⟩, ⟨⟨3⟩, "B", [⟨0⟩, ⟨0⟩]⟩)]
    incidence := .ofList [(⟨0⟩, [⟨3⟩, ⟨3⟩, ⟨3⟩])] } = true := by decide

end Hypergraph

end Coverability
