import Coverability.Proofs.Operations

/-! What is left after a deletion. The index tells which edges leave together with a vertex, and
they are those that a scan of all edges would find. Nothing else changes: the edges that stay are as
they were, and the lists of the index have lost the edges that left and kept their order. -/

namespace Coverability

namespace Hypergraph

variable {graph now after : Hypergraph} {gone others : List VertexId} {lost more : List EdgeId}
  {vertex : VertexId} {id : EdgeId}

/-- The listed vertices and edges have left a graph and its index, and all else is as it was. -/
structure Spares (graph : Hypergraph) (gone : List VertexId) (lost : List EdgeId)
    (after : Hypergraph) : Prop where
  name : after.name = graph.name
  nextId : after.nextId = graph.nextId
  vertices : ∀ vertex, after.vertices.get? vertex = if vertex ∈ gone then none
    else graph.vertices.get? vertex
  edges : ∀ id, after.edge? id = if id ∈ lost then none else graph.edge? id
  incident : ∀ vertex, after.incident? vertex =
    if vertex ∈ gone then none else (graph.incident? vertex).map (·.filter (· ∉ lost))

namespace Spares

theorem refl (graph : Hypergraph) : graph.Spares [] [] graph where
  name := rfl
  nextId := rfl
  vertices _ := rfl
  edges _ := rfl
  incident vertex := by simp

theorem trans (first : graph.Spares gone lost now) (second : now.Spares others more after) :
    graph.Spares (gone ++ others) (lost ++ more) after where
  name := second.name.trans first.name
  nextId := second.nextId.trans first.nextId
  vertices vertex := by
    rw [second.vertices, first.vertices]
    by_cases later : vertex ∈ others <;> simp [later]
  edges id := by
    rw [second.edges, first.edges]
    by_cases later : id ∈ more <;> simp [later]
  incident vertex := by
    rw [second.incident, first.incident]
    by_cases later : vertex ∈ others
    · simp [later]
    · by_cases earlier : vertex ∈ gone
      · simp [earlier]
      · simp [earlier, later, Function.comp_def, List.filter_filter, Bool.and_comm]

end Spares

/-- Where the tables agree, a list at a vertex that the edge does not touch has nothing to lose. -/
theorem WellFormed.filter_listed (formed : graph.WellFormed) {listed : List EdgeId}
    (stored : graph.incident? vertex = some listed)
    (apart : ∀ edge, graph.edge? id = some edge → vertex ∉ edge.vertices) :
    listed.filter (· ∉ [id]) = listed := by
  have same : graph.incident vertex = listed := congrArg (Option.getD · []) stored
  apply List.filter_eq_self.mpr
  intro other member
  have different : other ≠ id := by
    intro equal
    subst equal
    obtain ⟨edge, found, inside⟩ := formed.mem_incident.mp (same ▸ member)
    exact apart edge found inside
  simpa using different

theorem deleteEdge_spares (formed : graph.WellFormed) (id : EdgeId) :
    graph.Spares [] [id] (graph.deleteEdge id) where
  name := name_deleteEdge
  nextId := nextId_deleteEdge
  vertices vertex := by rw [vertices_deleteEdge, if_neg List.not_mem_nil]
  edges other := by simp only [edge?_deleteEdge, List.mem_singleton]
  incident vertex := by
    rw [if_neg List.not_mem_nil]
    cases found : graph.edge? id with
    | none =>
      rw [deleteEdge_of_none found]
      cases stored : graph.incident? vertex with
      | none => rfl
      | some listed =>
        rw [Option.map_some, formed.filter_listed stored fun edge other =>
          by cases found.symm.trans other]
    | some edge =>
      rw [incident?_deleteEdge found]
      cases stored : graph.incident? vertex with
      | none => rfl
      | some listed =>
        rw [Option.map_some, Option.map_some]
        split
        next touched => simp only [List.mem_singleton]
        next untouched =>
          have apart : ∀ other, graph.edge? id = some other → vertex ∉ other.vertices := by
            intro other known
            cases found.symm.trans known
            exact mt List.mem_eraseDups.mpr untouched
          rw [formed.filter_listed stored apart]

/-- Edges deleted one after another leave together. -/
theorem deleteEdges_spares (formed : graph.WellFormed) (ids : List EdgeId) :
    graph.Spares [] ids (ids.foldl deleteEdge graph) := by
  induction ids generalizing graph with
  | nil => exact .refl graph
  | cons first rest ih =>
    exact (deleteEdge_spares formed first).trans (ih (deleteEdge_wellFormed formed))

/-- A vertex that no edge touches leaves alone. -/
theorem erase_spares (graph : Hypergraph) (vertex : VertexId) :
    graph.Spares [vertex] [] { graph with
      vertices := graph.vertices.erase vertex
      incidence := graph.incidence.erase vertex } where
  name := rfl
  nextId := rfl
  vertices other := by simp only [Table.get?_erase, List.mem_singleton]
  edges _ := rfl
  incident other := by
    change (graph.incidence.erase vertex).get? other = _
    simp [Table.get?_erase, incident?]

theorem deleteVertex?_spares (formed : graph.WellFormed) (present : graph.hasVertex vertex = true) :
    ∃ after, graph.deleteVertex? vertex = some (Table.distinct (graph.incident vertex), after) ∧
      graph.Spares [vertex] (Table.distinct (graph.incident vertex)) after := by
  refine ⟨_, if_pos present, ?_⟩
  have spares :=
    (deleteEdges_spares formed (Table.distinct (graph.incident vertex))).trans (erase_spares _ vertex)
  rwa [List.nil_append, List.append_nil] at spares

/-- A vertex leaves with the edges that it occurs in, told ascending and each once, and an edge
leaves alone. Nothing else changes, and to delete what is not there changes nothing. -/
theorem delete_exact (formed : graph.WellFormed) :
    (∀ vertex, graph.hasVertex vertex = true →
      ∃ lost after, graph.deleteVertex? vertex = some (lost, after) ∧
      graph.deleteVertex vertex = after ∧
      lost.Pairwise (fun first second => first.number < second.number) ∧
      (∀ id, id ∈ lost ↔ ∃ edge, graph.edge? id = some edge ∧ vertex ∈ edge.vertices) ∧
      graph.Spares [vertex] lost after) ∧
    (∀ vertex, graph.hasVertex vertex = false → graph.deleteVertex? vertex = none ∧
      graph.deleteVertex vertex = graph) ∧
    (∀ id, graph.hasEdge id = true → graph.Spares [] [id] (graph.deleteEdge id)) ∧
    ∀ id, graph.hasEdge id = false → graph.deleteEdge id = graph := by
  refine ⟨?_, ?_, ?_, ?_⟩
  · intro vertex present
    obtain ⟨after, result, spares⟩ := deleteVertex?_spares formed present
    refine ⟨_, after, result, ?_, ?_, ?_, spares⟩
    · rw [deleteVertex, result]
      rfl
    · exact (Table.keys_ascending _).imp Id.compare_lt_iff.mp
    · intro id
      rw [Table.mem_distinct]
      exact formed.mem_incident
  · intro vertex absent
    have missed : graph.deleteVertex? vertex = none := if_neg (Bool.eq_false_iff.mp absent)
    refine ⟨missed, ?_⟩
    rw [deleteVertex, missed]
    rfl
  · intro id _
    exact deleteEdge_spares formed id
  · intro id absent
    apply deleteEdge_of_none
    exact Option.not_isSome_iff_eq_none.mp (Bool.eq_false_iff.mp absent)

/-- Two of the edges meet the vertex, one of them twice, and the one that stays is listed between them. -/
theorem deleteVertex_looped : ∃ after,
    (ofEdges 3 [("E", [0, 1, 2]), ("F", [1, 2]), ("G", [2, 0, 0, 2])]).deleteVertex? ⟨0⟩ =
      some ([⟨3⟩, ⟨5⟩], after) ∧
      after.incident? ⟨2⟩ = some [⟨4⟩] ∧ after.incident? ⟨0⟩ = none ∧
      after.edge? ⟨4⟩ = some ⟨⟨4⟩, "F", [⟨1⟩, ⟨2⟩]⟩ ∧
      after.nextId = 6 := by
  have formed : (ofEdges 3 [("E", [0, 1, 2]), ("F", [1, 2]), ("G", [2, 0, 0, 2])]).WellFormed := by
    decide +kernel
  obtain ⟨lost, after, result, _, _, _, spares⟩ := (delete_exact formed).1 ⟨0⟩ (by decide +kernel)
  have told :
      ((ofEdges 3 [("E", [0, 1, 2]), ("F", [1, 2]), ("G", [2, 0, 0, 2])]).deleteVertex? ⟨0⟩).map
        Prod.fst = some [⟨3⟩, ⟨5⟩] := by
    decide +kernel
  rw [result, Option.map_some, Option.some.injEq] at told
  subst told
  refine ⟨after, result, ?_, ?_, ?_, ?_⟩
  · rw [spares.incident]
    decide +kernel
  · rw [spares.incident]
    decide +kernel
  · rw [spares.edges]
    decide +kernel
  · rw [spares.nextId]
    decide +kernel

end Hypergraph

end Coverability
