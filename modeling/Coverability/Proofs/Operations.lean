import Coverability.Proofs.WellFormed

/-! What the operations on graphs do, said by lookups, and that they keep graphs well-formed. An
operation that takes an identifier needs the counter to be ahead of all identifiers in use, and to
stay below its range. -/

namespace Coverability

namespace Table

variable {κ α β : Type} [Ord κ] [Std.TransOrd κ] [Std.LawfulEqOrd κ]

omit [Std.TransOrd κ] [Std.LawfulEqOrd κ] in
theorem keys_mapValues (table : Table κ α) {change : κ → α → β} :
    (table.mapValues change).keys = table.keys := by
  simp [keys, mapValues]

/-- Keys are sorted, so tables that contain the same keys list them alike. -/
theorem keys_eq_of_contains {first : Table κ α} {second : Table κ β}
    (same : ∀ key, first.contains key = second.contains key) :
    first.keys = second.keys := by
  have tables : (first.mapValues fun _ _ => ()) = second.mapValues fun _ _ => () := by
    refine eq_of_get? fun key => ?_
    have here := same key
    rw [get?_mapValues, get?_mapValues]
    rw [contains, contains] at here
    cases left : first.get? key <;> cases right : second.get? key <;> simp_all
  rw [← keys_mapValues first, tables, keys_mapValues]

theorem contains_eq_of_keys {first : Table κ α} {second : Table κ β}
    (same : first.keys = second.keys) (key : κ) :
    first.contains key = second.contains key := by
  rw [Bool.eq_iff_iff, ← mem_keys_iff_contains, ← mem_keys_iff_contains, same]

end Table

namespace Hypergraph

variable {graph : Hypergraph} {vertex other : VertexId} {id : EdgeId} {edge : Edge}

/-- All identifiers in use are behind the counter. -/
structure Numbered (graph : Hypergraph) : Prop where
  vertices_below : ∀ vertex ∈ graph.vertexIds, vertex.number < graph.nextId
  edges_below : ∀ edge ∈ graph.edgeIds, edge.number < graph.nextId

instance (graph : Hypergraph) : Decidable graph.Numbered :=
  decidable_of_iff ((∀ vertex ∈ graph.vertexIds, vertex.number < graph.nextId) ∧
    ∀ edge ∈ graph.edgeIds, edge.number < graph.nextId)
    ⟨fun ⟨vertices, edges⟩ => ⟨vertices, edges⟩,
      fun numbered => ⟨numbered.vertices_below, numbered.edges_below⟩⟩

/-- There is a number left for another identifier. -/
def HasRoom (graph : Hypergraph) : Prop := graph.nextId + 1 < wordRange

instance (graph : Hypergraph) : Decidable graph.HasRoom := Nat.decLt _ _

theorem counted_eq (room : graph.HasRoom) : graph.counted = graph.nextId + 1 := Nat.mod_eq_of_lt room

theorem nextId_addVertex (room : graph.HasRoom) :
    graph.addVertex.2.nextId = graph.nextId + 1 := counted_eq room

theorem Numbered.fresh_vertex (numbered : graph.Numbered) :
    graph.hasVertex ⟨graph.nextId⟩ = false := by
  rw [← Bool.not_eq_true, ← mem_vertexIds]
  exact fun member => Nat.lt_irrefl _ (numbered.vertices_below _ member)

theorem Numbered.fresh_edge (numbered : graph.Numbered) : graph.edge? ⟨graph.nextId⟩ = none := by
  refine Option.eq_none_iff_forall_ne_some.mpr fun edge found => ?_
  exact Nat.lt_irrefl _ (numbered.edges_below _ (mem_edgeIds.mpr ⟨edge, found⟩))

theorem WellFormed.of_lookups
    (vertex_id : ∀ {vertex stored}, graph.vertices.get? vertex = some stored → stored.id = vertex)
    (edge_id : ∀ {id edge}, graph.edge? id = some edge → edge.id = id)
    (ends : ∀ {id edge vertex}, graph.edge? id = some edge → vertex ∈ edge.vertices →
      graph.hasVertex vertex = true)
    (indexed : ∀ vertex, graph.incidence.contains vertex = graph.hasVertex vertex)
    (count : ∀ vertex id, graph.hasVertex vertex = true →
      (graph.incident vertex).count id = graph.occurrences id vertex) :
    graph.WellFormed where
  vertex_keyed entry member := vertex_id (Table.mem_entries_iff.mp member)
  edge_keyed entry member := edge_id (Table.mem_entries_iff.mp member)
  attached entry member vertex inside := ends (Table.mem_entries_iff.mp member) inside
  indexed := Table.keys_eq_of_contains indexed
  listed entry member edge _ := by
    have stored := Table.mem_entries_iff.mp member
    have present : graph.hasVertex entry.1 = true := by
      rw [← indexed, Table.contains, stored, Option.isSome_some]
    rw [← count entry.1 edge present, incident, Table.getD_eq, stored, Option.getD_some]

theorem WellFormed.vertex_id (formed : graph.WellFormed) {stored : Vertex}
    (found : graph.vertices.get? vertex = some stored) :
    stored.id = vertex :=
  formed.vertex_keyed (vertex, stored) (Table.mem_entries_iff.mpr found)

theorem WellFormed.indexed_iff (formed : graph.WellFormed) (vertex : VertexId) :
    graph.incidence.contains vertex = graph.hasVertex vertex :=
  Table.contains_eq_of_keys formed.indexed vertex

theorem hasVertex_addVertex :
    graph.addVertex.2.hasVertex other = (decide (other = ⟨graph.nextId⟩) || graph.hasVertex other) :=
  Table.contains_insert

theorem addVertex_wellFormed (formed : graph.WellFormed) (numbered : graph.Numbered) :
    graph.addVertex.2.WellFormed := by
  have fresh := numbered.fresh_vertex
  refine .of_lookups (fun {vertex stored} found => ?_) formed.edge_id (fun found member => ?_)
    (fun vertex => ?_) fun vertex id present => ?_
  · change (graph.vertices.insert _ _).get? vertex = _ at found
    rw [Table.get?_insert] at found
    split at found
    next same =>
      cases Option.some.inj found
      exact same.symm
    · exact formed.vertex_id found
  · rw [hasVertex_addVertex, formed.has_ends found member, Bool.or_true]
  · rw [hasVertex_addVertex, ← formed.indexed_iff]
    exact Table.contains_insert
  · change ((graph.incidence.insert _ _).getD vertex []).count id = _
    rw [Table.getD_eq, Table.get?_insert]
    split
    next same =>
      subst same
      change 0 = graph.occurrences id _
      cases found : graph.edge? id with
      | none => rw [occurrences, found]
      | some edge =>
        rw [occurrences_of_some found, eq_comm, List.count_eq_zero]
        intro member
        rw [formed.has_ends found member] at fresh
        cases fresh
    · exact formed.count_incident

theorem addVertex_numbered (numbered : graph.Numbered) (room : graph.HasRoom) :
    graph.addVertex.2.Numbered := by
  have next := nextId_addVertex room
  refine ⟨fun vertex member => ?_, fun edge member => ?_⟩
  · rw [mem_vertexIds, hasVertex_addVertex, Bool.or_eq_true, decide_eq_true_iff] at member
    rw [next]
    rcases member with rfl | old
    · exact Nat.lt_succ_self _
    · exact Nat.lt_succ_of_lt (numbered.vertices_below _ (mem_vertexIds.mpr old))
  · rw [next]
    exact Nat.lt_succ_of_lt (numbered.edges_below edge member)

theorem get?_append (vertices : List VertexId) (index : Table VertexId (List EdgeId)) :
    (vertices.foldl (fun index vertex => index.modify vertex (· ++ [id])) index).get? other =
      (index.get? other).map (· ++ List.replicate (vertices.count other) id) := by
  induction vertices generalizing index with
  | nil => simp
  | cons first rest ih =>
    rw [List.foldl_cons, ih, Table.get?_modify, Option.map_map]
    congr 1
    funext listed
    by_cases same : other = first
    · subst same
      rw [List.count_cons_self, Function.comp_apply, if_pos rfl, List.append_assoc,
        List.singleton_append, ← List.replicate_succ]
    · rw [List.count_cons_of_ne (Ne.symm same), Function.comp_apply, if_neg same]

/-- What adding an edge does, where it succeeds. -/
theorem addEdge_ok {label : String} {ends : List VertexId} {fresh : EdgeId} {result : Hypergraph}
    (added : graph.addEdge label ends = .ok (fresh, result)) :
    (∀ vertex ∈ ends, graph.hasVertex vertex = true) ∧ fresh = ⟨graph.nextId⟩ ∧ result = { graph with
      nextId := graph.counted
      edges := graph.edges.insert ⟨graph.nextId⟩ ⟨⟨graph.nextId⟩, label, ends⟩
      incidence :=
        ends.foldl (fun index vertex => index.modify vertex (· ++ [⟨graph.nextId⟩]))
          graph.incidence } := by
  rw [addEdge] at added
  split at added
  · cases added
  next none =>
    obtain ⟨rfl, rfl⟩ := Prod.mk.inj (Except.ok.inj added)
    refine ⟨fun vertex member => ?_, rfl, rfl⟩
    simpa using List.find?_eq_none.mp none vertex member

theorem addEdge_succeeds {label : String} {ends : List VertexId}
    (inside : ∀ vertex ∈ ends, graph.hasVertex vertex = true) :
    ∃ result, graph.addEdge label ends = .ok result := by
  have none : (ends.find? fun vertex => !graph.hasVertex vertex) = none :=
    List.find?_eq_none.mpr fun vertex member => by simp [inside vertex member]
  rw [addEdge, none]
  exact ⟨_, rfl⟩

section AddEdge

variable {label : String} {ends : List VertexId} {fresh : EdgeId} {result : Hypergraph}
  (added : graph.addEdge label ends = .ok (fresh, result))

include added

theorem addEdge_id : fresh = ⟨graph.nextId⟩ := (addEdge_ok added).2.1

theorem edge?_addEdge :
    result.edge? id = if id = ⟨graph.nextId⟩ then some ⟨⟨graph.nextId⟩, label, ends⟩
      else graph.edge? id := by
  rw [(addEdge_ok added).2.2]
  exact Table.get?_insert

theorem hasVertex_addEdge : result.hasVertex vertex = graph.hasVertex vertex := by
  rw [(addEdge_ok added).2.2]
  rfl

theorem nextId_addEdge : result.nextId = graph.counted := by
  rw [(addEdge_ok added).2.2]

theorem addEdge_wellFormed (formed : graph.WellFormed) (numbered : graph.Numbered) :
    result.WellFormed := by
  have inside := (addEdge_ok added).1
  have absent := numbered.fresh_edge
  have index : ∀ vertex, result.incidence.get? vertex =
      (graph.incidence.get? vertex).map (· ++ List.replicate (ends.count vertex) ⟨graph.nextId⟩) := by
    intro vertex
    rw [(addEdge_ok added).2.2]
    exact get?_append ends graph.incidence
  refine .of_lookups (fun {vertex stored} found => ?_) (fun {id edge} found => ?_)
    (fun {id edge vertex} found member => ?_)
    (fun vertex => ?_) fun vertex id present => ?_
  · rw [(addEdge_ok added).2.2] at found
    exact formed.vertex_id found
  · rw [edge?_addEdge added] at found
    split at found
    next same =>
      cases Option.some.inj found
      exact same.symm
    · exact formed.edge_id found
  · rw [edge?_addEdge added] at found
    rw [hasVertex_addEdge added]
    split at found
    · cases Option.some.inj found
      exact inside vertex member
    · exact formed.has_ends found member
  · rw [Table.contains, index, Option.isSome_map, hasVertex_addEdge added,
      ← formed.indexed_iff, Table.contains]
  · rw [hasVertex_addEdge added] at present
    have stored : graph.incidence.get? vertex = some (graph.incident vertex) :=
      formed.incident?_eq present
    rw [incident, Table.getD_eq, index, stored, Option.map_some, Option.getD_some,
      List.count_append, List.count_replicate, formed.count_incident]
    by_cases same : id = ⟨graph.nextId⟩
    · have new : result.edge? id = some ⟨⟨graph.nextId⟩, label, ends⟩ := by
        rw [edge?_addEdge added, if_pos same]
      have old : graph.occurrences id vertex = 0 := by rw [occurrences, same, absent]
      rw [old, occurrences_of_some new, if_pos (by simpa using same.symm), Nat.zero_add]
    · have kept : result.edge? id = graph.edge? id := by rw [edge?_addEdge added, if_neg same]
      rw [if_neg (by simpa using Ne.symm same), Nat.add_zero, occurrences, occurrences, kept]

theorem addEdge_numbered (numbered : graph.Numbered) (room : graph.HasRoom) : result.Numbered := by
  have next := (nextId_addEdge added).trans (counted_eq room)
  refine ⟨fun vertex member => ?_, fun edge member => ?_⟩
  · rw [mem_vertexIds, hasVertex_addEdge added] at member
    exact next ▸ Nat.lt_succ_of_lt (numbered.vertices_below _ (mem_vertexIds.mpr member))
  · obtain ⟨stored, found⟩ := mem_edgeIds.mp member
    rw [edge?_addEdge added] at found
    rw [next]
    split at found
    next same =>
      subst same
      exact Nat.lt_succ_self _
    · exact Nat.lt_succ_of_lt (numbered.edges_below _ (mem_edgeIds.mpr ⟨_, found⟩))

end AddEdge

private theorem get?_remove (vertices : List VertexId) (index : Table VertexId (List EdgeId)) :
    (vertices.foldl (fun index vertex => index.modify vertex (·.filter (· ≠ id))) index).get? other =
      (index.get? other).map fun listed => if other ∈ vertices then listed.filter (· ≠ id)
        else listed := by
  induction vertices generalizing index with
  | nil => simp
  | cons first rest ih =>
    rw [List.foldl_cons, ih, Table.get?_modify, Option.map_map]
    congr 1
    funext listed
    by_cases same : other = first
    · by_cases later : other ∈ rest <;> simp [same, List.filter_filter]
    · simp [same]

theorem deleteEdge_of_none (absent : graph.edge? id = none) : graph.deleteEdge id = graph := by
  rw [deleteEdge, absent]

theorem edge?_deleteEdge {kept : EdgeId} :
    (graph.deleteEdge id).edge? kept = if kept = id then none else graph.edge? kept := by
  cases found : graph.edge? id with
  | none =>
    rw [deleteEdge_of_none found]
    split
    next same => rw [same, found]
    · rfl
  | some edge =>
    rw [deleteEdge, found]
    exact Table.get?_erase

theorem hasVertex_deleteEdge : (graph.deleteEdge id).hasVertex vertex = graph.hasVertex vertex := by
  rw [deleteEdge]
  split <;> rfl

theorem nextId_deleteEdge : (graph.deleteEdge id).nextId = graph.nextId := by
  rw [deleteEdge]
  split <;> rfl

theorem name_deleteEdge : (graph.deleteEdge id).name = graph.name := by
  rw [deleteEdge]
  split <;> rfl

theorem vertices_deleteEdge : (graph.deleteEdge id).vertices = graph.vertices := by
  rw [deleteEdge]
  split <;> rfl

/-- The index is changed at the vertices of the edge only. -/
theorem incident?_deleteEdge (found : graph.edge? id = some edge) :
    (graph.deleteEdge id).incident? vertex =
    (graph.incident? vertex).map fun listed =>
      if vertex ∈ edge.distinctVertices then listed.filter (· ≠ id) else listed := by
  rw [deleteEdge, found]
  exact get?_remove edge.distinctVertices graph.incidence

theorem deleteEdge_wellFormed (formed : graph.WellFormed) : (graph.deleteEdge id).WellFormed := by
  cases found : graph.edge? id with
  | none => rwa [deleteEdge_of_none found]
  | some edge =>
    have index : ∀ vertex, (graph.deleteEdge id).incidence.get? vertex =
        (graph.incidence.get? vertex).map fun listed =>
        if vertex ∈ edge.distinctVertices then listed.filter (· ≠ id) else listed :=
          fun vertex => incident?_deleteEdge found
    refine .of_lookups (fun {vertex stored} known => ?_) (fun {kept edge} known => ?_)
      (fun {kept edge vertex} known member => ?_)
      (fun vertex => ?_) fun vertex kept present => ?_
    · rw [deleteEdge, found] at known
      exact formed.vertex_id known
    · rw [edge?_deleteEdge] at known
      split at known
      · cases known
      · exact formed.edge_id known
    · rw [edge?_deleteEdge] at known
      rw [hasVertex_deleteEdge]
      split at known
      · cases known
      · exact formed.has_ends known member
    · rw [Table.contains, index, Option.isSome_map, hasVertex_deleteEdge,
        ← formed.indexed_iff, Table.contains]
    · rw [hasVertex_deleteEdge] at present
      have stored : graph.incidence.get? vertex = some (graph.incident vertex) :=
        formed.incident?_eq present
      rw [incident, Table.getD_eq, index, stored, Option.map_some, Option.getD_some]
      have before : (graph.incident vertex).count kept = graph.occurrences kept vertex :=
        formed.count_incident
      by_cases same : kept = id
      · subst same
        have gone : (graph.deleteEdge kept).occurrences kept vertex =
          0 := by rw [occurrences, edge?_deleteEdge, if_pos rfl]
        rw [gone]
        split
        · rw [List.count_eq_zero]
          simp
        next apart =>
          rw [before, occurrences_of_some found, List.count_eq_zero]
          exact fun member => apart (List.mem_eraseDups.mpr member)
      · have stays : (graph.deleteEdge id).occurrences kept vertex =
            graph.occurrences kept vertex := by
          rw [occurrences, occurrences, edge?_deleteEdge, if_neg same]
        rw [stays, ← before]
        split
        · exact List.count_filter (by simpa using same)
        · rfl

theorem deleteEdge_numbered (numbered : graph.Numbered) : (graph.deleteEdge id).Numbered := by
  refine ⟨fun vertex member => ?_, fun edge member => ?_⟩
  · rw [mem_vertexIds, hasVertex_deleteEdge] at member
    rw [nextId_deleteEdge]
    exact numbered.vertices_below _ (mem_vertexIds.mpr member)
  · obtain ⟨stored, found⟩ := mem_edgeIds.mp member
    rw [edge?_deleteEdge] at found
    split at found
    · cases found
    · rw [nextId_deleteEdge]
      exact numbered.edges_below _ (mem_edgeIds.mpr ⟨_, found⟩)

theorem edge?_deleteEdges {ids : List EdgeId} :
    (ids.foldl deleteEdge graph).edge? id = if id ∈ ids then none else graph.edge? id := by
  induction ids generalizing graph with
  | nil => simp
  | cons first rest ih =>
    rw [List.foldl_cons, ih, edge?_deleteEdge]
    by_cases later : id ∈ rest <;> by_cases same : id = first <;> simp [later, same]

theorem hasVertex_deleteEdges (ids : List EdgeId) :
    (ids.foldl deleteEdge graph).hasVertex vertex = graph.hasVertex vertex := by
  induction ids generalizing graph with
  | nil => rfl
  | cons first rest ih => rw [List.foldl_cons, ih, hasVertex_deleteEdge]

theorem nextId_deleteEdges {ids : List EdgeId} :
    (ids.foldl deleteEdge graph).nextId = graph.nextId := by
  induction ids generalizing graph with
  | nil => rfl
  | cons first rest ih => rw [List.foldl_cons, ih, nextId_deleteEdge]

theorem deleteEdges_wellFormed (formed : graph.WellFormed) (ids : List EdgeId) :
    (ids.foldl deleteEdge graph).WellFormed := by
  induction ids generalizing graph with
  | nil => exact formed
  | cons first rest ih => exact ih (deleteEdge_wellFormed formed)

private theorem deleteVertex_eq (present : graph.hasVertex vertex = true) :
    graph.deleteVertex vertex =
    let rest := (Table.distinct (graph.incident vertex)).foldl deleteEdge graph
    { rest with
      vertices := rest.vertices.erase vertex
      incidence := rest.incidence.erase vertex } := by
  rw [deleteVertex, deleteVertex?, if_pos present]
  rfl

private theorem deleteVertex_of_absent (absent : graph.hasVertex vertex = false) :
    graph.deleteVertex vertex = graph := by
  rw [deleteVertex, deleteVertex?, if_neg (by simp [absent])]
  rfl

theorem hasVertex_deleteVertex :
    (graph.deleteVertex vertex).hasVertex other =
      (!decide (other = vertex) && graph.hasVertex other) := by
  cases present : graph.hasVertex vertex with
  | false =>
    rw [deleteVertex_of_absent present]
    by_cases same : other = vertex
    · rw [same, present, Bool.and_false]
    · simp [same]
  | true =>
    rw [deleteVertex_eq present]
    change (Table.erase _ vertex).contains other = _
    rw [Table.contains_erase]
    exact congrArg _ (hasVertex_deleteEdges _)

theorem edge?_deleteVertex (formed : graph.WellFormed) :
    (graph.deleteVertex vertex).edge? id = (graph.edge? id).filter fun edge =>
      vertex ∉ edge.vertices := by
  cases present : graph.hasVertex vertex with
  | false =>
    rw [deleteVertex_of_absent present]
    cases found : graph.edge? id with
    | none => rfl
    | some edge =>
      have apart : vertex ∉ edge.vertices := by
        intro member
        rw [formed.has_ends found member] at present
        cases present
      simp [Option.filter, apart]
  | true =>
    rw [deleteVertex_eq present]
    change ((Table.distinct (graph.incident vertex)).foldl deleteEdge graph).edge? id = _
    rw [edge?_deleteEdges]
    cases found : graph.edge? id with
    | none => simp
    | some edge =>
      have listed : id ∈ Table.distinct (graph.incident vertex) ↔ vertex ∈ edge.vertices := by
        rw [Table.mem_distinct, formed.mem_incident, found]
        simp
      by_cases member : vertex ∈ edge.vertices
      · simp [Option.filter, listed, member]
      · simp [Option.filter, listed, member]

theorem nextId_deleteVertex : (graph.deleteVertex vertex).nextId = graph.nextId := by
  cases present : graph.hasVertex vertex with
  | false => rw [deleteVertex_of_absent present]
  | true =>
    rw [deleteVertex_eq present]
    exact nextId_deleteEdges

theorem deleteVertex_wellFormed (formed : graph.WellFormed) :
    (graph.deleteVertex vertex).WellFormed := by
  cases present : graph.hasVertex vertex with
  | false => rwa [deleteVertex_of_absent present]
  | true =>
    have formedRest := deleteEdges_wellFormed formed (Table.distinct (graph.incident vertex))
    have edges : ∀ id, (graph.deleteVertex vertex).edge? id = (graph.edge? id).filter fun edge =>
        vertex ∉ edge.vertices :=
      fun id => edge?_deleteVertex formed
    have vertices : ∀ other, (graph.deleteVertex vertex).hasVertex other =
        (!decide (other = vertex) && graph.hasVertex other) :=
      fun other => hasVertex_deleteVertex
    have rest : (graph.deleteVertex vertex).edge? =
        ((Table.distinct (graph.incident vertex)).foldl deleteEdge graph).edge? := by
      rw [deleteVertex_eq present]
      rfl
    refine .of_lookups (fun {other stored} known => ?_) (fun {kept edge} known => ?_)
      (fun {kept edge other} known member => ?_)
      (fun other => ?_) fun other kept inside => ?_
    · rw [deleteVertex_eq present] at known
      change (Table.erase _ vertex).get? other = _ at known
      rw [Table.get?_erase] at known
      split at known
      · cases known
      · exact formedRest.vertex_id known
    · exact formedRest.edge_id (rest ▸ known)
    · rw [edges, Option.filter_eq_some_iff, decide_eq_true_iff] at known
      rw [vertices, formed.has_ends known.1 member, Bool.and_true]
      have different : other ≠ vertex := fun same => known.2 (same ▸ member)
      simpa using different
    · rw [vertices, ← hasVertex_deleteEdges (Table.distinct (graph.incident vertex)),
        ← formedRest.indexed_iff, deleteVertex_eq present]
      exact Table.contains_erase
    · rw [vertices, Bool.and_eq_true] at inside
      have different : other ≠ vertex := by simpa using inside.1
      have occurs : (graph.deleteVertex vertex).occurrences kept other =
          ((Table.distinct (graph.incident vertex)).foldl deleteEdge graph).occurrences
            kept other := by
        rw [occurrences, occurrences, rest]
      rw [occurs, ← formedRest.count_incident, deleteVertex_eq present]
      change (List.count kept ((Table.erase _ vertex).getD other [])) = _
      rw [Table.getD_eq, Table.get?_erase, if_neg different]
      rfl

theorem deleteVertex_numbered (formed : graph.WellFormed) (numbered : graph.Numbered) :
    (graph.deleteVertex vertex).Numbered := by
  refine ⟨fun other member => ?_, fun edge member => ?_⟩
  · rw [mem_vertexIds, hasVertex_deleteVertex, Bool.and_eq_true] at member
    rw [nextId_deleteVertex]
    exact numbered.vertices_below _ (mem_vertexIds.mpr member.2)
  · obtain ⟨stored, found⟩ := mem_edgeIds.mp member
    rw [edge?_deleteVertex formed, Option.filter_eq_some_iff] at found
    rw [nextId_deleteVertex]
    exact numbered.edges_below _ (mem_edgeIds.mpr ⟨_, found.1⟩)

/-- Graphs made from nothing by adding and deleting. -/
inductive Built : Hypergraph → Prop where
  | named (name : String) : Built (.named name)
  | addVertex {graph : Hypergraph} (built : Built graph) (room : graph.HasRoom) :
    Built graph.addVertex.2
  | addEdge {graph result : Hypergraph} {label : String} {ends : List VertexId} {fresh : EdgeId}
      (built : Built graph)
      (room : graph.HasRoom) (added : graph.addEdge label ends = .ok (fresh, result)) : Built result
  | deleteEdge {graph : Hypergraph} (built : Built graph) (id : EdgeId) : Built (graph.deleteEdge id)
  | deleteVertex {graph : Hypergraph} (built : Built graph) (vertex : VertexId) :
    Built (graph.deleteVertex vertex)

theorem Built.formed (built : Built graph) : graph.WellFormed ∧ graph.Numbered := by
  induction built with
  | named name => exact ⟨.of_lookups nofun nofun nofun (fun _ => rfl) nofun, nofun, nofun⟩
  | addVertex _ room ih => exact ⟨addVertex_wellFormed ih.1 ih.2, addVertex_numbered ih.2 room⟩
  | addEdge _ room added ih =>
    exact ⟨addEdge_wellFormed added ih.1 ih.2, addEdge_numbered added ih.2 room⟩
  | deleteEdge _ _ ih => exact ⟨deleteEdge_wellFormed ih.1, deleteEdge_numbered ih.2⟩
  | deleteVertex _ _ ih => exact ⟨deleteVertex_wellFormed ih.1, deleteVertex_numbered ih.1 ih.2⟩

/-- The graph with the first few vertices and the listed edges, as far as their vertices exist. -/
def ofEdges (count : Nat) (edges : List (String × List Nat)) : Hypergraph :=
  edges.foldl (fun graph edge =>
    match graph.addEdge edge.1 (edge.2.map Id.mk) with
    | .ok (_, graph) => graph
    | .error _ => graph) ((named "").addVertices count).2

end Hypergraph

end Coverability
