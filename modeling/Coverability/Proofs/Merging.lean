import Coverability.Hypergraph.Merge
import Coverability.Proofs.Operations

/-! Merging vertices and edges. Wherever the merged vertex occurred the kept one occurs instead, so
tables that agree go on agreeing. No merge takes an identifier or adds anything. This holds as well
of one that stops at a fault, since that is made of the merges before it. -/

namespace Coverability

variable {graph after last : Hypergraph} {source target vertex : VertexId} {id : EdgeId} {edge : Edge}

/-- The edge after one vertex has taken the place of another. -/
def Edge.redirected (edge : Edge) (source target : VertexId) : Edge :=
  { edge with vertices := edge.vertices.map fun vertex => if vertex = source then target else vertex }

theorem Edge.redirected_of_not_mem (apart : source ∉ edge.vertices) :
    edge.redirected source target = edge := by
  have same : edge.vertices.map (fun vertex => if vertex = source then target else vertex) =
      edge.vertices := by
    apply (List.map_congr_left _).trans (List.map_id' _)
    intro vertex member
    have different : vertex ≠ source := fun same => apart (same ▸ member)
    exact if_neg different
  rw [redirected, same]

theorem Edge.mem_redirected : vertex ∈ (edge.redirected source target).vertices ↔
    vertex ≠ source ∧ vertex ∈ edge.vertices ∨ vertex = target ∧ source ∈ edge.vertices := by
  simp only [redirected, List.mem_map]
  constructor
  · intro known
    obtain ⟨old, member, same⟩ := known
    split at same
    next moved => exact .inr ⟨same.symm, moved ▸ member⟩
    next stays => exact .inl (same ▸ ⟨stays, member⟩)
  · intro known
    rcases known with ⟨stays, member⟩ | ⟨same, member⟩
    · exact ⟨vertex, member, if_neg stays⟩
    · exact ⟨source, member, (if_pos rfl).trans same.symm⟩

theorem Edge.count_redirected (different : source ≠ target) :
    (edge.redirected source target).vertices.count vertex =
    if vertex = source then 0
    else if vertex = target then edge.vertices.count target + edge.vertices.count source
    else edge.vertices.count vertex := by
  rw [redirected]
  induction edge.vertices with
  | nil => simp
  | cons first rest ih =>
    simp only [List.map_cons, List.count_cons, ih, beq_iff_eq]
    split <;> split <;> grind

namespace Hypergraph

private theorem get?_redirected {ids : List EdgeId} (distinct : ids.Nodup)
    (edges : Table EdgeId Edge) :
    (ids.foldl (fun edges id => edges.modify id (Edge.redirected · source target)) edges).get? id =
      (edges.get? id).map fun edge => if id ∈ ids then edge.redirected source target else edge := by
  induction ids generalizing edges with
  | nil => simp
  | cons first rest ih =>
    obtain ⟨missing, distinct⟩ := List.nodup_cons.mp distinct
    rw [List.foldl_cons, ih distinct, Table.get?_modify, Option.map_map]
    congr 1
    funext edge
    by_cases same : id = first
    · simp [same, missing]
    · simp [same]

theorem hasVertex_redirect :
    (graph.redirect source target).hasVertex vertex =
      (!decide (vertex = source) && graph.hasVertex vertex) :=
  Table.contains_erase

theorem nextId_redirect : (graph.redirect source target).nextId = graph.nextId := rfl

theorem edge?_redirect (formed : graph.WellFormed) :
    (graph.redirect source target).edge? id =
      (graph.edge? id).map (Edge.redirected · source target) := by
  have rewired : (graph.redirect source target).edge? id = (graph.edge? id).map fun edge =>
      if id ∈ Table.distinct (graph.incident source) then edge.redirected source target else edge :=
    get?_redirected Table.nodup_distinct graph.edges
  rw [rewired]
  cases found : graph.edge? id with
  | none => rfl
  | some edge =>
    have listed : id ∈ Table.distinct (graph.incident source) ↔ source ∈ edge.vertices := by
      simp [Table.mem_distinct, formed.mem_incident, found]
    by_cases member : source ∈ edge.vertices
    · simp [listed, member]
    · simp [listed, member, Edge.redirected_of_not_mem member]

private theorem incidence_redirect : (graph.redirect source target).incidence.get? vertex =
    if vertex = source then none
    else (graph.incidence.get? vertex).map fun listed =>
      if vertex = target then listed ++ graph.incident source else listed := by
  change ((graph.incidence.erase source).modify target _).get? vertex = _
  rw [Table.get?_modify, Table.get?_erase]
  by_cases gone : vertex = source <;> simp [gone]

theorem occurrences_redirect (formed : graph.WellFormed) (different : source ≠ target) :
    (graph.redirect source target).occurrences id vertex =
      if vertex = source then 0
      else if vertex = target then graph.occurrences id target + graph.occurrences id source
      else graph.occurrences id vertex := by
  simp only [occurrences, edge?_redirect formed]
  cases graph.edge? id with
  | none => simp
  | some edge => exact edge.count_redirected different

theorem redirect_wellFormed (formed : graph.WellFormed) (present : graph.hasVertex target = true)
    (different : source ≠ target) :
    (graph.redirect source target).WellFormed := by
  apply WellFormed.of_lookups
  · intro vertex stored found
    change (graph.vertices.erase source).get? vertex = _ at found
    rw [Table.get?_erase] at found
    split at found
    · cases found
    · exact formed.vertex_id found
  · intro id edge found
    rw [edge?_redirect formed] at found
    obtain ⟨old, stored, rfl⟩ := Option.map_eq_some_iff.mp found
    exact (formed.edge_id stored : old.id = id)
  · intro id edge vertex found member
    rw [edge?_redirect formed] at found
    obtain ⟨old, stored, rfl⟩ := Option.map_eq_some_iff.mp found
    rw [hasVertex_redirect]
    rcases Edge.mem_redirected.mp member with ⟨stays, member⟩ | ⟨rfl, member⟩
    · simp [stays, formed.has_ends stored member]
    · simp [different.symm, present]
  · intro vertex
    rw [hasVertex_redirect, ← formed.indexed_iff, Table.contains, Table.contains, incidence_redirect]
    by_cases same : vertex = source <;> simp [same]
  · intro vertex id inside
    rw [hasVertex_redirect, Bool.and_eq_true] at inside
    obtain ⟨stays, known⟩ := inside
    have stays : vertex ≠ source := by simpa using stays
    have stored : graph.incidence.get? vertex = some (graph.incident vertex) :=
      formed.incident?_eq known
    rw [occurrences_redirect formed different, if_neg stays, incident, Table.getD_eq,
      incidence_redirect, if_neg stays, stored, Option.map_some, Option.getD_some]
    by_cases same : vertex = target
    · rw [if_pos same, if_pos same, List.count_append, formed.count_incident,
        formed.count_incident, same]
    · rw [if_neg same, if_neg same, formed.count_incident]

/-- Nothing has been added, no identifier has been taken, and the tables agree. -/
structure Shrinks (graph after : Hypergraph) : Prop where
  formed : after.WellFormed
  nextId : after.nextId = graph.nextId
  vertices : ∀ vertex, after.hasVertex vertex = true → graph.hasVertex vertex = true
  edges : ∀ id, after.hasEdge id = true → graph.hasEdge id = true

theorem Shrinks.refl (formed : graph.WellFormed) : graph.Shrinks graph :=
  ⟨formed, rfl, fun _ => id, fun _ => id⟩

theorem Shrinks.trans (first : graph.Shrinks after) (second : after.Shrinks last) :
    graph.Shrinks last where
  formed := second.formed
  nextId := second.nextId.trans first.nextId
  vertices vertex present := first.vertices vertex (second.vertices vertex present)
  edges id present := first.edges id (second.edges id present)

theorem deleteEdge_shrinks (formed : graph.WellFormed) (id : EdgeId) :
    graph.Shrinks (graph.deleteEdge id) := by
  refine ⟨deleteEdge_wellFormed formed, nextId_deleteEdge, ?_, ?_⟩
  · intro vertex present
    rwa [hasVertex_deleteEdge] at present
  · intro other present
    change ((graph.deleteEdge id).edge? other).isSome = true at present
    rw [edge?_deleteEdge] at present
    split at present
    · cases present
    · exact present

theorem deleteVertex_shrinks (formed : graph.WellFormed) (vertex : VertexId) :
    graph.Shrinks (graph.deleteVertex vertex) := by
  refine ⟨deleteVertex_wellFormed formed, nextId_deleteVertex, ?_, ?_⟩
  · intro other present
    rw [hasVertex_deleteVertex, Bool.and_eq_true] at present
    exact present.2
  · intro id present
    obtain ⟨edge, found⟩ := Option.isSome_iff_exists.mp present
    have found : (graph.deleteVertex vertex).edge? id = some edge := found
    rw [edge?_deleteVertex formed, Option.filter_eq_some_iff] at found
    exact Option.isSome_iff_exists.mpr ⟨edge, found.1⟩

theorem redirect_shrinks (formed : graph.WellFormed) (present : graph.hasVertex target = true)
    (different : source ≠ target) :
    graph.Shrinks (graph.redirect source target) := by
  refine ⟨redirect_wellFormed formed present different, nextId_redirect, ?_, ?_⟩
  · intro vertex inside
    rw [hasVertex_redirect, Bool.and_eq_true] at inside
    exact inside.2
  · intro id inside
    change ((graph.redirect source target).edge? id).isSome = true at inside
    rwa [edge?_redirect formed, Option.isSome_map] at inside

theorem mergeVertices_shrinks (formed : graph.WellFormed) (kept merged : VertexId) :
    graph.Shrinks (graph.mergeVertices kept merged).2 := by
  rw [mergeVertices]
  split
  · exact .refl formed
  next different =>
    split
    · exact .refl formed
    next known =>
      have present : graph.hasVertex kept = true := by
        have all := List.find?_eq_none.mp known kept List.mem_cons_self
        simpa using all
      exact redirect_shrinks formed present (Ne.symm different)

theorem mergeAllVertices_shrinks (formed : graph.WellFormed) (kept : VertexId)
    (rest : List VertexId) :
    graph.Shrinks (graph.mergeAllVertices kept rest).2 := by
  induction rest generalizing graph kept with
  | nil => exact .refl formed
  | cons vertex rest ih =>
    have step := mergeVertices_shrinks formed kept vertex
    rw [mergeAllVertices]
    split
    next same =>
      rw [same] at step
      exact step.trans (ih step.formed _)
    next same =>
      rw [same] at step
      exact step

theorem mergeVertexSet_shrinks (formed : graph.WellFormed) (vertices : List VertexId) :
    graph.Shrinks (graph.mergeVertexSet vertices).2 := by
  cases vertices with
  | nil => exact .refl formed
  | cons first rest => exact mergeAllVertices_shrinks formed first rest

theorem mergePositions_shrinks (formed : graph.WellFormed) (kept merged : EdgeId)
    (positions : List Nat) :
    graph.Shrinks (graph.mergePositions kept merged positions).2 := by
  induction positions generalizing graph with
  | nil => exact .refl formed
  | cons position rest ih =>
    rw [mergePositions]
    dsimp only
    split
    next one other _ _ =>
      have step := mergeVertices_shrinks formed one other
      split
      next same =>
        rw [same] at step
        exact step.trans (ih step.formed)
      next same =>
        rw [same] at step
        exact step
    · exact .refl formed

theorem mergeEdges_shrinks (formed : graph.WellFormed) (kept merged : EdgeId) :
    graph.Shrinks (graph.mergeEdges kept merged).2 := by
  rw [mergeEdges]
  split
  · exact .refl formed
  split
  next one other _ _ =>
    split
    · exact .refl formed
    · have step := mergePositions_shrinks formed kept merged (List.range one.arity)
      split
      next same =>
        rw [same] at step
        exact step.trans (deleteEdge_shrinks step.formed merged)
      next same =>
        rw [same] at step
        exact step
  · exact .refl formed

theorem mergeAllEdges_shrinks (formed : graph.WellFormed) (kept : EdgeId) (rest : List EdgeId) :
    graph.Shrinks (graph.mergeAllEdges kept rest).2 := by
  induction rest generalizing graph kept with
  | nil => exact .refl formed
  | cons edge rest ih =>
    have step := mergeEdges_shrinks formed kept edge
    rw [mergeAllEdges]
    split
    next same =>
      rw [same] at step
      exact step.trans (ih step.formed _)
    next same =>
      rw [same] at step
      exact step

theorem mergeEdgeSet_shrinks (formed : graph.WellFormed) (edges : List EdgeId) :
    graph.Shrinks (graph.mergeEdgeSet edges).2 := by
  cases edges with
  | nil => exact .refl formed
  | cons first rest => exact mergeAllEdges_shrinks formed first rest

end Hypergraph

end Coverability
