import Coverability.Proofs.Operations
import Mathlib.Logic.Function.Basic

/-! Every finite skeleton is that of a graph. The tables are written down at once, since no sequence
of additions can be relied on to hit the identifiers that the skeleton uses. -/

namespace Coverability

namespace Skeleton

variable {α β γ δ : Type}

/-- The vertices and edges of a skeleton are among the listed ones. -/
structure Listed (shape : Skeleton α β) (vertices : List α) (edges : List β) : Prop where
  vertex : ∀ {one}, shape.vertex one → one ∈ vertices
  edge : ∀ {one}, shape.HasEdge one → one ∈ edges

/-- A skeleton with all names replaced. -/
noncomputable def renamed (shape : Skeleton α β) (vertex : α → γ) (edge : β → δ) : Skeleton γ δ where
  vertex target := ∃ one, shape.vertex one ∧ vertex one = target
  edge? target := (Function.partialInv edge target).bind fun one =>
    (shape.edge? one).map fun (label, ends) => (label, ends.map vertex)

variable {shape : Skeleton α β} {vertex : α → γ} {edge : β → δ}

private theorem renamed_edge (injective : Function.Injective edge) {target : δ} {label : String}
    {others : List γ} :
    (shape.renamed vertex edge).edge? target = some (label, others) ↔
      ∃ one ends, edge one = target ∧ shape.edge? one = some (label, ends) ∧
        ends.map vertex = others := by
  simp only [renamed, Option.bind_eq_some_iff, Option.map_eq_some_iff, Prod.exists, Prod.mk.injEq]
  constructor
  · intro found
    obtain ⟨one, known, label, ends, stored, rfl, rfl⟩ := found
    exact ⟨one, ends, (injective.isPartialInv one target).mp known, stored, rfl⟩
  · intro found
    obtain ⟨one, ends, rfl, stored, rfl⟩ := found
    exact ⟨one, Function.partialInv_left injective one, label, ends, stored, rfl, rfl⟩

/-- Other names make no difference as long as they are told apart. -/
noncomputable def renamedIso (shape : Skeleton α β) (injective : Function.Injective vertex)
    (injectiveEdge : Function.Injective edge) :
    Iso shape (shape.renamed vertex edge) where
  vertex := vertex
  edge := edge
  vertex_inside {one} inside := ⟨one, inside, rfl⟩
  vertex_injective _ _ same := injective same
  vertex_surjective found := found
  edge_kept {one label ends} found := (renamed_edge injectiveEdge).mpr ⟨one, ends, rfl, found, rfl⟩
  edge_injective _ _ same := injectiveEdge same
  edge_surjective found := by
    obtain ⟨label, others, found⟩ := found
    obtain ⟨one, ends, same, stored, _⟩ := (renamed_edge injectiveEdge).mp found
    exact ⟨one, ⟨label, ends, stored⟩, same⟩

private theorem Listed.renamed {vertices : List α} {edges : List β}
    (listed : shape.Listed vertices edges) (injective : Function.Injective edge) :
    (shape.renamed vertex edge).Listed (vertices.map vertex) (edges.map edge) where
  vertex found := by
    obtain ⟨one, inside, rfl⟩ := found
    exact List.mem_map_of_mem (listed.vertex inside)
  edge found := by
    obtain ⟨label, others, found⟩ := found
    obtain ⟨one, ends, rfl, stored, _⟩ := (renamed_edge injective).mp found
    exact List.mem_map_of_mem (listed.edge ⟨label, ends, stored⟩)

/-- The index entry of a vertex that is wanted for the listed edges. -/
private def entry (shape : Skeleton VertexId EdgeId) (edges : List EdgeId)
    (vertex : VertexId) : List EdgeId :=
  edges.flatMap fun edge => match shape.edge? edge with
    | some (_, ends) => List.replicate (ends.count vertex) edge
    | none => []

private theorem count_entry {shape : Skeleton VertexId EdgeId} {edges : List EdgeId}
    (distinct : edges.Nodup) {vertex : VertexId} {edge : EdgeId} {label : String}
    {ends : List VertexId} (stored : shape.edge? edge = some (label, ends)) :
    (entry shape edges vertex).count edge = if edge ∈ edges then ends.count vertex else 0 := by
  induction edges with
  | nil => rfl
  | cons first rest ih =>
    obtain ⟨fresh, distinct⟩ := List.nodup_cons.mp distinct
    rw [entry, List.flatMap_cons, List.count_append, ← entry, ih distinct]
    by_cases same : edge = first
    · subst same
      simp [stored, fresh]
    · cases known : shape.edge? first with
      | none => simp [same]
      | some found => simp [same, List.count_replicate, Ne.symm same]

private theorem count_entry_of_none {shape : Skeleton VertexId EdgeId} {edges : List EdgeId}
    {vertex : VertexId} {edge : EdgeId} (absent : shape.edge? edge = none) :
    (entry shape edges vertex).count edge = 0 := by
  rw [List.count_eq_zero, entry, List.mem_flatMap, not_exists]
  intro other member
  obtain ⟨_, inside⟩ := member
  cases known : shape.edge? other with
  | none => simp [known] at inside
  | some found =>
    simp only [known, List.mem_replicate] at inside
    rw [← inside.2, absent] at known
    cases known

private theorem exists_tables {shape : Skeleton VertexId EdgeId} {vertices : List VertexId}
    {edges : List EdgeId} (listed : shape.Listed vertices edges) :
    ∃ graph : Hypergraph,
      (∀ {vertex stored}, graph.vertices.get? vertex = some stored ↔ shape.vertex vertex ∧
        stored = ⟨vertex⟩) ∧
      (∀ id, graph.edge? id = (shape.edge? id).map fun (label, ends) => ⟨id, label, ends⟩) ∧
      ∀ {vertex index}, graph.incidence.get? vertex = some index ↔ shape.vertex vertex ∧
        index = entry shape (Table.distinct edges) vertex := by
  have vertexTable : ∃ table : Table VertexId Vertex,
      ∀ {vertex stored}, table.get? vertex = some stored ↔ shape.vertex vertex ∧ stored = ⟨vertex⟩ :=
    Table.exists_of_relation vertices (fun known => listed.vertex known.1) fun first second =>
      first.2.trans second.2.symm
  have edgeTable : ∃ table : Table EdgeId Edge,
      ∀ id, table.get? id = (shape.edge? id).map fun (label, ends) => ⟨id, label, ends⟩ := by
    refine Table.exists_of_lookups edges fun id edge found => ?_
    obtain ⟨⟨label, ends⟩, stored, _⟩ := Option.map_eq_some_iff.mp found
    exact listed.edge ⟨label, ends, stored⟩
  have indexTable : ∃ table : Table VertexId (List EdgeId),
      ∀ {vertex index}, table.get? vertex = some index ↔
      shape.vertex vertex ∧ index = entry shape (Table.distinct edges) vertex :=
    Table.exists_of_relation vertices (fun known => listed.vertex known.1) fun first second =>
      first.2.trans second.2.symm
  obtain ⟨vertexTable, vertexKnown⟩ := vertexTable
  obtain ⟨edgeTable, edgeKnown⟩ := edgeTable
  obtain ⟨index, indexKnown⟩ := indexTable
  exact ⟨{ vertices := vertexTable, edges := edgeTable, incidence := index }, vertexKnown,
    edgeKnown, indexKnown⟩

private theorem exists_graph_of_ids {shape : Skeleton VertexId EdgeId} (closed : shape.Closed)
    {vertices : List VertexId} {edges : List EdgeId} (listed : shape.Listed vertices edges) :
    ∃ graph : Hypergraph, graph.WellFormed ∧ graph.skeleton = shape := by
  obtain ⟨graph, vertexKnown, edgeKnown, indexKnown⟩ := exists_tables listed
  have present : ∀ vertex, graph.hasVertex vertex = true ↔ shape.vertex vertex := by
    intro vertex
    rw [Hypergraph.hasVertex, Table.contains_iff]
    exact ⟨fun ⟨stored, found⟩ => (vertexKnown.mp found).1,
      fun inside => ⟨⟨vertex⟩, vertexKnown.mpr ⟨inside, rfl⟩⟩⟩
  have stored : ∀ {id edge}, graph.edge? id = some edge → edge.id = id ∧
      shape.edge? id = some (edge.label, edge.vertices) := by
    intro id edge found
    rw [edgeKnown] at found
    obtain ⟨⟨label, ends⟩, known, rfl⟩ := Option.map_eq_some_iff.mp found
    exact ⟨rfl, known⟩
  refine ⟨graph, .of_lookups (fun found => ?_) (fun found => (stored found).1)
    (fun found member => ?_) (fun vertex => ?_)
    (fun vertex id inside => ?_), ?_⟩
  · rw [(vertexKnown.mp found).2]
  · exact (present _).mpr (closed _ _ _ (stored found).2 _ member)
  · rw [Bool.eq_iff_iff, present, Table.contains_iff]
    exact ⟨fun ⟨index, found⟩ => (indexKnown.mp found).1,
      fun inside => ⟨_, indexKnown.mpr ⟨inside, rfl⟩⟩⟩
  · rw [Hypergraph.incident, Table.getD_eq, indexKnown.mpr ⟨(present vertex).mp inside, rfl⟩,
      Option.getD_some]
    cases known : shape.edge? id with
    | none =>
      rw [count_entry_of_none known, Hypergraph.occurrences, edgeKnown, known]
      rfl
    | some found =>
      obtain ⟨label, ends⟩ := found
      rw [count_entry Table.nodup_distinct known,
        if_pos (Table.mem_distinct.mpr (listed.edge ⟨label, ends, known⟩)),
        Hypergraph.occurrences, edgeKnown, known]
      rfl
  · rw [Hypergraph.skeleton, Skeleton.mk.injEq]
    refine ⟨funext fun vertex => propext (present vertex), funext fun id => ?_⟩
    rw [edgeKnown, Option.map_map]
    cases shape.edge? id <;> rfl

/-- Where the two sides of a sum can share one set of identifiers. -/
private def parity {kind : Kind} : Id kind ⊕ Id kind → Id kind
  | .inl id => ⟨2 * id.number⟩
  | .inr id => ⟨2 * id.number + 1⟩

private theorem parity_injective {kind : Kind} : Function.Injective (@parity kind) := by
  intro one other same
  have number : ∀ {one other : Id kind}, one.number = other.number → one = other :=
    fun {one other} same => by
      cases one
      exact congrArg Id.mk same
  cases one <;> cases other <;> simp only [parity, Id.mk.injEq] at same
  case inl.inl one other => exact congrArg Sum.inl (number (by omega))
  case inl.inr one other => omega
  case inr.inl one other => omega
  case inr.inr one other => exact congrArg Sum.inr (number (by omega))

/-- A finite skeleton over two sets of identifiers is that of a well-formed graph, up to names. -/
theorem exists_graph {shape : Skeleton (VertexId ⊕ VertexId) (EdgeId ⊕ EdgeId)}
    (closed : shape.Closed) {vertices : List (VertexId ⊕ VertexId)} {edges : List (EdgeId ⊕ EdgeId)}
    (listed : shape.Listed vertices edges) :
    ∃ graph : Hypergraph, graph.WellFormed ∧ Isomorphic shape graph.skeleton := by
  have iso := shape.renamedIso parity_injective parity_injective
  obtain ⟨graph, formed, same⟩ :=
    exists_graph_of_ids (iso.closed closed) (listed.renamed parity_injective)
  exact ⟨graph, formed, same ▸ ⟨iso⟩⟩

end Skeleton

end Coverability
