import Coverability.Proofs.Validity

/-! Rewriting. A rule applies to a graph where its left side occurs without leaving an edge at a
deleted vertex; what is deleted goes, and what is created is glued on. Everything the rule leaves
alone is its context: filling the context with the left side gives the graph before the step, and
filling it with the right side the graph after it. -/

namespace Coverability

/-- An occurrence of the left side of a rule in a graph. -/
structure Rule.Match (rule : Rule) (graph : Hypergraph) where
  vertex : VertexId → VertexId
  edge : EdgeId → EdgeId
  vertex_inside : ∀ {one}, rule.left.hasVertex one = true → graph.hasVertex (vertex one) = true
  vertex_injective : ∀ {one other}, rule.left.hasVertex one = true →
    rule.left.hasVertex other = true →
    vertex one = vertex other → one = other
  edge_kept : ∀ {one label ends}, rule.left.skeleton.edge? one = some (label, ends) →
    graph.skeleton.edge? (edge one) = some (label, ends.map vertex)
  edge_injective : ∀ {one other}, rule.left.skeleton.HasEdge one → rule.left.skeleton.HasEdge other →
    edge one = edge other → one = other
  /-- No other edge touches the image of a deleted vertex. -/
  dangling : ∀ {target label ends}, graph.skeleton.edge? target = some (label, ends) →
    (∀ one, rule.left.skeleton.HasEdge one → edge one ≠ target) →
    ∀ deleted ∈ rule.deletedVertices, vertex deleted ∉ ends

namespace Rule.Match

variable {rule : Rule} {graph : Hypergraph}

/-- Where a vertex of the right side is after the step. -/
def glue (found : rule.Match graph) (vertex : VertexId) : VertexId ⊕ VertexId :=
  if vertex ∈ rule.createdVertices then .inr vertex else .inl (found.vertex (rule.origin vertex))

/-- The graph after the step: what is left of the graph, and the created part of the right side. -/
def result (found : rule.Match graph) : Skeleton (VertexId ⊕ VertexId) (EdgeId ⊕ EdgeId) where
  vertex
    | .inl kept => graph.hasVertex kept = true ∧ kept ∉ rule.deletedVertices.map found.vertex
    | .inr created => created ∈ rule.createdVertices
  edge?
    | .inl kept =>
      if kept ∈ rule.deletedEdges.map found.edge then none
      else (graph.skeleton.edge? kept).map fun (label, ends) => (label, ends.map .inl)
    | .inr created =>
      if created ∈ rule.createdEdges then (rule.right.skeleton.edge? created).map
        fun (label, ends) => (label, ends.map found.glue)
      else none

end Rule.Match

/-- A graph some of whose incidences are at vertices that a rule preserves, by their names in
the right side. -/
structure Context (rule : Rule) (α β : Type) where
  vertex : α → Prop
  edge? : β → Option (String × List (α ⊕ VertexId))
  closed : ∀ {edge label ends}, edge? edge = some (label, ends) →
    ∀ incidence ∈ ends, Sum.elim vertex rule.Preserved incidence

namespace Context

variable {rule : Rule} {α β : Type}

/-- The context filled with one side of the rule. -/
def fill (context : Context rule α β) (side : Hypergraph) (place : VertexId → VertexId) :
    Skeleton (α ⊕ VertexId) (β ⊕ EdgeId) where
  vertex := Sum.elim context.vertex (side.hasVertex · = true)
  edge?
    | .inl edge => (context.edge? edge).map fun (label, ends) => (label, ends.map (Sum.map id place))
    | .inr edge => (side.skeleton.edge? edge).map fun (label, ends) => (label, ends.map .inr)

def before (context : Context rule α β) : Skeleton (α ⊕ VertexId) (β ⊕ EdgeId) :=
  context.fill rule.left rule.origin

def after (context : Context rule α β) : Skeleton (α ⊕ VertexId) (β ⊕ EdgeId) :=
  context.fill rule.right id

variable {context : Context rule α β} {side : Hypergraph} {place : VertexId → VertexId}

theorem fill_context {edge : β} {label : String} {ends : List (α ⊕ VertexId)} :
    (context.fill side place).edge? (.inl edge) = some (label, ends) ↔
    ∃ places, context.edge? edge = some (label, places) ∧ places.map (Sum.map id place) = ends := by
  simp [fill]

theorem fill_side {edge : EdgeId} {label : String} {ends : List (α ⊕ VertexId)} :
    (context.fill side place).edge? (.inr edge) = some (label, ends) ↔
    ∃ vertices, side.skeleton.edge? edge = some (label, vertices) ∧ vertices.map .inr = ends := by
  simp [fill]

theorem after_context {edge : β} {label : String} {ends : List (α ⊕ VertexId)} :
    context.after.edge? (.inl edge) = some (label, ends) ↔
    context.edge? edge = some (label, ends) := by
  rw [after, fill_context]
  simp

theorem fill_hasEdge_side {edge : EdgeId} : (context.fill side place).HasEdge (.inr edge) ↔
    side.skeleton.HasEdge edge := by
  simp only [Skeleton.HasEdge, fill_side]
  constructor
  · intro found
    obtain ⟨label, _, vertices, found, _⟩ := found
    exact ⟨label, vertices, found⟩
  · intro found
    obtain ⟨label, vertices, found⟩ := found
    exact ⟨label, _, vertices, found, rfl⟩

theorem fill_hasEdge_context {edge : β} : (context.fill side place).HasEdge (.inl edge) ↔
    ∃ label ends, context.edge? edge = some (label, ends) := by
  simp only [Skeleton.HasEdge, fill_context]
  constructor
  · intro found
    obtain ⟨label, _, ends, found, _⟩ := found
    exact ⟨label, ends, found⟩
  · intro found
    obtain ⟨label, ends, found⟩ := found
    exact ⟨label, _, ends, found, rfl⟩

theorem fill_closed (formed : side.WellFormed)
    (placed : ∀ vertex, rule.Preserved vertex → side.hasVertex (place vertex) = true) :
    (context.fill side place).Closed := by
  intro edge label ends found vertex member
  cases edge with
  | inl edge =>
    obtain ⟨places, stored, rfl⟩ := fill_context.mp found
    obtain ⟨source, inside, rfl⟩ := List.mem_map.mp member
    have known := context.closed stored source inside
    cases source with
    | inl vertex => exact known
    | inr vertex => exact placed vertex known
  | inr edge =>
    obtain ⟨vertices, stored, rfl⟩ := fill_side.mp found
    obtain ⟨source, inside, rfl⟩ := List.mem_map.mp member
    exact formed.closed _ _ _ stored source inside

theorem before_closed (valid : rule.Valid) (formed : rule.left.WellFormed) : context.before.Closed :=
  fill_closed formed fun _ preserved => (valid.vertex_sides (valid.map_origin preserved)).1

theorem after_closed (valid : rule.Valid) (formed : rule.right.WellFormed) : context.after.Closed :=
  fill_closed formed fun _ ⟨_, mapped⟩ => (valid.vertex_sides mapped).2

/-- A graph that is the context filled with the left side has an occurrence of the left side. -/
def occurrence {graph : Hypergraph} (valid : rule.Valid)
    (iso : Skeleton.Iso context.before graph.skeleton) : rule.Match graph where
  vertex one := iso.vertex (.inr one)
  edge one := iso.edge (.inr one)
  vertex_inside {one} inside := iso.vertex_inside (show context.before.vertex (.inr one) from inside)
  vertex_injective {one other} left right same :=
    Sum.inr.inj
      (iso.vertex_injective (show context.before.vertex (.inr one) from left)
        (show context.before.vertex (.inr other) from right) same)
  edge_kept found := by
    have kept := iso.edge_kept (fill_side.mpr ⟨_, found, rfl⟩)
    rwa [List.map_map] at kept
  edge_injective left right same :=
    Sum.inr.inj (iso.edge_injective (fill_hasEdge_side.mpr left) (fill_hasEdge_side.mpr right) same)
  dangling := by
    intro target label ends found unmatched deleted gone member
    obtain ⟨inside, unmapped⟩ := Rule.mem_deletedVertices.mp gone
    have hidden : context.before.vertex (.inr deleted) := inside
    obtain ⟨one, places, stored, rfl, rfl⟩ := iso.edge_reflected found
    cases one with
    | inr edge => exact unmatched edge (fill_hasEdge_side.mp ⟨_, _, stored⟩) rfl
    | inl edge =>
      obtain ⟨sources, known, rfl⟩ := fill_context.mp stored
      obtain ⟨place, atPlace, same⟩ := List.mem_map.mp member
      obtain ⟨source, atSource, rfl⟩ := List.mem_map.mp atPlace
      have closed := context.closed known source atSource
      cases source with
      | inl vertex =>
        cases iso.vertex_injective (show context.before.vertex (.inl vertex) from closed) hidden same
      | inr vertex =>
        have mapped := valid.map_origin closed
        have present : context.before.vertex (.inr (rule.origin vertex)) :=
          (valid.vertex_sides mapped).1
        rw [Sum.inr.inj (iso.vertex_injective present hidden same), unmapped] at mapped
        cases mapped

section Result

variable {graph : Hypergraph} {found : rule.Match graph}

theorem created_or_preserved {vertex : VertexId} (inside : rule.right.hasVertex vertex = true) :
    vertex ∈ rule.createdVertices ∨ rule.Preserved vertex := by
  by_cases preserved : rule.Preserved vertex
  · exact .inr preserved
  · exact .inl (Rule.mem_createdVertices.mpr ⟨inside, preserved⟩)

theorem glue_created {vertex : VertexId} (created : vertex ∈ rule.createdVertices) :
    found.glue vertex = .inr vertex := if_pos created

theorem glue_preserved {vertex : VertexId} (preserved : rule.Preserved vertex) :
    found.glue vertex = .inl (found.vertex (rule.origin vertex)) :=
  if_neg fun created => (Rule.mem_createdVertices.mp created).2 preserved

theorem createdEdge_or_preserved {edge : EdgeId} (inside : rule.right.skeleton.HasEdge edge) :
    edge ∈ rule.createdEdges ∨ ∃ left, rule.edgeMap.get? left = some edge := by
  by_cases preserved : ∃ left, rule.edgeMap.get? left = some edge
  · exact .inr preserved
  · exact .inl (Rule.mem_createdEdges.mpr
      ⟨Hypergraph.skeleton_hasEdge.mp inside, not_exists.mp preserved⟩)

theorem kept_or_deleted {edge : EdgeId} (inside : rule.left.skeleton.HasEdge edge) :
    edge ∈ rule.deletedEdges ∨ ∃ right, rule.edgeMap.get? edge = some right := by
  cases mapped : rule.edgeMap.get? edge with
  | some right => exact .inr ⟨right, rfl⟩
  | none => exact .inl (Rule.mem_deletedEdges.mpr ⟨Hypergraph.skeleton_hasEdge.mp inside, mapped⟩)

/-- An edge that a rule preserves has corresponding ends on both sides. -/
theorem preservedEdge_sides (valid : rule.Valid) {left right : EdgeId}
    (mapped : rule.edgeMap.get? left = some right) :
    ∃ label ends others, rule.left.skeleton.edge? left = some (label, ends) ∧
      rule.right.skeleton.edge? right = some (label, others) ∧
      List.Forall₂ (fun first second => rule.vertexMap.get? first = some second) ends others := by
  obtain ⟨one, other, here, there, same, along⟩ := valid.edge_sides mapped
  exact ⟨one.label, one.vertices, other.vertices, Hypergraph.skeleton_edge here,
    same ▸ Hypergraph.skeleton_edge there, along⟩

/-- The occurrence of the left side where the graph shows it. -/
structure Fits (found : rule.Match graph)
    (iso : Skeleton.Iso context.before graph.skeleton) : Prop where
  vertex : ∀ one, found.vertex one = iso.vertex (.inr one)
  edge : ∀ one, found.edge one = iso.edge (.inr one)

variable {iso : Skeleton.Iso context.before graph.skeleton}

private theorem Fits.context_vertex (fits : Fits found iso) {vertex : α}
    (present : context.vertex vertex) :
    iso.vertex (.inl vertex) ∉ rule.deletedVertices.map found.vertex := by
  intro member
  obtain ⟨deleted, gone, same⟩ := List.mem_map.mp member
  rw [fits.vertex] at same
  cases iso.vertex_injective
    (show context.before.vertex (.inr deleted) from (Rule.mem_deletedVertices.mp gone).1)
    (show context.before.vertex (.inl vertex) from present) same

private theorem Fits.preserved_vertex (valid : rule.Valid) {vertex : VertexId}
    (preserved : rule.Preserved vertex) :
    found.vertex (rule.origin vertex) ∉ rule.deletedVertices.map found.vertex := by
  intro member
  obtain ⟨deleted, gone, same⟩ := List.mem_map.mp member
  obtain ⟨inside, unmapped⟩ := Rule.mem_deletedVertices.mp gone
  have mapped := valid.map_origin preserved
  rw [← found.vertex_injective inside (valid.vertex_sides mapped).1 same, unmapped] at mapped
  cases mapped

private theorem Fits.context_edge (fits : Fits found iso) {edge : β}
    (present : context.before.HasEdge (.inl edge)) :
    iso.edge (.inl edge) ∉ rule.deletedEdges.map found.edge := by
  intro member
  obtain ⟨deleted, gone, same⟩ := List.mem_map.mp member
  rw [fits.edge] at same
  have inside : context.before.HasEdge (.inr deleted) :=
    fill_hasEdge_side.mpr (Hypergraph.skeleton_hasEdge.mpr (Rule.mem_deletedEdges.mp gone).1)
  cases iso.edge_injective inside present same

private theorem Fits.preserved_edge (valid : rule.Valid) {left right : EdgeId}
    (mapped : rule.edgeMap.get? left = some right) :
    found.edge left ∉ rule.deletedEdges.map found.edge := by
  intro member
  obtain ⟨deleted, gone, same⟩ := List.mem_map.mp member
  obtain ⟨inside, unmapped⟩ := Rule.mem_deletedEdges.mp gone
  obtain ⟨label, ends, _, here, _⟩ := preservedEdge_sides valid mapped
  rw [found.edge_injective (Hypergraph.skeleton_hasEdge.mpr inside) ⟨label, ends, here⟩ same,
    mapped] at unmapped
  cases unmapped

/-- Where an edge of the right side is after the step. -/
private def glueEdge (found : rule.Match graph) (edge : EdgeId) : EdgeId ⊕ EdgeId :=
  if edge ∈ rule.createdEdges then .inr edge else .inl (found.edge (rule.originEdge edge))

private theorem glueEdge_preserved (valid : rule.Valid) {left right : EdgeId}
    (mapped : rule.edgeMap.get? left = some right) :
    glueEdge found right = .inl (found.edge left) := by
  rw [glueEdge, if_neg fun created => (Rule.mem_createdEdges.mp created).2 left mapped,
    valid.originEdge_eq mapped]

private theorem result_preserved (valid : rule.Valid) {left right : EdgeId}
    (mapped : rule.edgeMap.get? left = some right) {label : String} {ends : List VertexId}
    (stored : rule.right.skeleton.edge? right = some (label, ends)) :
    found.result.edge? (.inl (found.edge left)) = some (label, ends.map found.glue) := by
  obtain ⟨label', sources, others, here, there, along⟩ := preservedEdge_sides valid mapped
  rw [stored, Option.some.injEq, Prod.mk.injEq] at there
  obtain ⟨rfl, rfl⟩ := there
  have same := Listing.map_eq_of_along along fun one other mapped =>
    show (Sum.inl (found.vertex one) : VertexId ⊕ VertexId) = found.glue other by
      rw [glue_preserved ⟨one, mapped⟩, valid.origin_eq mapped]
  simp only [Rule.Match.result, if_neg (Fits.preserved_edge valid mapped), found.edge_kept here,
    Option.map_some, List.map_map]
  exact congrArg some (Prod.ext rfl same)

private theorem glue_injective (valid : rule.Valid) {one other : VertexId}
    (first : rule.right.hasVertex one = true) (second : rule.right.hasVertex other = true)
    (same : found.glue one = found.glue other) : one = other := by
  rcases created_or_preserved first with createdOne | preservedOne
    <;> rcases created_or_preserved second with createdOther | preservedOther
  · rw [glue_created createdOne, glue_created createdOther] at same
    exact Sum.inr.inj same
  · rw [glue_created createdOne, glue_preserved preservedOther] at same
    cases same
  · rw [glue_preserved preservedOne, glue_created createdOther] at same
    cases same
  · rw [glue_preserved preservedOne, glue_preserved preservedOther] at same
    have mappedOne := valid.map_origin preservedOne
    have mappedOther := valid.map_origin preservedOther
    have origins :=
      found.vertex_injective (valid.vertex_sides mappedOne).1 (valid.vertex_sides mappedOther).1
        (Sum.inl.inj same)
    rw [origins, mappedOther] at mappedOne
    exact (Option.some.inj mappedOne).symm

private theorem Fits.glue_apart (fits : Fits found iso) (valid : rule.Valid) {kept : α}
    {vertex : VertexId} (present : context.vertex kept)
    (inside : rule.right.hasVertex vertex = true) :
    found.glue vertex ≠ .inl (iso.vertex (.inl kept)) := by
  intro same
  rcases created_or_preserved inside with created | preserved
  · rw [glue_created created] at same
    cases same
  · rw [glue_preserved preserved, fits.vertex, Sum.inl.injEq] at same
    cases iso.vertex_injective
      (show context.before.vertex (.inr _) from (valid.vertex_sides (valid.map_origin preserved)).1)
      (show context.before.vertex (.inl kept) from present) same

private theorem glueEdge_injective (valid : rule.Valid) {one other : EdgeId}
    (first : rule.right.skeleton.HasEdge one) (second : rule.right.skeleton.HasEdge other)
    (same : glueEdge found one = glueEdge found other) : one = other := by
  have left_inside : ∀ {left right}, rule.edgeMap.get? left = some right →
      rule.left.skeleton.HasEdge left := fun mapped =>
    let ⟨label, ends, _, here, _⟩ := preservedEdge_sides valid mapped
    ⟨label, ends, here⟩
  rcases createdEdge_or_preserved first with createdOne | ⟨leftOne, mappedOne⟩ <;>
    rcases createdEdge_or_preserved second with createdOther | ⟨leftOther, mappedOther⟩
  · rw [glueEdge, glueEdge, if_pos createdOne, if_pos createdOther] at same
    exact Sum.inr.inj same
  · rw [glueEdge_preserved valid mappedOther, glueEdge, if_pos createdOne] at same
    cases same
  · rw [glueEdge_preserved valid mappedOne, glueEdge, if_pos createdOther] at same
    cases same
  · rw [glueEdge_preserved valid mappedOne, glueEdge_preserved valid mappedOther,
      Sum.inl.injEq] at same
    rw [found.edge_injective (left_inside mappedOne) (left_inside mappedOther) same,
      mappedOther] at mappedOne
    exact (Option.some.inj mappedOne).symm

private theorem Fits.glueEdge_apart (fits : Fits found iso) (valid : rule.Valid)
    {kept : β} {edge : EdgeId} (present : context.before.HasEdge (.inl kept))
    (inside : rule.right.skeleton.HasEdge edge) :
    glueEdge found edge ≠ .inl (iso.edge (.inl kept)) := by
  intro same
  rcases createdEdge_or_preserved inside with created | ⟨left, mapped⟩
  · rw [glueEdge, if_pos created] at same
    cases same
  · rw [glueEdge_preserved valid mapped, fits.edge, Sum.inl.injEq] at same
    obtain ⟨label, ends, _, here, _⟩ := preservedEdge_sides valid mapped
    have inside : context.before.HasEdge (.inr left) := fill_hasEdge_side.mpr ⟨label, ends, here⟩
    cases iso.edge_injective inside present same

private theorem Fits.kept_after (fits : Fits found iso) {kept : β} {label : String}
    {ends : List (α ⊕ VertexId)} (stored : context.after.edge? (.inl kept) = some (label, ends)) :
    found.result.edge? (.inl (iso.edge (.inl kept))) =
      some (label, ends.map (Sum.elim (fun kept => .inl (iso.vertex (.inl kept))) found.glue)) := by
  have known := after_context.mp stored
  have before : context.before.edge? (.inl kept) =
    some (label, ends.map (Sum.map id rule.origin)) := fill_context.mpr ⟨ends, known, rfl⟩
  simp only [Rule.Match.result, if_neg (fits.context_edge ⟨_, _, before⟩), iso.edge_kept before,
    Option.map_some, List.map_map]
  refine congrArg some (Prod.ext rfl (List.map_congr_left fun place member => ?_))
  have closed := context.closed known place member
  cases place with
  | inl vertex => rfl
  | inr vertex => exact ((glue_preserved closed).trans (congrArg Sum.inl (fits.vertex _))).symm

private theorem Fits.edge_reached (fits : Fits found iso) (valid : rule.Valid) {kept : EdgeId}
    (present : found.result.HasEdge (.inl kept)) :
    ∃ edge, context.after.HasEdge edge ∧
      Sum.elim (fun kept => .inl (iso.edge (.inl kept))) (glueEdge found) edge = .inl kept := by
  obtain ⟨label, ends, stored⟩ := present
  simp only [Rule.Match.result] at stored
  split at stored
  · cases stored
  next remains =>
    obtain ⟨⟨label', vertices⟩, known, _⟩ := Option.map_eq_some_iff.mp stored
    obtain ⟨one, inside, rfl⟩ := iso.edge_surjective ⟨label', vertices, known⟩
    cases one with
    | inl edge => exact ⟨.inl edge, fill_hasEdge_context.mpr (fill_hasEdge_context.mp inside), rfl⟩
    | inr left =>
      rcases kept_or_deleted (fill_hasEdge_side.mp inside) with deleted | ⟨right, mapped⟩
      · exact absurd (List.mem_map.mpr ⟨left, deleted, fits.edge left⟩) remains
      · obtain ⟨_, _, _, _, there, _⟩ := preservedEdge_sides valid mapped
        refine ⟨.inr right, fill_hasEdge_side.mpr ⟨_, _, there⟩, ?_⟩
        rw [Sum.elim_inr, glueEdge_preserved valid mapped, fits.edge]

/-- The context filled with the right side is the graph after the step. -/
def Fits.resultIso (fits : Fits found iso) (valid : rule.Valid) :
    Skeleton.Iso context.after found.result where
  vertex := Sum.elim (fun kept => .inl (iso.vertex (.inl kept))) found.glue
  edge := Sum.elim (fun kept => .inl (iso.edge (.inl kept))) (glueEdge found)
  vertex_inside {one} inside := by
    cases one with
    | inl kept =>
      exact ⟨iso.vertex_inside (show context.before.vertex (.inl kept) from inside),
        fits.context_vertex inside⟩
    | inr vertex =>
      rw [Sum.elim_inr]
      rcases created_or_preserved inside with created | preserved
      · rw [glue_created created]
        exact created
      · rw [glue_preserved preserved]
        exact ⟨found.vertex_inside (valid.vertex_sides (valid.map_origin preserved)).1,
          Fits.preserved_vertex valid preserved⟩
  vertex_injective {one other} first second same := by
    cases one <;> cases other
    case inl.inl one other =>
      have equal :=
        iso.vertex_injective (show context.before.vertex (.inl one) from first)
          (show context.before.vertex (.inl other) from second)
      exact equal (Sum.inl.inj same)
    case inl.inr one other => exact absurd same.symm (fits.glue_apart valid first second)
    case inr.inl one other => exact absurd same (fits.glue_apart valid second first)
    case inr.inr one other => exact congrArg Sum.inr (glue_injective valid first second same)
  vertex_surjective {target} inside := by
    cases target with
    | inr created => exact ⟨.inr created, (Rule.mem_createdVertices.mp inside).1, glue_created inside⟩
    | inl vertex =>
      obtain ⟨present, remains⟩ := inside
      obtain ⟨one, known, rfl⟩ :=
        iso.vertex_surjective (show graph.skeleton.vertex vertex from present)
      cases one with
      | inl kept => exact ⟨.inl kept, known, rfl⟩
      | inr left =>
        cases mapped : rule.vertexMap.get? left with
        | none =>
          refine absurd
            (List.mem_map.mpr ⟨left, Rule.mem_deletedVertices.mpr ⟨known, mapped⟩, ?_⟩) remains
          exact fits.vertex left
        | some right =>
          refine ⟨.inr right, (valid.vertex_sides mapped).2, ?_⟩
          rw [Sum.elim_inr, glue_preserved ⟨left, mapped⟩, valid.origin_eq mapped, fits.vertex]
  edge_kept {one label ends} stored := by
    cases one with
    | inl kept => exact fits.kept_after stored
    | inr edge =>
      obtain ⟨vertices, known, rfl⟩ := fill_side.mp stored
      rw [List.map_map, Sum.elim_inr]
      rcases createdEdge_or_preserved ⟨label, vertices, known⟩ with created | ⟨left, mapped⟩
      · simp only [glueEdge, Rule.Match.result, if_pos created, known, Option.map_some]
        rfl
      · rw [glueEdge_preserved valid mapped]
        exact result_preserved valid mapped known
  edge_injective {one other} first second same := by
    cases one <;> cases other
    case inl.inl one other =>
      have firstBefore : context.before.HasEdge (.inl one) :=
        fill_hasEdge_context.mpr (fill_hasEdge_context.mp first)
      have secondBefore : context.before.HasEdge (.inl other) :=
        fill_hasEdge_context.mpr (fill_hasEdge_context.mp second)
      exact iso.edge_injective firstBefore secondBefore (Sum.inl.inj same)
    case inl.inr one other =>
      exact absurd same.symm
        (fits.glueEdge_apart valid (fill_hasEdge_context.mpr (fill_hasEdge_context.mp first))
          (fill_hasEdge_side.mp second))
    case inr.inl one other =>
      exact absurd same
        (fits.glueEdge_apart valid (fill_hasEdge_context.mpr (fill_hasEdge_context.mp second))
          (fill_hasEdge_side.mp first))
    case inr.inr one other =>
      exact congrArg Sum.inr
        (glueEdge_injective valid (fill_hasEdge_side.mp first) (fill_hasEdge_side.mp second) same)
  edge_surjective {target} present := by
    cases target with
    | inl kept => exact fits.edge_reached valid present
    | inr created =>
      obtain ⟨label, ends, stored⟩ := present
      simp only [Rule.Match.result] at stored
      split at stored
      next new =>
        obtain ⟨⟨label', vertices⟩, known, _⟩ := Option.map_eq_some_iff.mp stored
        exact ⟨.inr created, fill_hasEdge_side.mpr ⟨label', vertices, known⟩, if_pos new⟩
      · cases stored

end Result

end Context

namespace Rule.Match

variable {rule : Rule} {graph : Hypergraph}

/-- A vertex of the graph, or the preserved vertex that occurs there. -/
def opening (found : rule.Match graph) (vertex : VertexId) : VertexId ⊕ VertexId :=
  match rule.left.vertexIds.find? fun one => found.vertex one = vertex with
  | some one => .inr (rule.vertexMap.getD one one)
  | none => .inl vertex

theorem opening_apart {found : rule.Match graph} {vertex : VertexId}
    (apart : vertex ∉ rule.left.vertexIds.map found.vertex) :
    found.opening vertex = .inl vertex := by
  have none : (rule.left.vertexIds.find? fun one => found.vertex one = vertex) = none := by
    rw [List.find?_eq_none]
    intro one member same
    exact apart (List.mem_map.mpr ⟨one, member, of_decide_eq_true same⟩)
  rw [opening, none]

theorem opening_place {found : rule.Match graph} {one : VertexId}
    (inside : rule.left.hasVertex one = true) :
    found.opening (found.vertex one) = .inr (rule.vertexMap.getD one one) := by
  have present : (rule.left.vertexIds.find? fun other => found.vertex other = found.vertex one) =
      some one := by
    cases search : rule.left.vertexIds.find? fun other => found.vertex other = found.vertex one with
    | none =>
      have differs := List.find?_eq_none.mp search one (Hypergraph.mem_vertexIds.mpr inside)
      simp at differs
    | some other =>
      have same : found.vertex other = found.vertex one := by simpa using List.find?_some search
      have member := Hypergraph.mem_vertexIds.mp (List.mem_of_find?_eq_some search)
      rw [found.vertex_injective member inside same]
  rw [opening, present]

/-- An end of an edge that is not matched is outside the occurrence, or preserved. -/
theorem opening_end (found : rule.Match graph) {edge : EdgeId} {label : String}
    {ends : List VertexId} {vertex : VertexId} (unmatched : edge ∉ rule.left.edgeIds.map found.edge)
    (stored : graph.skeleton.edge? edge = some (label, ends)) (member : vertex ∈ ends) :
    vertex ∉ rule.left.vertexIds.map found.vertex ∧ found.opening vertex = .inl vertex ∨
      ∃ left right, rule.left.hasVertex left = true ∧ rule.vertexMap.get? left = some right ∧
        found.vertex left = vertex ∧
        found.opening vertex = .inr right := by
  by_cases matched : vertex ∈ rule.left.vertexIds.map found.vertex
  · obtain ⟨left, present, rfl⟩ := List.mem_map.mp matched
    rw [Hypergraph.mem_vertexIds] at present
    cases mapped : rule.vertexMap.get? left with
    | some right =>
      refine .inr ⟨left, right, present, mapped, rfl, ?_⟩
      rw [opening_place present, Table.getD_eq, mapped]
      rfl
    | none =>
      refine absurd member
        (found.dangling stored (fun other inside same => ?_) left
          (mem_deletedVertices.mpr ⟨present, mapped⟩))
      exact unmatched (List.mem_map.mpr ⟨other, Hypergraph.mem_edgeIds_iff.mpr inside, same⟩)
  · exact .inl ⟨matched, opening_apart matched⟩

/-- What the occurrence leaves alone. -/
def context (found : rule.Match graph) (formed : graph.WellFormed) :
    Context rule VertexId EdgeId where
  vertex vertex := graph.hasVertex vertex = true ∧ vertex ∉ rule.left.vertexIds.map found.vertex
  edge? edge :=
    if edge ∈ rule.left.edgeIds.map found.edge then none
    else (graph.skeleton.edge? edge).map fun (label, ends) => (label, ends.map found.opening)
  closed := by
    intro edge label ends stored place member
    split at stored
    · cases stored
    next unmatched =>
      obtain ⟨⟨label', vertices⟩, known, same⟩ := Option.map_eq_some_iff.mp stored
      cases same
      obtain ⟨vertex, inside, rfl⟩ := List.mem_map.mp member
      rcases found.opening_end unmatched known inside with ⟨apart, opened⟩ |
        ⟨left, right, _, mapped, _, opened⟩
      · rw [opened]
        exact ⟨formed.closed _ _ _ known vertex inside, apart⟩
      · rw [opened]
        exact ⟨left, mapped⟩

variable {found : rule.Match graph} {formed : graph.WellFormed}

private theorem context_edge {edge : EdgeId} {label : String} {places : List (VertexId ⊕ VertexId)} :
    (found.context formed).edge? edge = some (label, places) ↔
    edge ∉ rule.left.edgeIds.map found.edge ∧
      ∃ ends, graph.skeleton.edge? edge = some (label, ends) ∧ ends.map found.opening = places := by
  simp only [context]
  split
  next matched => exact ⟨nofun, fun known => absurd matched known.1⟩
  next unmatched =>
    rw [Option.map_eq_some_iff]
    constructor
    · intro stored
      obtain ⟨⟨label', ends⟩, known, same⟩ := stored
      cases same
      exact ⟨unmatched, ends, known, rfl⟩
    · intro stored
      obtain ⟨_, ends, known, rfl⟩ := stored
      exact ⟨⟨label, ends⟩, known, rfl⟩

private theorem matched_of_hasEdge (found : rule.Match graph) {edge : EdgeId}
    (inside : rule.left.skeleton.HasEdge edge) :
    found.edge edge ∈ rule.left.edgeIds.map found.edge :=
  List.mem_map_of_mem (Hypergraph.mem_edgeIds_iff.mpr inside)

private theorem unmatched_of_hasEdge {edge : EdgeId}
    (inside : (found.context formed).before.HasEdge (.inl edge)) :
    edge ∉ rule.left.edgeIds.map found.edge := by
  obtain ⟨label, places, stored⟩ := Context.fill_hasEdge_context.mp inside
  exact (context_edge.mp stored).1

/-- The context filled with the left side is the graph before the step. -/
def contextIso (found : rule.Match graph) (formed : graph.WellFormed) (valid : rule.Valid) :
    Skeleton.Iso (found.context formed).before graph.skeleton where
  vertex := Sum.elim (fun vertex => vertex) found.vertex
  edge := Sum.elim (fun edge => edge) found.edge
  vertex_inside {one} inside := by
    cases one with
    | inl vertex => exact inside.1
    | inr vertex => exact found.vertex_inside inside
  vertex_injective {one other} first second same := by
    cases one <;> cases other
    case inl.inl one other => exact congrArg Sum.inl same
    case inl.inr one other =>
      exact absurd (List.mem_map.mpr ⟨other, Hypergraph.mem_vertexIds.mpr second, same.symm⟩) first.2
    case inr.inl one other =>
      exact absurd (List.mem_map.mpr ⟨one, Hypergraph.mem_vertexIds.mpr first, same⟩) second.2
    case inr.inr one other => exact congrArg Sum.inr (found.vertex_injective first second same)
  vertex_surjective {target} inside := by
    by_cases matched : target ∈ rule.left.vertexIds.map found.vertex
    · obtain ⟨one, present, rfl⟩ := List.mem_map.mp matched
      exact ⟨.inr one, Hypergraph.mem_vertexIds.mp present, rfl⟩
    · exact ⟨.inl target, ⟨inside, matched⟩, rfl⟩
  edge_kept {one label ends} stored := by
    cases one with
    | inl edge =>
      obtain ⟨places, known, rfl⟩ := Context.fill_context.mp stored
      obtain ⟨unmatched, vertices, there, rfl⟩ := context_edge.mp known
      rw [Sum.elim_inl, there, List.map_map, List.map_map]
      refine congrArg some
        (Prod.ext rfl ((List.map_id vertices).symm.trans
          (List.map_congr_left fun vertex member => ?_)))
      rcases found.opening_end unmatched there member with ⟨_, opened⟩ |
        ⟨left, right, _, mapped, rfl, opened⟩
      · simp [opened]
      · simp [opened, valid.origin_eq mapped]
    | inr edge =>
      obtain ⟨vertices, known, rfl⟩ := Context.fill_side.mp stored
      rw [Sum.elim_inr, found.edge_kept known, List.map_map]
      rfl
  edge_injective {one other} first second same := by
    cases one <;> cases other
    case inl.inl one other => exact congrArg Sum.inl same
    case inl.inr one other =>
      have matched := matched_of_hasEdge found (Context.fill_hasEdge_side.mp second)
      rw [← show one = found.edge other from same] at matched
      exact absurd matched (unmatched_of_hasEdge first)
    case inr.inl one other =>
      have matched := matched_of_hasEdge found (Context.fill_hasEdge_side.mp first)
      rw [show found.edge one = other from same] at matched
      exact absurd matched (unmatched_of_hasEdge second)
    case inr.inr one other =>
      exact congrArg Sum.inr
        (found.edge_injective (Context.fill_hasEdge_side.mp first)
          (Context.fill_hasEdge_side.mp second) same)
  edge_surjective {target} present := by
    obtain ⟨label, ends, known⟩ := present
    by_cases matched : target ∈ rule.left.edgeIds.map found.edge
    · obtain ⟨one, inside, rfl⟩ := List.mem_map.mp matched
      exact ⟨.inr one, Context.fill_hasEdge_side.mpr (Hypergraph.mem_edgeIds_iff.mp inside), rfl⟩
    · exact ⟨.inl target, Context.fill_hasEdge_context.mpr
        ⟨label, _, context_edge.mpr ⟨matched, ends, known, rfl⟩⟩, rfl⟩

/-- The occurrence is where the context shows the left side to be. -/
theorem context_fits (found : rule.Match graph) (formed : graph.WellFormed) (valid : rule.Valid) :
    Context.Fits found (found.contextIso formed valid) := ⟨fun _ => rfl, fun _ => rfl⟩

end Rule.Match

end Coverability
