import Coverability.Proofs.Complement
import Mathlib.Algebra.Ring.Nat

/-! What a backward step leaves of a graph. The graph before the step consists of the given graph
without what the rule creates, with a vertex of its own for every preserved preimage of a shared
image, of the preserved part of the right side that the match leaves out, and of the deleted part of
the left side. -/

namespace Coverability

/-- A vertex of the graph before a step: an unmatched vertex of the graph, a vertex of the right
side that the rule preserves, or a vertex of the left side that it deletes. -/
inductive RemnantVertex where
  | outside (vertex : VertexId)
  | preserved (right : VertexId)
  | deleted (left : VertexId)
deriving DecidableEq, Inhabited

/-- An edge of the graph before a step: an edge of the graph, a preserved edge of the right side
that is not matched, or an edge of the left side that the rule deletes. -/
inductive RemnantEdge where
  | remaining (edge : EdgeId)
  | preserved (right : EdgeId)
  | deleted (left : EdgeId)
deriving DecidableEq, Inhabited

namespace PartialMatch

variable {rule : Rule} {graph : Hypergraph} {found : PartialMatch}

/-- The edges of the graph that are matched to something the rule creates. -/
def consumed (rule : Rule) (found : PartialMatch) : List EdgeId :=
  rule.createdEdges.filterMap found.edges.get?

/-- A vertex of the left side before the step. -/
def leftVertex (rule : Rule) (left : VertexId) : RemnantVertex :=
  match rule.vertexMap.get? left with
  | some right => .preserved right
  | none => .deleted left

/-- What is left of the graph, and what the rule has in its stead. An edge of the graph goes to the
vertices that the match attaches it to. -/
def remnant (rule : Rule) (graph : Hypergraph) (found : PartialMatch) :
    Skeleton RemnantVertex RemnantEdge where
  vertex
    | .outside vertex => graph.hasVertex vertex = true ∧ found.block vertex = []
    | .preserved right => right ∈ rule.vertexMap.values
    | .deleted left => left ∈ rule.deletedVertices
  edge?
    | .remaining edge =>
      if edge ∈ consumed rule found then none
      else (Split.rerouted rule found graph edge).map fun (label, ends) =>
        (label, ends.map (Sum.elim .outside .preserved))
    | .preserved right =>
      if right ∈ rule.edgeMap.values ∧ found.edges.contains right = false then
        (rule.right.skeleton.edge? right).map fun (label, ends) => (label, ends.map .preserved)
      else none
    | .deleted left =>
      if left ∈ rule.deletedEdges then (rule.left.skeleton.edge? left).map fun (label, ends) =>
        (label, ends.map (leftVertex rule)) else none

/-- The vertex of the graph that a vertex before the step has come from. -/
def Stands (found : PartialMatch) : RemnantVertex → VertexId → Prop
  | .outside kept, vertex => kept = vertex
  | .preserved right, vertex => found.vertices.get? right = some vertex
  | .deleted _, _ => False

theorem mem_consumed {edge : EdgeId} :
    edge ∈ consumed rule found ↔ ∃ right ∈ rule.createdEdges, found.edges.get? right = some edge :=
  List.mem_filterMap

theorem remnant_remaining {edge : EdgeId} {label : String} {places : List RemnantVertex} :
    (remnant rule graph found).edge? (.remaining edge) = some (label, places) ↔
    edge ∉ consumed rule found ∧
      ∃ members, Split.rerouted rule found graph edge = some (label, members) ∧
        members.map (Sum.elim .outside .preserved) = places := by
  simp only [remnant]
  split
  next gone => exact ⟨nofun, fun known => absurd gone known.1⟩
  next left => simp [left]

theorem remnant_preserved {right : EdgeId} {label : String} {places : List RemnantVertex} :
    (remnant rule graph found).edge? (.preserved right) = some (label, places) ↔
      (right ∈ rule.edgeMap.values ∧ found.edges.contains right = false) ∧
        ∃ ends, rule.right.skeleton.edge? right = some (label, ends) ∧
          ends.map .preserved = places := by
  simp only [remnant]
  split
  next inside => simp [inside]
  next outside => exact ⟨nofun, fun known => absurd known.1 outside⟩

theorem remnant_deleted {left : EdgeId} {label : String} {places : List RemnantVertex} :
    (remnant rule graph found).edge? (.deleted left) = some (label, places) ↔
    left ∈ rule.deletedEdges ∧
      ∃ ends, rule.left.skeleton.edge? left = some (label, ends) ∧
        ends.map (leftVertex rule) = places := by
  simp only [remnant]
  split
  next inside => simp [inside]
  next outside => exact ⟨nofun, fun known => absurd known.1 outside⟩

/-- Up to the splitting of shared images, an edge of the graph runs as it did. -/
theorem remnant_stands (overlap : found.Overlap rule graph) {edge : EdgeId} {label : String}
    {ends : List VertexId} (stored : graph.skeleton.edge? edge = some (label, ends))
    (left : edge ∉ consumed rule found) : ∃ places,
      (remnant rule graph found).edge? (.remaining edge) = some (label, places) ∧
      List.Forall₂ found.Stands places ends := by
  have routed : Split.rerouted rule found graph edge =
      some (label, ends.zipIdx.map (Split.goal rule found edge)) := by
    rw [Split.rerouted, stored]
    rfl
  refine ⟨_, remnant_remaining.mpr ⟨left, _, routed, rfl⟩,
    Listing.along_of_getElem? (by simp) fun index place vertex atPlace atVertex => ?_⟩
  rw [List.getElem?_map, Listing.getElem?_map_zipIdx, atVertex, Option.map_some, Option.map_some,
    Option.some.injEq] at atPlace
  subst atPlace
  rcases Split.goal_cases overlap stored atVertex with ⟨_, same⟩ | ⟨right, mapped, same, _⟩
  · rw [same]
    rfl
  · rw [same]
    exact mapped

section Before

/-- A vertex of the remnant, by its name in the context filled with the left side. -/
def home (rule : Rule) : RemnantVertex → VertexId ⊕ VertexId
  | .outside vertex => .inl vertex
  | .preserved right => .inr (rule.origin right)
  | .deleted left => .inr left

/-- An edge of the remnant, by its name in the context filled with the left side. -/
def homeEdge (rule : Rule) (found : PartialMatch) : RemnantEdge → EdgeId ⊕ EdgeId
  | .remaining edge => (Overlap.image found edge).map id rule.originEdge
  | .preserved right => .inr (rule.originEdge right)
  | .deleted left => .inr left

/-- What a vertex of the context or of the left side is in the remnant. -/
def seat (rule : Rule) : VertexId ⊕ VertexId → RemnantVertex := Sum.elim .outside (leftVertex rule)

/-- What an edge of the context or of the left side is in the remnant. -/
def seatEdge (rule : Rule) (found : PartialMatch) : EdgeId ⊕ EdgeId → RemnantEdge
  | .inl edge => .remaining edge
  | .inr left =>
    match rule.edgeMap.get? left with
    | none => .deleted left
    | some right =>
      match found.edges.get? right with
      | some edge => .remaining edge
      | none => .preserved right

private theorem leftVertex_mapped {left right : VertexId}
    (mapped : rule.vertexMap.get? left = some right) :
    leftVertex rule left = .preserved right := by
  rw [leftVertex, mapped]

private theorem leftVertex_unmapped {left : VertexId} (unmapped : rule.vertexMap.get? left = none) :
    leftVertex rule left = .deleted left := by
  rw [leftVertex, unmapped]

private theorem seat_home (valid : rule.Valid) {one : RemnantVertex}
    (inside : (remnant rule graph found).vertex one) :
    seat rule (home rule one) = one := by
  cases one with
  | outside vertex => rfl
  | preserved right =>
    obtain ⟨left, mapped⟩ := Table.mem_values_iff.mp inside
    rw [home, valid.origin_eq mapped]
    exact leftVertex_mapped mapped
  | deleted left => exact leftVertex_unmapped (Rule.mem_deletedVertices.mp inside).2

private theorem home_leftVertex (valid : rule.Valid) (left : VertexId) :
    home rule (leftVertex rule left) = .inr left := by
  cases mapped : rule.vertexMap.get? left with
  | some right => rw [leftVertex_mapped mapped, home, valid.origin_eq mapped]
  | none => rw [leftVertex_unmapped mapped, home]

private theorem home_seat (valid : rule.Valid) (one : VertexId ⊕ VertexId) :
    home rule (seat rule one) = one := by
  cases one with
  | inl vertex => rfl
  | inr left => exact home_leftVertex valid left

variable {overlap : found.Overlap rule graph} {formed : graph.WellFormed}

private theorem home_inside (valid : rule.Valid) {one : RemnantVertex}
    (inside : (remnant rule graph found).vertex one) :
    (overlap.context formed).before.vertex (home rule one) := by
  cases one with
  | outside vertex => exact inside
  | preserved right =>
    obtain ⟨left, mapped⟩ := Table.mem_values_iff.mp inside
    rw [home, valid.origin_eq mapped]
    exact (valid.vertex_sides mapped).1
  | deleted left => exact (Rule.mem_deletedVertices.mp inside).1

private theorem seat_inside (overlap : found.Overlap rule graph) (formed : graph.WellFormed)
    {one : VertexId ⊕ VertexId} (inside : (overlap.context formed).before.vertex one) :
    (remnant rule graph found).vertex (seat rule one) := by
  cases one with
  | inl vertex => exact inside
  | inr left =>
    change (remnant rule graph found).vertex (leftVertex rule left)
    cases mapped : rule.vertexMap.get? left with
    | some right =>
      rw [leftVertex_mapped mapped]
      exact Table.mem_values_iff.mpr ⟨left, mapped⟩
    | none =>
      rw [leftVertex_unmapped mapped]
      exact Rule.mem_deletedVertices.mpr ⟨inside, mapped⟩

private theorem preserved_of_remaining (overlap : found.Overlap rule graph) {right edge : EdgeId}
    (mapped : found.edges.get? right = some edge) (left : edge ∉ consumed rule found) :
    ∃ source, rule.edgeMap.get? source = some right := by
  obtain ⟨label, ends, _, there, _⟩ := overlap.edge_sides mapped
  refine (Context.createdEdge_or_preserved ⟨label, ends, there⟩).resolve_left fun created => left ?_
  exact mem_consumed.mpr ⟨right, created, mapped⟩

private theorem preserved_kept (valid : rule.Valid) {left right : EdgeId}
    (mapped : rule.edgeMap.get? left = some right) {label : String} {ends : List VertexId}
    (stored : rule.right.skeleton.edge? right = some (label, ends)) :
    (overlap.context formed).before.edge? (.inr left) =
      some (label, (ends.map .preserved).map (home rule)) := by
  obtain ⟨label', sources, others, here, there, along⟩ := Context.preservedEdge_sides valid mapped
  rw [stored, Option.some.injEq, Prod.mk.injEq] at there
  obtain ⟨rfl, rfl⟩ := there
  refine Context.fill_side.mpr ⟨sources, here, ?_⟩
  rw [List.map_map]
  refine Listing.map_eq_of_along along fun one other mapped => ?_
  rw [Function.comp_apply, home, valid.origin_eq mapped]

private theorem remaining_kept (valid : rule.Valid) {edge : EdgeId} {label : String}
    {members : List (VertexId ⊕ VertexId)} (left : edge ∉ consumed rule found)
    (routed : Split.rerouted rule found graph edge = some (label, members)) :
    (overlap.context formed).before.edge? (homeEdge rule found (.remaining edge)) =
      some (label, (members.map (Sum.elim .outside .preserved)).map (home rule)) := by
  by_cases matched : edge ∈ found.edges.values
  · obtain ⟨right, mapped⟩ := Table.mem_values_iff.mp matched
    obtain ⟨source, preserved⟩ := preserved_of_remaining overlap mapped left
    obtain ⟨label', ends, _, there, _⟩ := overlap.edge_sides mapped
    rw [Split.rerouted_matched overlap mapped there, Option.some.injEq, Prod.mk.injEq] at routed
    obtain ⟨rfl, rfl⟩ := routed
    have placed : (ends.map Sum.inr).map (Sum.elim RemnantVertex.outside .preserved) =
        ends.map .preserved := by
      rw [List.map_map]
      rfl
    rw [homeEdge, Overlap.image_matched overlap mapped, Sum.map_inr,
      valid.originEdge_eq preserved, placed]
    exact preserved_kept valid preserved there
  · rw [Split.rerouted_unmatched overlap formed matched] at routed
    rw [homeEdge, Overlap.image_unmatched matched, Sum.map_inl]
    refine Context.fill_context.mpr ⟨members, routed, ?_⟩
    rw [List.map_map]
    refine List.map_congr_left fun place _ => ?_
    cases place with
    | inl vertex => rfl
    | inr right => rfl

private theorem home_kept (valid : rule.Valid) {one : RemnantEdge} {label : String}
    {places : List RemnantVertex}
    (stored : (remnant rule graph found).edge? one = some (label, places)) :
    (overlap.context formed).before.edge? (homeEdge rule found one) =
      some (label, places.map (home rule)) := by
  cases one with
  | remaining edge =>
    obtain ⟨left, members, routed, rfl⟩ := remnant_remaining.mp stored
    exact remaining_kept valid left routed
  | preserved right =>
    obtain ⟨⟨inside, _⟩, ends, there, rfl⟩ := remnant_preserved.mp stored
    obtain ⟨left, mapped⟩ := Table.mem_values_iff.mp inside
    rw [homeEdge, valid.originEdge_eq mapped]
    exact preserved_kept valid mapped there
  | deleted left =>
    obtain ⟨gone, ends, here, rfl⟩ := remnant_deleted.mp stored
    refine Context.fill_side.mpr ⟨ends, here, ?_⟩
    rw [List.map_map]
    exact List.map_congr_left fun vertex _ => (home_leftVertex valid vertex).symm

private theorem seat_homeEdge (valid : rule.Valid) (overlap : found.Overlap rule graph)
    {one : RemnantEdge} (inside : (remnant rule graph found).HasEdge one) :
    seatEdge rule found (homeEdge rule found one) = one := by
  obtain ⟨label, places, stored⟩ := inside
  cases one with
  | remaining edge =>
    obtain ⟨left, _⟩ := remnant_remaining.mp stored
    by_cases matched : edge ∈ found.edges.values
    · obtain ⟨right, mapped⟩ := Table.mem_values_iff.mp matched
      obtain ⟨source, preserved⟩ := preserved_of_remaining overlap mapped left
      rw [homeEdge, Overlap.image_matched overlap mapped, Sum.map_inr, valid.originEdge_eq preserved]
      simp only [seatEdge, preserved, mapped]
    · rw [homeEdge, Overlap.image_unmatched matched]
      rfl
  | preserved right =>
    obtain ⟨⟨inside, unmatched⟩, _⟩ := remnant_preserved.mp stored
    obtain ⟨left, mapped⟩ := Table.mem_values_iff.mp inside
    rw [Table.contains, Option.isSome_eq_false_iff, Option.isNone_iff_eq_none] at unmatched
    rw [homeEdge, valid.originEdge_eq mapped]
    simp only [seatEdge, mapped, unmatched]
  | deleted left =>
    obtain ⟨gone, _⟩ := remnant_deleted.mp stored
    simp only [homeEdge, seatEdge, (Rule.mem_deletedEdges.mp gone).2]

private theorem seatEdge_inside (valid : rule.Valid) {target : EdgeId ⊕ EdgeId}
    (inside : (overlap.context formed).before.HasEdge target) :
    (remnant rule graph found).HasEdge (seatEdge rule found target) ∧
    homeEdge rule found (seatEdge rule found target) = target := by
  cases target with
  | inl edge =>
    obtain ⟨label, places, stored⟩ := Context.fill_hasEdge_context.mp inside
    obtain ⟨unmatched, ends, here, rfl⟩ := PartialMatch.Overlap.context_edge.mp stored
    have left : edge ∉ consumed rule found := fun gone => by
      obtain ⟨right, _, mapped⟩ := mem_consumed.mp gone
      exact unmatched (Table.mem_values_iff.mpr ⟨right, mapped⟩)
    obtain ⟨places, known, _⟩ := remnant_stands overlap here left
    exact ⟨⟨label, places, known⟩, by rw [seatEdge, homeEdge, Overlap.image_unmatched unmatched]; rfl⟩
  | inr source =>
    obtain ⟨label, ends, here⟩ := Context.fill_hasEdge_side.mp inside
    cases mapped : rule.edgeMap.get? source with
    | none =>
      simp only [seatEdge, mapped]
      have deleted :=
        Rule.mem_deletedEdges.mpr ⟨Hypergraph.skeleton_hasEdge.mp ⟨label, ends, here⟩, mapped⟩
      exact ⟨⟨label, _, remnant_deleted.mpr ⟨deleted, ends, here, rfl⟩⟩, rfl⟩
    | some right =>
      obtain ⟨label', _, others, _, there, _⟩ := Context.preservedEdge_sides valid mapped
      cases matched : found.edges.get? right with
      | none =>
        simp only [seatEdge, mapped, matched]
        have unmatched : found.edges.contains right =
          false := by rw [Table.contains, matched, Option.isSome_none]
        refine ⟨⟨label', _,
          remnant_preserved.mpr ⟨⟨Table.mem_values_iff.mpr ⟨source, mapped⟩, unmatched⟩, others,
            there, rfl⟩⟩, ?_⟩
        rw [homeEdge, valid.originEdge_eq mapped]
      | some edge =>
        simp only [seatEdge, mapped, matched]
        obtain ⟨_, _, ends', _, here', _⟩ := overlap.edge_sides matched
        have left : edge ∉ consumed rule found := fun gone => by
          obtain ⟨other, created, mapped'⟩ := mem_consumed.mp gone
          exact (Rule.mem_createdEdges.mp created).2 source
            (overlap.edge_injective mapped' matched ▸ mapped)
        obtain ⟨places, known, _⟩ := remnant_stands overlap here' left
        refine ⟨⟨_, places, known⟩, ?_⟩
        rw [homeEdge, Overlap.image_matched overlap matched, Sum.map_inr, valid.originEdge_eq mapped]

private theorem preserved_ends (valid : rule.Valid) {left right : EdgeId}
    (mapped : rule.edgeMap.get? left = some right) {label : String} {ends : List VertexId}
    (stored : rule.right.skeleton.edge? right = some (label, ends)) :
    ∀ vertex ∈ ends, vertex ∈ rule.vertexMap.values := by
  intro vertex member
  obtain ⟨_, _, others, _, there, along⟩ := Context.preservedEdge_sides valid mapped
  rw [stored, Option.some.injEq, Prod.mk.injEq] at there
  obtain ⟨-, rfl⟩ := there
  obtain ⟨source, _, mapped⟩ := Listing.along_right along member
  exact Table.mem_values_iff.mpr ⟨source, mapped⟩

private theorem remnant_closed (valid : rule.Valid) (formedLeft : rule.left.WellFormed)
    (overlap : found.Overlap rule graph) (formed : graph.WellFormed) :
    (remnant rule graph found).Closed := by
  intro one label places stored place member
  cases one with
  | remaining edge =>
    obtain ⟨left, members, routed, rfl⟩ := remnant_remaining.mp stored
    obtain ⟨source, inside, rfl⟩ := List.mem_map.mp member
    by_cases matched : edge ∈ found.edges.values
    · obtain ⟨right, mapped⟩ := Table.mem_values_iff.mp matched
      obtain ⟨origin, preserved⟩ := preserved_of_remaining overlap mapped left
      obtain ⟨label', ends, _, there, _⟩ := overlap.edge_sides mapped
      rw [Split.rerouted_matched overlap mapped there, Option.some.injEq, Prod.mk.injEq] at routed
      obtain ⟨rfl, rfl⟩ := routed
      obtain ⟨vertex, onEdge, rfl⟩ := List.mem_map.mp inside
      exact preserved_ends valid preserved there vertex onEdge
    · rw [Split.rerouted_unmatched overlap formed matched] at routed
      have closed := (overlap.context formed).closed routed source inside
      cases source with
      | inl vertex => exact closed
      | inr right => exact Rule.preserved_iff.mp closed
  | preserved right =>
    obtain ⟨⟨inside, _⟩, ends, there, rfl⟩ := remnant_preserved.mp stored
    obtain ⟨left, mapped⟩ := Table.mem_values_iff.mp inside
    obtain ⟨vertex, onEdge, rfl⟩ := List.mem_map.mp member
    exact preserved_ends valid mapped there vertex onEdge
  | deleted left =>
    obtain ⟨_, ends, here, rfl⟩ := remnant_deleted.mp stored
    obtain ⟨vertex, onEdge, rfl⟩ := List.mem_map.mp member
    have inside : (overlap.context formed).before.vertex (.inr vertex) :=
      formedLeft.closed _ _ _ here vertex onEdge
    exact seat_inside overlap formed inside

/-- The remnant is the context filled with the left side. -/
def remnantIso (valid : rule.Valid) (overlap : found.Overlap rule graph) (formed : graph.WellFormed) :
    Skeleton.Iso (remnant rule graph found) (overlap.context formed).before where
  vertex := home rule
  edge := homeEdge rule found
  vertex_inside := home_inside valid
  vertex_injective first second same := by rw [← seat_home valid first, same, seat_home valid second]
  vertex_surjective inside := ⟨_, seat_inside overlap formed inside, home_seat valid _⟩
  edge_kept := home_kept valid
  edge_injective first second same := by
    rw [← seat_homeEdge valid overlap first, same, seat_homeEdge valid overlap second]
  edge_surjective inside := ⟨_, seatEdge_inside valid inside⟩

end Before

section Counts

/-- The vertices of the remnant. -/
private def remnantVertices (rule : Rule) (graph : Hypergraph) (found : PartialMatch) :
    List RemnantVertex :=
  (graph.vertexIds.filter fun vertex => found.block vertex = []).map .outside ++
    rule.vertexMap.values.map .preserved ++
    rule.deletedVertices.map .deleted

/-- The edges of the remnant. -/
private def remnantEdges (rule : Rule) (graph : Hypergraph) (found : PartialMatch) :
    List RemnantEdge :=
  (graph.edgeIds.filter fun edge => edge ∉ consumed rule found).map .remaining ++
    (rule.edgeMap.values.filter fun right => !found.edges.contains right).map .preserved ++
      rule.deletedEdges.map .deleted

private theorem mem_remnantVertices (one : RemnantVertex) : one ∈ remnantVertices rule graph found ↔
    (remnant rule graph found).vertex one := by
  cases one <;> simp [remnantVertices, remnant, Hypergraph.mem_vertexIds]

private theorem nodup_parts {α δ : Type} {first second third : List α} {one two three : α → δ}
    (injective : one.Injective ∧ two.Injective ∧ three.Injective)
    (distinct : first.Nodup ∧ second.Nodup ∧ third.Nodup)
    (apart : ∀ left right, one left ≠ two right ∧ one left ≠ three right ∧ two left ≠ three right) :
    (first.map one ++ second.map two ++ third.map three).Nodup := by
  rw [List.nodup_append', List.nodup_append']
  refine ⟨⟨distinct.1.map injective.1, distinct.2.1.map injective.2.1, fun item left right => ?_⟩,
    distinct.2.2.map injective.2.2, fun item left right => ?_⟩
  · obtain ⟨source, _, rfl⟩ := List.mem_map.mp left
    obtain ⟨other, _, same⟩ := List.mem_map.mp right
    exact (apart source other).1 same.symm
  · obtain ⟨other, _, rfl⟩ := List.mem_map.mp right
    rcases List.mem_append.mp left with left | left
    · obtain ⟨source, _, same⟩ := List.mem_map.mp left
      exact (apart source other).2.1 same
    · obtain ⟨source, _, same⟩ := List.mem_map.mp left
      exact (apart source other).2.2 same

private theorem nodup_remnantVertices (valid : rule.Valid) :
    (remnantVertices rule graph found).Nodup :=
  nodup_parts ⟨fun _ _ => RemnantVertex.outside.inj, fun _ _ => RemnantVertex.preserved.inj,
    fun _ _ => RemnantVertex.deleted.inj⟩
    ⟨Hypergraph.nodup_vertexIds.filter _, Table.nodup_values_iff.mpr valid.vertex_injective,
      Hypergraph.nodup_vertexIds.filter _⟩ fun _ _ => ⟨nofun, nofun, nofun⟩

private theorem mem_remnantEdges (valid : rule.Valid) (overlap : found.Overlap rule graph)
    (one : RemnantEdge) :
    one ∈ remnantEdges rule graph found ↔ (remnant rule graph found).HasEdge one := by
  cases one with
  | remaining edge =>
    simp only [remnantEdges, Skeleton.HasEdge, remnant_remaining, List.mem_append, List.mem_map,
      List.mem_filter, Hypergraph.mem_edgeIds_iff]
    constructor
    · intro known
      obtain ⟨⟨_, ⟨⟨label, ends, stored⟩, left⟩, same⟩ | ⟨_, _, same⟩⟩ | ⟨_, _, same⟩ := known
      · cases same
        obtain ⟨places, known, _⟩ := remnant_stands overlap stored (of_decide_eq_true left)
        exact ⟨label, places, remnant_remaining.mp known⟩
      · cases same
      · cases same
    · intro known
      obtain ⟨label, _, left, members, routed, _⟩ := known
      obtain ⟨⟨_, ends⟩, stored, _⟩ := Option.map_eq_some_iff.mp routed
      exact .inl (.inl ⟨edge, ⟨⟨_, ends, stored⟩, decide_eq_true left⟩, rfl⟩)
  | preserved right =>
    simp only [remnantEdges, Skeleton.HasEdge, remnant_preserved, List.mem_append, List.mem_map,
      List.mem_filter, Bool.not_eq_true']
    constructor
    · intro known
      obtain ⟨⟨_, _, same⟩ | ⟨_, inside, same⟩⟩ | ⟨_, _, same⟩ := known
      · cases same
      · cases same
        obtain ⟨left, mapped⟩ := Table.mem_values_iff.mp inside.1
        obtain ⟨label, _, others, _, there, _⟩ := Context.preservedEdge_sides valid mapped
        exact ⟨label, _, inside, others, there, rfl⟩
      · cases same
    · intro known
      obtain ⟨_, _, inside, _⟩ := known
      exact .inl (.inr ⟨right, inside, rfl⟩)
  | deleted left =>
    simp only [remnantEdges, Skeleton.HasEdge, remnant_deleted, List.mem_append, List.mem_map]
    constructor
    · intro known
      obtain (⟨_, _, same⟩ | ⟨_, _, same⟩) | ⟨_, gone, same⟩ := known
      · cases same
      · cases same
      · cases same
        obtain ⟨label, ends, here⟩ :=
          Hypergraph.skeleton_hasEdge.mpr (Rule.mem_deletedEdges.mp gone).1
        exact ⟨label, _, gone, ends, here, rfl⟩
    · intro known
      obtain ⟨_, _, gone, _⟩ := known
      exact .inr ⟨left, gone, rfl⟩

private theorem nodup_remnantEdges (valid : rule.Valid) : (remnantEdges rule graph found).Nodup :=
  nodup_parts ⟨fun _ _ => RemnantEdge.remaining.inj, fun _ _ => RemnantEdge.preserved.inj,
    fun _ _ => RemnantEdge.deleted.inj⟩
    ⟨Hypergraph.nodup_edgeIds.filter _, (Table.nodup_values_iff.mpr valid.edge_injective).filter _,
      Hypergraph.nodup_edgeIds.filter _⟩
    fun _ _ => ⟨nofun, nofun, nofun⟩

private theorem length_order_eq (found : PartialMatch) :
    found.order.length = found.blocks.size +
      (found.blocks.values.map fun block => block.length - 1).sum := by
  -- Each image counts itself and the vertices beyond the first that share it.
  have some : ∀ entry ∈ found.blocks.entries, 1 ≤ entry.2.length := fun entry listed =>
    List.length_pos_of_ne_nil ((Matching.mem_blocks.mp listed).1 ▸ (Matching.mem_blocks.mp listed).2)
  rw [order, List.length_flatMap, Table.values, Table.size]
  generalize found.blocks.entries = entries at some ⊢
  induction entries with
  | nil => rfl
  | cons entry rest ih =>
    rw [List.forall_mem_cons] at some
    simp only [List.map_cons, List.sum_cons, List.length_cons, ih some.2]
    omega

private theorem length_matched_images (overlap : found.Overlap rule graph) :
    (graph.vertexIds.filter fun vertex => !decide (found.block vertex = [])).length =
      found.blocks.size := by
  rw [← Table.length_keys]
  refine ((List.perm_ext_iff_of_nodup (Hypergraph.nodup_vertexIds.filter _) Table.nodup_keys).mpr
    fun vertex => ?_).length_eq
  rw [List.mem_filter, Bool.not_eq_true', decide_eq_false_iff_not, Hypergraph.mem_vertexIds]
  constructor
  · intro known
    exact List.mem_map.mpr ⟨(vertex, found.block vertex), Matching.mem_blocks.mpr ⟨rfl, known.2⟩, rfl⟩
  · intro known
    obtain ⟨⟨image, block⟩, listed, rfl⟩ := List.mem_map.mp known
    obtain ⟨same, some⟩ := Matching.mem_blocks.mp listed
    obtain ⟨right, member⟩ := List.exists_mem_of_ne_nil _ some
    exact ⟨(overlap.vertex_sides (mem_block.mp (same ▸ member))).2, same ▸ some⟩

private theorem length_matched_vertices (overlap : found.Overlap rule graph) (valid : rule.Valid) :
    found.order.length =
    (rule.createdVertices.filter found.vertices.contains).length +
      (rule.vertexMap.values.filter found.vertices.contains).length := by
  rw [← List.length_append]
  refine ((List.perm_ext_iff_of_nodup nodup_order ?_).mpr fun right => ?_).length_eq
  · rw [List.nodup_append']
    refine ⟨(Hypergraph.nodup_vertexIds.filter _).filter _,
      (Table.nodup_values_iff.mpr valid.vertex_injective).filter _, fun right created preserved => ?_⟩
    exact (Rule.mem_createdVertices.mp (List.mem_of_mem_filter created)).2
      (Rule.preserved_iff.mpr (List.mem_of_mem_filter preserved))
  · rw [mem_order, List.mem_append, List.mem_filter, List.mem_filter, ← Table.contains_iff,
      ← or_and_right, ← Rule.preserved_iff]
    refine ⟨fun mapped => ⟨?_, mapped⟩, And.right⟩
    obtain ⟨vertex, mapped⟩ := Table.contains_iff.mp mapped
    exact Context.created_or_preserved (overlap.vertex_sides mapped).1

private theorem length_consumed (overlap : found.Overlap rule graph) :
    (graph.edgeIds.filter fun edge => !decide (edge ∉ consumed rule found)).length =
      (rule.createdEdges.filter found.edges.contains).length := by
  have images : (consumed rule found).length =
      (rule.createdEdges.filter found.edges.contains).length := by
    rw [consumed, List.length_filterMap_eq_countP, List.countP_eq_length_filter]
    rfl
  rw [← images]
  have distinct : (consumed rule found).Nodup :=
    (Hypergraph.nodup_edgeIds.filter _).filterMap fun _ _ _ first second =>
      overlap.edge_injective first second
  refine ((List.perm_ext_iff_of_nodup (Hypergraph.nodup_edgeIds.filter _) distinct).mpr
    fun edge => ?_).length_eq
  rw [List.mem_filter, Bool.not_eq_true', decide_eq_false_iff_not, not_not,
    Hypergraph.mem_edgeIds_iff, and_iff_right_iff_imp]
  intro gone
  obtain ⟨right, _, mapped⟩ := mem_consumed.mp gone
  obtain ⟨label, _, others, _, here, _⟩ := overlap.edge_sides mapped
  exact ⟨label, others, here⟩

private theorem length_remnantVertices (overlap : found.Overlap rule graph) (valid : rule.Valid) :
    (remnantVertices rule graph found).length +
      (rule.createdVertices.filter found.vertices.contains).length =
      graph.vertexCount + (found.blocks.values.map fun block => block.length - 1).sum +
        (rule.vertexMap.values.filter fun right => !found.vertices.contains right).length +
          rule.deletedVertices.length := by
  have whole :=
    graph.vertexIds.length_eq_length_filter_add fun vertex => decide (found.block vertex = [])
  have preserved := rule.vertexMap.values.length_eq_length_filter_add found.vertices.contains
  have images := length_matched_images overlap
  have blocks := length_order_eq found
  have matched := length_matched_vertices overlap valid
  rw [Hypergraph.length_vertexIds] at whole
  simp only [remnantVertices, List.length_append, List.length_map]
  omega

private theorem length_remnantEdges (overlap : found.Overlap rule graph) :
    (remnantEdges rule graph found).length + (rule.createdEdges.filter found.edges.contains).length =
      graph.edgeCount +
        (rule.edgeMap.values.filter fun right => !found.edges.contains right).length +
          rule.deletedEdges.length := by
  have whole :=
    graph.edgeIds.length_eq_length_filter_add fun edge => decide (edge ∉ consumed rule found)
  have gone := length_consumed overlap
  rw [Hypergraph.length_edgeIds] at whole
  simp only [remnantEdges, List.length_append, List.length_map]
  omega

end Counts

/-- A graph is the complement of a match if it is made up of the remnant and nothing else. Vertices
and edges of the graph that the match leaves alone are still there under their identifiers; at a
shared image the first vertex stays there. -/
structure Complements (rule : Rule) (graph : Hypergraph) (found : PartialMatch)
    (result : Hypergraph) (place : RemnantVertex → VertexId)
    (name : RemnantEdge → EdgeId) : Prop where
  shows : result.Shows (found.remnant rule graph) place name
  stands : ∀ {edge label ends}, graph.skeleton.edge? edge = some (label, ends) →
    edge ∉ consumed rule found → ∃ places,
    (found.remnant rule graph).edge? (.remaining edge) = some (label, places) ∧
    List.Forall₂ found.Stands places ends
  outside : ∀ vertex, place (.outside vertex) = vertex
  first : ∀ {right vertex rest}, right ∈ rule.vertexMap.values →
    found.block vertex = right :: rest → place (.preserved right) = vertex
  whole : ∀ {edge}, graph.skeleton.HasEdge edge → edge ∉ consumed rule found →
    ¬found.Splits graph edge → name (.remaining edge) = edge
  vertexCount : result.vertexCount + (rule.createdVertices.filter found.vertices.contains).length =
    graph.vertexCount + (found.blocks.values.map fun block => block.length - 1).sum +
      (rule.vertexMap.values.filter fun right => !found.vertices.contains right).length +
        rule.deletedVertices.length
  edgeCount : result.edgeCount + (rule.createdEdges.filter found.edges.contains).length =
    graph.edgeCount + (rule.edgeMap.values.filter fun right => !found.edges.contains right).length +
      rule.deletedEdges.length

/-- The complement is made up of the remnant. -/
theorem exists_complements (valid : rule.Valid) (formedLeft : rule.left.WellFormed)
    (overlap : found.Overlap rule graph) (formed : graph.WellFormed) (numbered : graph.Numbered)
    (room : graph.HasRoomFor rule) : ∃ result place name,
      complement rule graph found = .ok result ∧ Complements rule graph found result place name := by
  obtain ⟨result, place, name, made, shown, settled⟩ :=
    complement_shows valid formedLeft overlap formed numbered room
  have shows :=
    shown.rename (remnantIso valid overlap formed) (remnant_closed valid formedLeft overlap formed)
      (fun _ => rfl) (fun _ => rfl)
  refine ⟨result, _, _, made,
    ⟨shows, remnant_stands overlap, settled.vertex, fun {right vertex rest} preserved block => ?_,
    fun {edge} present left whole => ?_, ?_, ?_⟩⟩
  · obtain ⟨left, mapped⟩ := Table.mem_values_iff.mp preserved
    change place (.inr (rule.origin right)) = vertex
    rw [valid.origin_eq mapped, settled.head mapped ⟨vertex, rest, block⟩,
      anchor_eq (head_mapped block)]
  · change name ((Overlap.image found edge).map id rule.originEdge) = edge
    by_cases matched : edge ∈ found.edges.values
    · obtain ⟨right, mapped⟩ := Table.mem_values_iff.mp matched
      obtain ⟨source, preserved⟩ := preserved_of_remaining overlap mapped left
      rw [Overlap.image_matched overlap mapped, Sum.map_inr, valid.originEdge_eq preserved]
      exact settled.matched preserved mapped whole
    · rw [Overlap.image_unmatched matched]
      exact settled.edge whole
  · rw [shows.vertexCount_eq (nodup_remnantVertices valid) mem_remnantVertices]
    exact length_remnantVertices overlap valid
  · rw [shows.edgeCount_eq (nodup_remnantEdges valid) (mem_remnantEdges valid overlap)]
    exact length_remnantEdges overlap

end PartialMatch

end Coverability
