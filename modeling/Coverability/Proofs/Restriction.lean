import Coverability.Proofs.Comparison
import Coverability.Proofs.Embedding
import Coverability.Proofs.Remnant
import Coverability.Proofs.RigidMatches

/-! Rules inside other rules. A match of a rule can be restricted to a rule inside it, as long as
nothing created is matched outside. What the restricted match leaves of a graph lies in what the whole
match leaves: what is no longer matched was only preserved, and it stays in the graph instead. -/

namespace Coverability

/-- A rule inside another one. It creates, keeps and deletes what the other rule does, and where it
creates a vertex, it has all edges that the other rule has there. -/
structure Rule.Inside (small big : Rule) (first second : Morphism) : Prop where
  left : first.Embeds small.left big.left
  right : second.Embeds small.right big.right
  vertexMap : ∀ {one other image}, small.vertexMap.get? one = some other →
    first.vertex? one = some image →
    ∃ place, second.vertex? other = some place ∧ big.vertexMap.get? image = some place
  edgeMap : ∀ {one other image}, small.edgeMap.get? one = some other → first.edge? one = some image →
    ∃ place, second.edge? other = some place ∧ big.edgeMap.get? image = some place
  createdVertex : ∀ {one image}, one ∈ small.createdVertices → second.vertex? one = some image →
    image ∈ big.createdVertices
  createdEdge : ∀ {one image}, one ∈ small.createdEdges → second.edge? one = some image →
    image ∈ big.createdEdges
  deletedVertex : ∀ {one image}, one ∈ small.deletedVertices → first.vertex? one = some image →
    image ∈ big.deletedVertices
  deletedEdge : ∀ {one image}, one ∈ small.deletedEdges → first.edge? one = some image →
    image ∈ big.deletedEdges
  closed : ∀ {one image edge label ends}, one ∈ small.createdVertices →
    second.vertex? one = some image →
    big.right.skeleton.edge? edge = some (label, ends) → image ∈ ends →
    ∃ source, second.edge? source = some edge

namespace Rule.Inside

variable {small big : Rule} {first second : Morphism}

/-- What is created in the bigger rule is created in the smaller one, since the maps agree. -/
theorem createdVertex_of_image (inside : small.Inside big first second) (valid : small.Valid)
    {one image : VertexId} (placed : second.vertex? one = some image)
    (created : image ∈ big.createdVertices) : one ∈ small.createdVertices := by
  refine (Context.created_or_preserved (inside.right.vertex_iff.mp ⟨image, placed⟩)).resolve_right
    fun ⟨source, mapped⟩ => ?_
  obtain ⟨origin, placedLeft⟩ := inside.left.vertex_iff.mpr (valid.vertex_sides mapped).1
  obtain ⟨place, placed', preserved⟩ := inside.vertexMap mapped placedLeft
  cases placed.symm.trans placed'
  exact (mem_createdVertices.mp created).2 ⟨origin, preserved⟩

theorem createdEdge_of_image (inside : small.Inside big first second) (valid : small.Valid)
    {one image : EdgeId} (placed : second.edge? one = some image)
    (created : image ∈ big.createdEdges) : one ∈ small.createdEdges := by
  refine (Context.createdEdge_or_preserved (inside.right.edge_iff.mp ⟨image, placed⟩)).resolve_right
    fun ⟨source, mapped⟩ => ?_
  obtain ⟨stored, _, here, _⟩ := valid.edge_sides mapped
  obtain ⟨origin, placedLeft⟩ := inside.left.edge_iff.mpr ⟨_, _, Hypergraph.skeleton_edge here⟩
  obtain ⟨place, placed', preserved⟩ := inside.edgeMap mapped placedLeft
  cases placed.symm.trans placed'
  exact (mem_createdEdges.mp created).2 origin preserved

end Rule.Inside

namespace PartialMatch

/-- A match of the smaller rule that places everything where the match of the bigger rule does. -/
structure Restricts (restricted found : PartialMatch) (second : Morphism) : Prop where
  vertices : ∀ {one vertex}, restricted.vertices.get? one = some vertex ↔
    ∃ image, second.vertex? one = some image ∧ found.vertices.get? image = some vertex
  edges : ∀ {one edge}, restricted.edges.get? one = some edge ↔
    ∃ image, second.edge? one = some image ∧ found.edges.get? image = some edge
  attached : restricted.attached = []

/-- Everything created that is matched lies in the smaller rule. -/
structure Within (found : PartialMatch) (big : Rule) (second : Morphism) : Prop where
  vertices : ∀ {image vertex}, image ∈ big.createdVertices →
    found.vertices.get? image = some vertex → ∃ one, second.vertex? one = some image
  edges : ∀ {image edge}, image ∈ big.createdEdges → found.edges.get? image = some edge →
    ∃ one, second.edge? one = some image

variable {small big : Rule} {first second : Morphism} {graph : Hypergraph}
  {found restricted : PartialMatch}

private theorem exists_composed {kind : Kind} (one other : Table (Id kind) (Id kind)) :
    ∃ table : Table (Id kind) (Id kind), ∀ {key value},
    table.get? key = some value ↔ ∃ image, one.get? key = some image ∧
      other.get? image = some value := by
  refine Table.exists_of_relation one.keys
    (fun ⟨image, placed, _⟩ => Table.mem_keys_iff.mpr ⟨image, placed⟩) ?_
  rintro key value value' ⟨_, placed, mapped⟩ ⟨_, placed', mapped'⟩
  cases placed.symm.trans placed'
  exact Option.some.inj (mapped.symm.trans mapped')

theorem exists_restricts (found : PartialMatch) (second : Morphism) :
    ∃ restricted : PartialMatch, restricted.Restricts found second := by
  obtain ⟨vertices, vertices_iff⟩ := exists_composed second.vertices found.vertices
  obtain ⟨edges, edges_iff⟩ := exists_composed second.edges found.edges
  exact ⟨{ vertices, edges, attached := [] }, vertices_iff, edges_iff, rfl⟩

namespace Restricts

theorem ended (restricts : restricted.Restricts found second)
    (inside : small.Inside big first second) (ended : found.Ended big) :
    restricted.Ended small := by
  intro one edge label ends mapped stored
  obtain ⟨image, placed, mapped⟩ := restricts.edges.mp mapped
  obtain ⟨_, _, others, here, there, along⟩ := inside.right.edge_kept placed
  cases stored.symm.trans here
  have some := ended mapped there
  rintro rfl
  cases along
  exact some rfl

/-- A match without shared images is one still, and it is still closed where something is created. -/
theorem rigid (restricts : restricted.Restricts found second)
    (inside : small.Inside big first second) (valid : small.Valid)
    (within : found.Within big second) (rigid : found.Rigid big graph) :
    restricted.Rigid small graph where
  vertex_sides mapped := by
    obtain ⟨image, placed, mapped⟩ := restricts.vertices.mp mapped
    exact ⟨inside.right.vertex_iff.mp ⟨image, placed⟩, (rigid.vertex_sides mapped).2⟩
  vertex_injective atOne atOther := by
    obtain ⟨image, placed, mapped⟩ := restricts.vertices.mp atOne
    obtain ⟨image', placed', mapped'⟩ := restricts.vertices.mp atOther
    cases rigid.vertex_injective mapped mapped'
    exact inside.right.vertex_injective placed placed'
  edge_sides mapped := by
    obtain ⟨image, placed, mapped⟩ := restricts.edges.mp mapped
    obtain ⟨label, ends, others, here, there, along⟩ := inside.right.edge_kept placed
    obtain ⟨_, _, others', there', target, along'⟩ := rigid.edge_sides mapped
    cases there.symm.trans there'
    refine ⟨label, ends, others', here, target,
      (Listing.along_trans along along').imp fun one vertex paired => ?_⟩
    exact restricts.vertices.mpr paired
  edge_injective atOne atOther := by
    obtain ⟨image, placed, mapped⟩ := restricts.edges.mp atOne
    obtain ⟨image', placed', mapped'⟩ := restricts.edges.mp atOther
    cases rigid.edge_injective mapped mapped'
    exact inside.right.edge_injective placed placed'
  touches := by
    refine rigid.touches.imp (fun ⟨image, created, matched⟩ => ?_) fun ⟨image, created, matched⟩ => ?_
    · obtain ⟨vertex, mapped⟩ := Table.contains_iff.mp matched
      obtain ⟨one, placed⟩ := within.vertices created mapped
      exact ⟨one, inside.createdVertex_of_image valid placed created,
        Table.contains_iff.mpr ⟨vertex, restricts.vertices.mpr ⟨image, placed, mapped⟩⟩⟩
    · obtain ⟨edge, mapped⟩ := Table.contains_iff.mp matched
      obtain ⟨one, placed⟩ := within.edges created mapped
      exact ⟨one, inside.createdEdge_of_image valid placed created,
        Table.contains_iff.mpr ⟨edge, restricts.edges.mpr ⟨image, placed, mapped⟩⟩⟩
  covered {one vertex edge label others} created mapped stored member := by
    obtain ⟨image, placed, mapped⟩ := restricts.vertices.mp mapped
    obtain ⟨target, mappedEdge⟩ :=
      Table.mem_values_iff.mp
        (rigid.covered (inside.createdVertex created placed) mapped stored member)
    obtain ⟨_, ends, _, there, stored', along⟩ := rigid.edge_sides mappedEdge
    cases stored.symm.trans stored'
    obtain ⟨end', onEdge, mapped'⟩ := Listing.along_right along member
    cases rigid.vertex_injective mapped mapped'
    obtain ⟨source, placedEdge⟩ := inside.closed created placed there onEdge
    exact Table.mem_values_iff.mpr ⟨source, restricts.edges.mpr ⟨target, placedEdge, mappedEdge⟩⟩
  unattached := restricts.attached

/-- The same edges of the graph are matched to something created. -/
theorem mem_consumed_iff (restricts : restricted.Restricts found second)
    (inside : small.Inside big first second) (valid : small.Valid)
    (within : found.Within big second) {edge : EdgeId} :
    edge ∈ consumed small restricted ↔ edge ∈ consumed big found := by
  rw [mem_consumed, mem_consumed]
  constructor
  · rintro ⟨one, created, mapped⟩
    obtain ⟨image, placed, mapped⟩ := restricts.edges.mp mapped
    exact ⟨image, inside.createdEdge created placed, mapped⟩
  · rintro ⟨image, created, mapped⟩
    obtain ⟨one, placed⟩ := within.edges created mapped
    exact ⟨one, inside.createdEdge_of_image valid placed created,
      restricts.edges.mpr ⟨image, placed, mapped⟩⟩

end Restricts

/-- Where a vertex that the restricted match leaves is in what the whole match leaves. -/
def carried (first second : Morphism) (found : PartialMatch) : RemnantVertex → RemnantVertex
  | .outside vertex =>
    match found.block vertex with
    | [] => .outside vertex
    | image :: _ => .preserved image
  | .preserved one => .preserved (second.vertices.getD one one)
  | .deleted one => .deleted (first.vertices.getD one one)

/-- Where an edge that the restricted match leaves is in what the whole match leaves. -/
def carriedEdge (first second : Morphism) : RemnantEdge → RemnantEdge
  | .remaining edge => .remaining edge
  | .preserved one => .preserved (second.edges.getD one one)
  | .deleted one => .deleted (first.edges.getD one one)

private theorem carried_unmatched {vertex : VertexId} (free : found.block vertex = []) :
    carried first second found (.outside vertex) = .outside vertex := by
  simp only [carried, free]

private theorem carried_matched (rigid : found.Rigid big graph) {image vertex : VertexId}
    (mapped : found.vertices.get? image = some vertex) :
    carried first second found (.outside vertex) = .preserved image := by
  cases block : found.block vertex with
  | nil => exact absurd mapped (block_eq_nil.mp block image)
  | cons other rest =>
    have mapped' : found.vertices.get? other = some vertex :=
      mem_block.mp (block ▸ List.mem_cons_self)
    simp only [carried, block, rigid.vertex_injective mapped mapped']

private theorem carried_preserved {one image : VertexId} (placed : second.vertex? one = some image) :
    carried first second found (.preserved one) = .preserved image := by
  rw [carried, Table.getD_eq, ← Morphism.vertex?, placed, Option.getD_some]

private theorem carried_deleted {one image : VertexId} (placed : first.vertex? one = some image) :
    carried first second found (.deleted one) = .deleted image := by
  rw [carried, Table.getD_eq, ← Morphism.vertex?, placed, Option.getD_some]

private theorem carriedEdge_preserved {one image : EdgeId} (placed : second.edge? one = some image) :
    carriedEdge first second (.preserved one) = .preserved image := by
  rw [carriedEdge, Table.getD_eq, ← Morphism.edge?, placed, Option.getD_some]

private theorem carriedEdge_deleted {one image : EdgeId} (placed : first.edge? one = some image) :
    carriedEdge first second (.deleted one) = .deleted image := by
  rw [carriedEdge, Table.getD_eq, ← Morphism.edge?, placed, Option.getD_some]

private theorem remaining_stands (overlap : found.Overlap big graph) {edge : EdgeId}
    {label : String} {places : List RemnantVertex}
    (stored : (remnant big graph found).edge? (.remaining edge) = some (label, places)) :
    edge ∉ consumed big found ∧
      ∃ ends, graph.skeleton.edge? edge = some (label, ends) ∧
        List.Forall₂ found.Stands places ends := by
  obtain ⟨left, members, routed, _⟩ := remnant_remaining.mp stored
  obtain ⟨⟨label', ends⟩, here, same⟩ := Option.map_eq_some_iff.mp routed
  cases same
  obtain ⟨places', stored', stands⟩ := remnant_stands overlap here left
  cases stored.symm.trans stored'
  exact ⟨left, ends, here, stands⟩

namespace Restricts

private theorem carried_mapped (inside : small.Inside big first second) (valid : small.Valid)
    {one : VertexId} (preserved : one ∈ small.vertexMap.values) :
    ∃ image ∈ big.vertexMap.values, second.vertex? one = some image := by
  obtain ⟨source, mapped⟩ := Table.mem_values_iff.mp preserved
  obtain ⟨origin, placedLeft⟩ := inside.left.vertex_iff.mpr (valid.vertex_sides mapped).1
  obtain ⟨image, placed, preserved⟩ := inside.vertexMap mapped placedLeft
  exact ⟨image, Table.mem_values_iff.mpr ⟨origin, preserved⟩, placed⟩

private theorem carried_inside (restricts : restricted.Restricts found second)
    (inside : small.Inside big first second) (valid : small.Valid)
    (within : found.Within big second) (rigid : found.Rigid big graph) {one : RemnantVertex}
    (present : (remnant small graph restricted).vertex one) :
    (remnant big graph found).vertex (carried first second found one) := by
  cases one with
  | outside vertex =>
    obtain ⟨here, unmatched⟩ := present
    by_cases free : found.block vertex = []
    · rw [carried_unmatched free]
      exact ⟨here, free⟩
    · obtain ⟨image, member⟩ := List.exists_mem_of_ne_nil _ free
      have mapped := mem_block.mp member
      rw [carried_matched rigid mapped]
      refine Rule.preserved_iff.mp
        ((Context.created_or_preserved (rigid.vertex_sides mapped).1).resolve_left fun created => ?_)
      obtain ⟨one, placed⟩ := within.vertices created mapped
      exact block_eq_nil.mp unmatched one (restricts.vertices.mpr ⟨image, placed, mapped⟩)
  | preserved one =>
    obtain ⟨image, preserved, placed⟩ := carried_mapped inside valid present
    rw [carried_preserved placed]
    exact preserved
  | deleted one =>
    obtain ⟨image, placed⟩ := inside.left.vertex_iff.mpr (Rule.mem_deletedVertices.mp present).1
    rw [carried_deleted placed]
    exact inside.deletedVertex present placed

private theorem carried_eq (restricts : restricted.Restricts found second)
    (rigid : found.Rigid big graph) {one other : RemnantVertex} {vertex : VertexId}
    (present : (remnant big graph found).vertex other) (atOne : restricted.Stands one vertex)
    (atOther : found.Stands other vertex) : carried first second found one = other := by
  cases one with
  | outside kept =>
    obtain rfl : kept = vertex := atOne
    cases other with
    | outside kept' =>
      obtain rfl : kept' = kept := atOther
      exact carried_unmatched present.2
    | preserved image => exact carried_matched rigid atOther
    | deleted _ => exact atOther.elim
  | preserved one =>
    obtain ⟨image, placed, mapped⟩ := restricts.vertices.mp atOne
    rw [carried_preserved placed]
    cases other with
    | outside kept =>
      obtain rfl : kept = vertex := atOther
      exact absurd mapped (block_eq_nil.mp present.2 image)
    | preserved image' => rw [rigid.vertex_injective mapped atOther]
    | deleted _ => exact atOther.elim
  | deleted _ => exact atOne.elim

private theorem stands_single {place : RemnantVertex} {vertex vertex' : VertexId}
    (stands : found.Stands place vertex) (stands' : found.Stands place vertex') :
    vertex = vertex' := by
  cases place with
  | outside kept => exact Eq.trans (Eq.symm stands) stands'
  | preserved image => exact Option.some.inj (Eq.trans (Eq.symm stands) stands')
  | deleted _ => exact stands.elim

private theorem stands_carried (first second : Morphism) (rigid : found.Rigid big graph)
    (vertex : VertexId) :
    found.Stands (carried first second found (.outside vertex)) vertex := by
  by_cases free : found.block vertex = []
  · rw [carried_unmatched free]
    rfl
  · obtain ⟨image, member⟩ := List.exists_mem_of_ne_nil _ free
    rw [carried_matched rigid (mem_block.mp member)]
    exact mem_block.mp member

private theorem carried_unmatched_apart (restricts : restricted.Restricts found second)
    (inside : small.Inside big first second) (valid : small.Valid) (rigid : found.Rigid big graph)
    {vertex target : VertexId} (outside : (remnant small graph restricted).vertex (.outside vertex))
    (preserved : target ∈ small.vertexMap.values) :
    carried first second found (.outside vertex) ≠
      carried first second found (.preserved target) := by
  obtain ⟨image, _, placed⟩ := carried_mapped inside valid preserved
  intro same
  have stands := stands_carried first second rigid vertex
  rw [same, carried_preserved placed] at stands
  exact block_eq_nil.mp outside.2 target (restricts.vertices.mpr ⟨image, placed, stands⟩)

private theorem carried_undeleted (rigid : found.Rigid big graph) {vertex target image : VertexId}
    (placed : first.vertex? target = some image) :
    carried first second found (.outside vertex) ≠ carried first second found (.deleted target) := by
  intro same
  have stands := stands_carried first second rigid vertex
  rw [same, carried_deleted placed] at stands
  exact stands

private theorem carried_injective (restricts : restricted.Restricts found second)
    (inside : small.Inside big first second) (valid : small.Valid) (rigid : found.Rigid big graph)
    {one other : RemnantVertex} (present : (remnant small graph restricted).vertex one)
    (present' : (remnant small graph restricted).vertex other)
    (same : carried first second found one = carried first second found other) :
    one = other := by
  have placed_of_deleted : ∀ {target}, target ∈ small.deletedVertices →
      ∃ image, first.vertex? target = some image :=
    fun deleted => inside.left.vertex_iff.mpr (Rule.mem_deletedVertices.mp deleted).1
  cases one with
  | outside vertex =>
    cases other with
    | outside vertex' =>
      have stands := stands_carried first second rigid vertex
      rw [same] at stands
      exact congrArg _ (stands_single stands (stands_carried first second rigid vertex'))
    | preserved target =>
      exact absurd same (restricts.carried_unmatched_apart inside valid rigid present present')
    | deleted target =>
      obtain ⟨image, placed⟩ := placed_of_deleted present'
      exact absurd same (carried_undeleted rigid placed)
  | preserved target =>
    cases other with
    | outside vertex =>
      exact absurd same.symm (restricts.carried_unmatched_apart inside valid rigid present' present)
    | preserved target' =>
      obtain ⟨image, _, placed⟩ := carried_mapped inside valid present
      obtain ⟨image', _, placed'⟩ := carried_mapped inside valid present'
      rw [carried_preserved placed, carried_preserved placed', RemnantVertex.preserved.injEq] at same
      exact congrArg _ (inside.right.vertex_injective placed (same ▸ placed'))
    | deleted _ => cases same
  | deleted target =>
    cases other with
    | outside vertex =>
      obtain ⟨image, placed⟩ := placed_of_deleted present
      exact absurd same.symm (carried_undeleted rigid placed)
    | preserved _ => cases same
    | deleted target' =>
      obtain ⟨image, placed⟩ := placed_of_deleted present
      obtain ⟨image', placed'⟩ := placed_of_deleted present'
      rw [carried_deleted placed, carried_deleted placed', RemnantVertex.deleted.injEq] at same
      exact congrArg _ (inside.left.vertex_injective placed (same ▸ placed'))

private theorem carried_unplaced (restricts : restricted.Restricts found second)
    (inside : small.Inside big first second) (valid : small.Valid) {one : EdgeId}
    (preserved : one ∈ small.edgeMap.values) (unmatched : restricted.edges.contains one = false) :
    ∃ image, second.edge? one = some image ∧ image ∈ big.edgeMap.values ∧
      found.edges.contains image = false := by
  obtain ⟨source, mapped⟩ := Table.mem_values_iff.mp preserved
  obtain ⟨stored, _, here, _⟩ := valid.edge_sides mapped
  obtain ⟨origin, placedLeft⟩ := inside.left.edge_iff.mpr ⟨_, _, Hypergraph.skeleton_edge here⟩
  obtain ⟨image, placed, preserved⟩ := inside.edgeMap mapped placedLeft
  refine ⟨image, placed, Table.mem_values_iff.mpr ⟨origin, preserved⟩,
    Bool.eq_false_iff.mpr fun matched => ?_⟩
  obtain ⟨edge, mapped⟩ := Table.contains_iff.mp matched
  have known := Table.contains_iff.mpr ⟨edge, restricts.edges.mpr ⟨image, placed, mapped⟩⟩
  rw [unmatched] at known
  cases known

private theorem leftVertex_carried (inside : small.Inside big first second) {one image : VertexId}
    (present : small.left.hasVertex one = true) (placed : first.vertex? one = some image) :
    carried first second found (leftVertex small one) = leftVertex big image := by
  cases mapped : small.vertexMap.get? one with
  | some target =>
    obtain ⟨place, placed', mapped'⟩ := inside.vertexMap mapped placed
    simp only [leftVertex, mapped, mapped', carried_preserved placed']
  | none =>
    have deleted :=
      Rule.mem_deletedVertices.mp
        (inside.deletedVertex (Rule.mem_deletedVertices.mpr ⟨present, mapped⟩) placed)
    simp only [leftVertex, mapped, deleted.2, carried_deleted placed]

private theorem carried_kept (restricts : restricted.Restricts found second)
    (inside : small.Inside big first second) (valid : small.Valid)
    (within : found.Within big second) (rigid : found.Rigid big graph)
    (formedLeft : small.left.WellFormed) (overlap' : restricted.Overlap small graph)
    (overlap : found.Overlap big graph) (closed : (remnant big graph found).Closed)
    {one : RemnantEdge} {label : String} {places : List RemnantVertex}
    (stored : (remnant small graph restricted).edge? one = some (label, places)) :
    (remnant big graph found).edge? (carriedEdge first second one) =
      some (label, places.map (carried first second found)) := by
  cases one with
  | remaining edge =>
    obtain ⟨left, ends, here, stands⟩ := remaining_stands overlap' stored
    obtain ⟨places', stored', stands'⟩ :=
      remnant_stands overlap here ((restricts.mem_consumed_iff inside valid within).not.mp left)
    have along :=
      Listing.along_trans stands
        ((List.forall₂_and_left _ _).mpr ⟨closed _ _ _ stored', stands'⟩).flip
    have same : places.map (carried first second found) = places'.map id :=
      Listing.map_eq_of_along along
        fun one other ⟨vertex, atOne, present, atOther⟩ =>
          restricts.carried_eq rigid present atOne atOther
    rw [same, List.map_id]
    exact stored'
  | preserved one =>
    obtain ⟨⟨preserved, unmatched⟩, ends, there, rfl⟩ := remnant_preserved.mp stored
    obtain ⟨image, placed, preserved', unmatched'⟩ :=
      restricts.carried_unplaced inside valid preserved unmatched
    obtain ⟨_, _, others, here, there', along⟩ := inside.right.edge_kept placed
    cases there.symm.trans here
    rw [carriedEdge_preserved placed]
    refine remnant_preserved.mpr ⟨⟨preserved', unmatched'⟩, others, there', ?_⟩
    rw [List.map_map]
    exact (Listing.map_eq_of_along along fun _ _ placed => carried_preserved placed).symm
  | deleted one =>
    obtain ⟨deleted, ends, here, rfl⟩ := remnant_deleted.mp stored
    obtain ⟨image, placed⟩ := inside.left.edge_iff.mpr ⟨label, ends, here⟩
    obtain ⟨_, _, others, here', there, along⟩ := inside.left.edge_kept placed
    cases here.symm.trans here'
    rw [carriedEdge_deleted placed]
    refine remnant_deleted.mpr ⟨inside.deletedEdge deleted placed, others, there, ?_⟩
    rw [List.map_map]
    have within := (List.forall₂_and_left _ _).mpr ⟨formedLeft.closed _ _ _ here, along⟩
    exact (Listing.map_eq_of_along within fun one other ⟨present, placed⟩ =>
      leftVertex_carried inside present placed).symm

private theorem carriedEdge_injective (restricts : restricted.Restricts found second)
    (inside : small.Inside big first second) (valid : small.Valid) {one other : RemnantEdge}
    (present : (remnant small graph restricted).HasEdge one)
    (present' : (remnant small graph restricted).HasEdge other)
    (same : carriedEdge first second one = carriedEdge first second other) : one = other := by
  obtain ⟨label, places, stored⟩ := present
  obtain ⟨label', places', stored'⟩ := present'
  cases one with
  | remaining edge =>
    cases other with
    | remaining edge' => exact congrArg _ (RemnantEdge.remaining.inj same)
    | preserved _ => cases same
    | deleted _ => cases same
  | preserved one =>
    cases other with
    | remaining _ => cases same
    | preserved other =>
      obtain ⟨⟨preserved, unmatched⟩, _⟩ := remnant_preserved.mp stored
      obtain ⟨⟨preserved', unmatched'⟩, _⟩ := remnant_preserved.mp stored'
      obtain ⟨image, placed, _⟩ := restricts.carried_unplaced inside valid preserved unmatched
      obtain ⟨image', placed', _⟩ := restricts.carried_unplaced inside valid preserved' unmatched'
      rw [carriedEdge_preserved placed, carriedEdge_preserved placed',
        RemnantEdge.preserved.injEq] at same
      exact congrArg _ (inside.right.edge_injective placed (same ▸ placed'))
    | deleted _ => cases same
  | deleted one =>
    cases other with
    | remaining _ => cases same
    | preserved _ => cases same
    | deleted other =>
      obtain ⟨_, ends, here, _⟩ := remnant_deleted.mp stored
      obtain ⟨_, ends', here', _⟩ := remnant_deleted.mp stored'
      obtain ⟨image, placed⟩ := inside.left.edge_iff.mpr ⟨_, _, here⟩
      obtain ⟨image', placed'⟩ := inside.left.edge_iff.mpr ⟨_, _, here'⟩
      rw [carriedEdge_deleted placed, carriedEdge_deleted placed', RemnantEdge.deleted.injEq] at same
      exact congrArg _ (inside.left.edge_injective placed (same ▸ placed'))

/-- What the restricted match leaves lies in what the whole match leaves. -/
def model (restricts : restricted.Restricts found second) (inside : small.Inside big first second)
    (sane : small.Sane) (within : found.Within big second) (rigid : found.Rigid big graph)
    (overlap' : restricted.Overlap small graph) (overlap : found.Overlap big graph)
    (closed : (remnant small graph restricted).Closed)
    (closedBig : (remnant big graph found).Closed) :
    Skeleton.Model (remnant small graph restricted) (remnant big graph found) where
  image := carriedEdge first second
  branch one place :=
    (remnant small graph restricted).vertex one ∧ carried first second found one = place
  branch_inside := by
    rintro one _ ⟨present, rfl⟩
    exact ⟨present, restricts.carried_inside inside sane.valid within rigid present⟩
  branch_apart atOne atOther :=
    restricts.carried_injective inside sane.valid rigid atOne.1 atOther.1
      (atOne.2.trans atOther.2.symm)
  branch_nonempty present := ⟨_, present, rfl⟩
  branch_joined := by
    rintro one _ _ ⟨_, rfl⟩ ⟨_, rfl⟩
    exact .refl
  image_injective := restricts.carriedEdge_injective inside sane.valid
  image_kept {edge label places} stored := by
    refine ⟨_, restricts.carried_kept inside sane.valid within rigid sane.left overlap' overlap
      closedBig stored, ?_⟩
    rw [List.forall₂_map_right_iff, List.forall₂_same]
    exact fun place member => ⟨closed _ _ _ stored place member, rfl⟩

end Restricts

end PartialMatch

namespace Matching

variable {small big : Rule} {first second : Morphism} {graph before : Hypergraph}
  {found : PartialMatch}

/-- If everything created that is matched lies in a rule inside, the search for this rule finds a
match too, and the graph that it yields lies in the one that the bigger rule yields. -/
theorem exists_restricted (inside : small.Inside big first second) (sane : small.Sane)
    (saneBig : big.Sane) (formed : graph.WellFormed) (numbered : graph.Numbered)
    (room : graph.HasRoomFor small) (roomBig : graph.HasRoomFor big)
    (member : found ∈ Matching.all ⟨big, graph, false⟩) (within : found.Within big second)
    (made : complement big graph found = .ok before) :
    ∃ restricted ∈ Matching.all ⟨small, graph, false⟩, ∃ smaller,
      complement small graph restricted = .ok smaller ∧ Order.subgraph.le smaller before = true := by
  obtain ⟨rigid, ended⟩ := (mem_all_rigid rfl formed saneBig.right).mp member
  obtain ⟨restricted, restricts⟩ := PartialMatch.exists_restricts found second
  have member' : restricted ∈ Matching.all ⟨small, graph, false⟩ :=
    (mem_all_rigid rfl formed sane.right).mpr
      ⟨restricts.rigid inside sane.valid within rigid, restricts.ended inside ended⟩
  have overlap := overlap_of_mem_all formed saneBig.right member
  have overlap' := overlap_of_mem_all formed sane.right member'
  obtain ⟨before', _, _, made', complements⟩ :=
    PartialMatch.exists_complements saneBig.valid saneBig.left overlap formed numbered roomBig
  cases made.symm.trans made'
  obtain ⟨smaller, _, _, yielded, complements'⟩ :=
    PartialMatch.exists_complements sane.valid sane.left overlap' formed numbered room
  refine ⟨restricted, member', smaller, yielded, ?_⟩
  have closed := complements'.shows.closed
  have closedBig := complements.shows.closed
  obtain ⟨iso⟩ := complements.shows.isomorphic
  obtain ⟨iso'⟩ := complements'.shows.isomorphic
  have below : Skeleton.Below false (restricted.remnant small graph) (found.remnant big graph) :=
    ⟨restricts.model inside sane within rigid overlap' overlap closed closedBig,
      fun _ {_ _ _} atOne atOther => atOne.2.symm.trans atOther.2⟩
  refine (Order.subgraph_decides complements'.shows.formed complements.shows.formed).mpr ?_
  exact (((iso'.symm closed).below (iso'.closed closed) false).trans below).trans
    (iso.below closedBig false)

end Matching

end Coverability
