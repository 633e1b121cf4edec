import Coverability.Rule.Basic

/-! Partial matches of the right side of a rule in a graph. A match says which part of the right
side the graph already holds when the rule has been applied. It has to touch something the rule
creates, since other matches only lead to larger graphs.

With contraction several vertices may share an image, if unmatched edges of the right side
connect them: contracting these edges makes one vertex of them. Every incidence at a shared
image that no matched edge explains is then attached to one of the vertices that survive. -/

namespace Coverability

/-- A place in the vertex sequence of an edge. -/
structure Place where
  edge : EdgeId
  position : Nat
deriving DecidableEq

structure PartialMatch where
  vertices : Table VertexId VertexId := ∅
  edges : Table EdgeId EdgeId := ∅
  /-- The vertex of the right side that an unexplained incidence goes to. -/
  attached : List (Place × VertexId) := []
deriving DecidableEq, Inhabited

/-- The vertices of the right side that share an image, ascending, for every image. -/
def PartialMatch.blocks (found : PartialMatch) : Table VertexId (List VertexId) :=
  .group (found.vertices.entries.map fun entry => (entry.2, entry.1))

/-- What a search for matches is about. -/
structure Matching where
  rule : Rule
  graph : Hypergraph
  contract : Bool

namespace Matching

/-- The vertices of the graph a vertex of the right side may go to. Without contraction images
differ, and a created vertex has no more incidences in the graph than in the rule. -/
def vertexCandidates (matching : Matching) (images : Table VertexId VertexId) (vertex : VertexId) : List VertexId :=
  if matching.contract then matching.graph.vertexIds
  else
    let isCreated := vertex ∈ matching.rule.createdVertices
    let room := matching.rule.right.degree vertex
    matching.graph.vertexIds.filter fun image =>
      image ∉ images.values && !(isCreated && room < matching.graph.degree image)

/-- All ways to leave out or place the vertices listed, beside those placed already. Leaving a
vertex out comes first. -/
def vertexMaps (matching : Matching) : List VertexId → Table VertexId VertexId → List (Table VertexId VertexId)
  | [], images => [images]
  | vertex :: rest, images =>
    matching.vertexMaps rest images ++
      (matching.vertexCandidates images vertex).flatMap fun image =>
        matching.vertexMaps rest (images.insert vertex image)

/-- The edges of the graph that an edge of the right side may go to when its vertices go to the
given images. An edge without vertices goes nowhere. -/
def edgeCandidates (matching : Matching) (taken : List EdgeId) (label : String) (images : List VertexId) : List EdgeId :=
  match images with
  | [] => []
  | first :: _ => (Table.distinct (matching.graph.incident first)).filter fun id =>
    id ∉ taken && match matching.graph.edge? id with
      | some edge => edge.label = label && edge.vertices = images
      | none => false

/-- All ways to leave out or place the edges listed, beside those placed already. Leaving an edge
out comes first. -/
def edgeMaps (matching : Matching) (vertices : Table VertexId VertexId) :
    List EdgeId → Table EdgeId EdgeId → List (Table EdgeId EdgeId)
  | [], images => [images]
  | id :: rest, images =>
    let candidates := match matching.rule.right.edge? id with
      | some edge => matching.edgeCandidates images.values edge.label (edge.vertices.filterMap vertices.get?)
      | none => []
    matching.edgeMaps vertices rest images ++
      candidates.flatMap fun image => matching.edgeMaps vertices rest (images.insert id image)

/-- The edges of the right side that a match leaves out. -/
def unmatched (matching : Matching) (found : PartialMatch) : List Edge :=
  matching.rule.right.edgeList.filter fun edge => !found.edges.contains edge.id

/-- Lets every edge that meets the reached vertices reach its other vertices in the block. -/
def spread (edges : List Edge) (block reached : List VertexId) : List VertexId :=
  edges.foldl (fun reached edge =>
    if edge.vertices.any (· ∈ reached) then
      (edge.vertices.filter (· ∈ block)).foldl (fun reached vertex => reached.insert vertex) reached
    else reached) reached

/-- Whether the given edges connect a block. Each round of spreading reaches another vertex,
unless the last has been reached. -/
def connects (edges : List Edge) (block : List VertexId) : Bool :=
  match block with
  | [] => true
  | first :: _ =>
    let reached := block.foldl (fun reached _ => spread edges block reached) [first]
    block.all (· ∈ reached)

/-- Whether an edge has two vertices that go to one image. -/
def collapses (found : PartialMatch) (edge : Edge) : Bool :=
  let images := edge.distinctVertices.filterMap found.vertices.get?
  images.eraseDups.length < images.length

/-- Whether a match touches something created: a vertex, an edge, or an unmatched edge that is
contracted. -/
def touches (matching : Matching) (found : PartialMatch) : Bool :=
  let vertices := matching.rule.createdVertices
  let edges := matching.rule.createdEdges
  found.vertices.keys.any (· ∈ vertices) || found.edges.keys.any (· ∈ edges) ||
    (matching.unmatched found).any fun edge => edge.id ∈ edges && collapses found edge

/-- The incidences at an image that no matched edge explains. -/
def openPlaces (matching : Matching) (found : PartialMatch) (image : VertexId) : List Place :=
  let explained := found.edges.values
  let edges := (Table.distinct (matching.graph.incident image)).filter fun edge => edge ∉ explained
  edges.flatMap fun id =>
    match matching.graph.edge? id with
    | none => []
    | some edge => (edge.vertices.zipIdx.filter fun entry => entry.1 = image).map fun entry => ⟨id, entry.2⟩

/-- The incidences that may go to one of several vertices, each with these vertices, or nothing
if an incidence would be left dangling. -/
def choices (matching : Matching) (found : PartialMatch) : Option (List (Place × List VertexId)) :=
  let created := matching.rule.createdVertices
  let perImage := found.blocks.entries.map fun (image, block) =>
    let keepers := block.filter fun vertex => vertex ∉ created
    let places := matching.openPlaces found image
    if keepers.isEmpty && !places.isEmpty then none
    else if block.length ≤ 1 then some []
    else some (places.map fun place => (place, keepers))
  perImage.foldr (fun first rest => first.bind fun first => rest.map (first ++ ·)) (some [])

/-- All ways to attach each place to one of its vertices. -/
def attachments : List (Place × List VertexId) → List (List (Place × VertexId))
  | [] => [[]]
  | (place, keepers) :: rest =>
    keepers.flatMap fun keeper => (attachments rest).map ((place, keeper) :: ·)

/-- The matches that extend given maps of vertices and edges. -/
def finish (matching : Matching) (found : PartialMatch) : List PartialMatch :=
  if !matching.touches found then []
  else if found.blocks.values.any fun block =>
      1 < block.length && !connects (matching.unmatched found) block then []
  else match matching.choices found with
    | none => []
    | some choices => (attachments choices).map fun attached => { found with attached }

/-- All partial matches. Those that place fewer elements come first. -/
def all (matching : Matching) : List PartialMatch :=
  (matching.vertexMaps matching.rule.right.vertexIds ∅).flatMap fun vertices =>
    let eligible := matching.rule.right.edgeList.filter fun edge => edge.vertices.all vertices.contains
    (matching.edgeMaps vertices (eligible.map Edge.id) ∅).flatMap fun edges => matching.finish { vertices, edges }

end Matching

end Coverability
