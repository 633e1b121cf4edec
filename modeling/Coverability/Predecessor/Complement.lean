import Coverability.Predecessor.Match

/-! The graph before a backward step. From a match of the right side of a rule in a graph, the
unmatched preserved part is added, what the rule creates is removed, and what it deletes is put
back. A shared image is first split into one vertex for every vertex that goes to it. -/

namespace Coverability

/-- A graph in which shared images have been split, with the place of every matched vertex and
the new names of the edges that had to be replaced. -/
structure Split where
  graph : Hypergraph
  copies : Table VertexId VertexId := ∅
  renamed : Table EdgeId EdgeId := ∅

namespace Split

/-- The first vertex of a block keeps the image and every other one gets a new vertex. -/
def addBlock (split : Split) (image : VertexId) : List VertexId → Split
  | [] => split
  | first :: others =>
    others.foldl (fun split vertex =>
      let (fresh, graph) := split.graph.addVertex
      { split with graph, copies := split.copies.insert vertex fresh })
      { split with copies := split.copies.insert first image }

/-- Where an incidence goes. At a split vertex a matched edge follows the rule, and any other
edge goes where the match attaches it. -/
def reroute (split : Split) (found : PartialMatch) (shared : List VertexId) (owner : Option Edge)
    (edge : EdgeId) (position : Nat) (vertex : VertexId) : Except Fault VertexId :=
  if vertex ∉ shared then .ok vertex
  else
    let goal := match owner with
      | some owner => owner.vertices[position]?
      | none => found.attached.lookup (⟨edge, position⟩ : Place)
    match goal.bind split.copies.get? with
    | some copy => .ok copy
    | none => .error (.unownedIncidence position edge)

/-- Replaces an edge at a split vertex by one with its incidences rerouted. -/
def replaceEdge (rule : Rule) (found : PartialMatch) (shared : List VertexId) (split : Split) (id : EdgeId) :
    Except Fault Split :=
  match split.graph.edge? id with
  | none => .ok split
  | some edge => do
    let owner := (found.edges.entries.find? fun entry => entry.2 = id).bind fun entry => rule.right.edge? entry.1
    let vertices ← edge.vertices.zipIdx.mapM fun entry => split.reroute found shared owner id entry.2 entry.1
    let (fresh, graph) ← (split.graph.deleteEdge id).addEdge edge.label vertices
    return { split with graph, renamed := split.renamed.insert id fresh }

def ofMatch (rule : Rule) (graph : Hypergraph) (found : PartialMatch) : Except Fault Split :=
  let blocks := found.blocks.entries
  let shared := (blocks.filter fun entry => 1 < entry.2.length).map Prod.fst
  let split := blocks.foldl (fun split entry => split.addBlock entry.1 entry.2) { graph }
  (Table.distinct (shared.flatMap split.graph.incident)).foldlM (replaceEdge rule found shared) split

/-- Where a matched edge of the right side is after the split. -/
def edgeImage? (split : Split) (found : PartialMatch) (edge : EdgeId) : Option EdgeId :=
  (found.edges.get? edge).map fun image => split.renamed.getD image image

end Split

/-- Where the vertices of a side of the rule are in the graph that is being built. -/
structure Placed where
  graph : Hypergraph
  images : Table VertexId VertexId := ∅

namespace Placed

/-- Adds a new vertex for a vertex of the rule. -/
def addFresh (placed : Placed) (vertex : VertexId) : Placed :=
  let (fresh, graph) := placed.graph.addVertex
  ⟨graph, placed.images.insert vertex fresh⟩

def image (placed : Placed) (vertex : VertexId) : Except Fault VertexId :=
  match placed.images.get? vertex with
  | some image => .ok image
  | none => .error (.vertexWithoutImage vertex)

/-- Adds a copy of an edge of the rule along the images of its vertices. -/
def addEdge (placed : Placed) (edge : Edge) : Except Fault Placed := do
  let vertices ← edge.vertices.mapM placed.image
  let (_, graph) ← placed.graph.addEdge edge.label vertices
  return { placed with graph }

end Placed

/-- Adds the preserved vertices of the right side that the match leaves out. -/
def placePreserved (rule : Rule) (split : Split) : Placed :=
  rule.vertexMap.values.foldl (fun placed vertex =>
    match split.copies.get? vertex with
    | some image => { placed with images := placed.images.insert vertex image }
    | none => placed.addFresh vertex) ⟨split.graph, ∅⟩

/-- Adds the preserved edges of the right side that the match leaves out. -/
def placePreservedEdges (rule : Rule) (found : PartialMatch) (placed : Placed) : Except Fault Placed :=
  rule.edgeMap.values.foldlM (fun placed id =>
    if found.edges.contains id then .ok placed
    else match rule.right.edge? id with
      | some edge => placed.addEdge edge
      | none => .error (.edgeMissingFromRule id)) placed

/-- Removes what the rule creates: first matched edges, then matched vertices. -/
def removeCreated (rule : Rule) (found : PartialMatch) (split : Split) (graph : Hypergraph) : Hypergraph :=
  let graph := (rule.createdEdges.filterMap (split.edgeImage? found)).foldl Hypergraph.deleteEdge graph
  (rule.createdVertices.filterMap split.copies.get?).foldl Hypergraph.deleteVertex graph

/-- Places the left side: what survives is there already, and the rest is new. -/
def placeLeft (rule : Rule) (placed : Placed) (graph : Hypergraph) : Except Fault Placed :=
  rule.left.vertexIds.foldlM (fun left vertex =>
    match rule.vertexMap.get? vertex with
    | some right => (placed.image right).map fun image => { left with images := left.images.insert vertex image }
    | none => .ok (left.addFresh vertex)) (⟨graph, ∅⟩ : Placed)

/-- The graph that the rule turns into one that covers the given graph, as the match tells. -/
def complement (rule : Rule) (graph : Hypergraph) (found : PartialMatch) : Except Fault Hypergraph := do
  let split ← Split.ofMatch rule graph found
  let placed ← placePreservedEdges rule found (placePreserved rule split)
  let left ← placeLeft rule placed (removeCreated rule found split placed.graph)
  let deleted := rule.left.edgeList.filter fun edge => !rule.edgeMap.contains edge.id
  return (← deleted.foldlM Placed.addEdge left).graph

end Coverability
