import Coverability.Hypergraph.Basic

/-! Merging vertices and edges. A merge keeps its first argument and reports it. Every
operation here returns the graph even when it fails, since the merges made before the fault
stay. -/

namespace Coverability.Hypergraph

/-- Merges the second vertex into the first. A vertex merged with itself need not exist. -/
def mergeVertices (graph : Hypergraph) (kept merged : VertexId) : Except Fault VertexId × Hypergraph :=
  if kept = merged then (.ok kept, graph)
  else match [kept, merged].find? fun vertex => !graph.hasVertex vertex with
    | some unknown => (.error (.mergeOfUnknownVertex unknown), graph)
    | none => (.ok kept, graph.redirect merged kept)

def mergeAllVertices (graph : Hypergraph) (kept : VertexId) : List VertexId → Except Fault VertexId × Hypergraph
  | [] => (.ok kept, graph)
  | vertex :: rest =>
    match graph.mergeVertices kept vertex with
    | (.ok kept, graph) => graph.mergeAllVertices kept rest
    | (.error fault, graph) => (.error fault, graph)

/-- Merges all listed vertices into the first of them. -/
def mergeVertexSet (graph : Hypergraph) : List VertexId → Except Fault VertexId × Hypergraph
  | [] => (.error .mergeOfNoVertices, graph)
  | first :: rest => graph.mergeAllVertices first rest

/-- Merges the vertices of two edges position by position. An earlier position may have merged
the vertices of a later one, so the edges are looked up again each time. -/
def mergePositions (graph : Hypergraph) (kept merged : EdgeId) : List Nat → Except Fault Unit × Hypergraph
  | [] => (.ok (), graph)
  | position :: rest =>
    let vertexAt := fun id => (graph.edge? id).bind fun edge => edge.vertices[position]?
    match vertexAt kept, vertexAt merged with
    | some first, some second =>
      match graph.mergeVertices first second with
      | (.ok _, graph) => graph.mergePositions kept merged rest
      | (.error fault, graph) => (.error fault, graph)
    | _, _ => (.error .edgeLostInMerge, graph)

/-- Merges the second edge into the first, which has to have the same shape. -/
def mergeEdges (graph : Hypergraph) (kept merged : EdgeId) : Except Fault EdgeId × Hypergraph :=
  if kept = merged then (.ok kept, graph)
  else match graph.edge? kept, graph.edge? merged with
    | some first, some second =>
      if first.shape ≠ second.shape then
        (.error (.mergeOfShapes first.label first.arity second.label second.arity), graph)
      else match graph.mergePositions kept merged (List.range first.arity) with
        | (.ok (), graph) => (.ok kept, graph.deleteEdge merged)
        | (.error fault, graph) => (.error fault, graph)
    | _, _ => (.error (.mergeOfUnknownEdge kept merged), graph)

def mergeAllEdges (graph : Hypergraph) (kept : EdgeId) : List EdgeId → Except Fault EdgeId × Hypergraph
  | [] => (.ok kept, graph)
  | edge :: rest =>
    match graph.mergeEdges kept edge with
    | (.ok kept, graph) => graph.mergeAllEdges kept rest
    | (.error fault, graph) => (.error fault, graph)

/-- Merges all listed edges into the first of them. -/
def mergeEdgeSet (graph : Hypergraph) : List EdgeId → Except Fault EdgeId × Hypergraph
  | [] => (.error .mergeOfNoEdges, graph)
  | first :: rest => graph.mergeAllEdges first rest

/-- Whether two edges agree in label and vertex sequence. -/
def areParallel (graph : Hypergraph) (first second : EdgeId) : Except Fault Bool :=
  match graph.edge? first, graph.edge? second with
  | some one, some other => .ok (one.label == other.label && one.vertices == other.vertices)
  | _, _ => .error (.comparisonOfUnknownEdge first second)

end Coverability.Hypergraph
