import Coverability.Hypergraph.Basic

/-! Maps between graphs, and copying one graph into another. A copy may be glued on: the
vertices named by the glue are identified with vertices already there, and all else is
fresh. -/

namespace Coverability

structure Morphism where
  vertices : Table VertexId VertexId := ∅
  edges : Table EdgeId EdgeId := ∅
deriving DecidableEq, Inhabited

namespace Morphism

def vertex? (morphism : Morphism) (vertex : VertexId) : Option VertexId := morphism.vertices.get? vertex

def edge? (morphism : Morphism) (edge : EdgeId) : Option EdgeId := morphism.edges.get? edge

def isEmpty (morphism : Morphism) : Bool := morphism.vertices.isEmpty && morphism.edges.isEmpty

end Morphism

namespace Hypergraph

/-- Gives each listed vertex its image: the glue target, which has to exist, or a new vertex. -/
def copyVertices (target : Hypergraph) (glue image : Table VertexId VertexId) :
    List VertexId → Except Fault (Table VertexId VertexId) × Hypergraph
  | [] => (.ok image, target)
  | vertex :: rest =>
    match glue.get? vertex with
    | some existing =>
      if target.hasVertex existing then target.copyVertices glue (image.insert vertex existing) rest
      else (.error (.unknownGlueTarget existing), target)
    | none =>
      let (fresh, target) := target.addVertex
      target.copyVertices glue (image.insert vertex fresh) rest

/-- Copies each listed edge along the images of its vertices. In a well-formed graph all of
them have one, and the vertex itself never stands in for it. -/
def copyEdges (target : Hypergraph) (morphism : Morphism) : List Edge → Except Fault Morphism × Hypergraph
  | [] => (.ok morphism, target)
  | edge :: rest =>
    match target.addEdge edge.label (edge.vertices.map fun vertex => morphism.vertices.getD vertex vertex) with
    | .ok (id, target) => target.copyEdges { morphism with edges := morphism.edges.insert edge.id id } rest
    | .error fault => (.error fault, target)

/-- Copies a graph in, except that the vertices in the glue are identified with vertices of the
target. What was copied before a fault stays. -/
def glueCopy (target source : Hypergraph) (glue : Table VertexId VertexId) : Except Fault Morphism × Hypergraph :=
  match target.copyVertices glue ∅ source.vertexIds with
  | (.ok vertices, target) => target.copyEdges { vertices } source.edgeList
  | (.error fault, target) => (.error fault, target)

/-- Copies a graph in beside what is there. -/
def disjointCopy (target source : Hypergraph) : Except Fault Morphism × Hypergraph := target.glueCopy source ∅

end Hypergraph

end Coverability
