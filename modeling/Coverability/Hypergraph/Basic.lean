import Coverability.Fault
import Coverability.Table

/-! Labelled hypergraphs. An edge carries a label and an ordered sequence of vertices, which
may repeat. Beside the edges the graph keeps an incidence index that lists an edge under a
vertex once for every time the vertex occurs in it. Vertices and edges draw their identifiers
from one counter, so an identifier is never used twice. -/

namespace Coverability

structure Vertex where
  id : VertexId
deriving DecidableEq, Inhabited

structure Edge where
  id : EdgeId
  label : String
  vertices : List VertexId
deriving DecidableEq, Inhabited

/-- The tables are data: a graph read from outside may hold tables that disagree with each
other, and `isConsistent` tells. -/
structure Hypergraph where
  name : String := ""
  nextId : Nat := 0
  vertices : Table VertexId Vertex := ∅
  edges : Table EdgeId Edge := ∅
  incidence : Table VertexId (List EdgeId) := ∅
deriving DecidableEq, Inhabited

namespace Edge

def arity (edge : Edge) : Nat := edge.vertices.length

/-- Edges of one shape can stand for each other. -/
def shape (edge : Edge) : String × Nat := (edge.label, edge.arity)

/-- The vertices of the edge in order of first occurrence. -/
def distinctVertices (edge : Edge) : List VertexId := edge.vertices.eraseDups

end Edge

namespace Hypergraph

def named (name : String) : Hypergraph := { name }

def vertexIds (graph : Hypergraph) : List VertexId := graph.vertices.keys

def edgeIds (graph : Hypergraph) : List EdgeId := graph.edges.keys

/-- The edges in ascending order of the identifiers they are stored under. -/
def edgeList (graph : Hypergraph) : List Edge := graph.edges.values

def vertexCount (graph : Hypergraph) : Nat := graph.vertices.size

def edgeCount (graph : Hypergraph) : Nat := graph.edges.size

def hasVertex (graph : Hypergraph) (vertex : VertexId) : Bool := graph.vertices.contains vertex

def hasEdge (graph : Hypergraph) (edge : EdgeId) : Bool := graph.edges.contains edge

def edge? (graph : Hypergraph) (id : EdgeId) : Option Edge := graph.edges.get? id

def incident? (graph : Hypergraph) (vertex : VertexId) : Option (List EdgeId) := graph.incidence.get? vertex

/-- The edges at a vertex, one entry per incidence; none at a vertex without an entry. -/
def incident (graph : Hypergraph) (vertex : VertexId) : List EdgeId := graph.incidence.getD vertex []

def degree (graph : Hypergraph) (vertex : VertexId) : Nat := (graph.incident vertex).length

def maxArity (graph : Hypergraph) : Nat := (graph.edgeList.map Edge.arity).foldl max 0

/-- A vertex is isolated if the index knows it and lists no edge there. -/
def isIsolated (graph : Hypergraph) (vertex : VertexId) : Bool := graph.incident? vertex == some []

def isolatedVertices (graph : Hypergraph) : List VertexId :=
  (graph.incidence.entries.filter fun entry => entry.2.isEmpty).map Prod.fst

/-- The edges that have a given shape, ascending. -/
def edgesOfShape (graph : Hypergraph) (shape : String × Nat) : List EdgeId :=
  (graph.edgeList.filter fun edge => edge.shape = shape).map Edge.id

/-- The labels in use, ascending, each once. -/
def labels (graph : Hypergraph) : List String := Table.distinct (graph.edgeList.map Edge.label)

/-- The incidence index that the edges call for, or nothing if an edge has a vertex that the
graph lacks. -/
def expectedIncidence (graph : Hypergraph) : Option (Table VertexId (List EdgeId)) :=
  graph.edgeList.foldlM (fun index edge => edge.vertices.foldlM (fun index vertex =>
    if index.contains vertex then some (index.modify vertex (· ++ [edge.id])) else none) index)
    (graph.vertices.mapValues fun _ _ => [])

/-- Whether the stored incidence index is the one the edges call for, up to the order in which
it lists the edges at a vertex. -/
def isConsistent (graph : Hypergraph) : Bool :=
  match graph.expectedIncidence with
  | none => false
  | some expected =>
    expected.size == graph.incidence.size && expected.entries.all fun entry =>
      match graph.incident? entry.1 with
      | none => false
      | some stored => stored.isPerm entry.2

/-- The identifier counter after one more identifier has been taken. It starts over when
identifiers run out. -/
def counted (graph : Hypergraph) : Nat := (graph.nextId + 1) % wordRange

def addVertex (graph : Hypergraph) : VertexId × Hypergraph :=
  let id : VertexId := ⟨graph.nextId⟩
  (id, { graph with
    nextId := graph.counted
    vertices := graph.vertices.insert id ⟨id⟩
    incidence := graph.incidence.insert id [] })

/-- The new vertices are listed in the order of their creation. -/
def addVertices (graph : Hypergraph) : Nat → List VertexId × Hypergraph
  | 0 => ([], graph)
  | count + 1 =>
    let (id, graph) := graph.addVertex
    let (ids, graph) := graph.addVertices count
    (id :: ids, graph)

/-- Adds an edge, or leaves the graph as it is and reports the first vertex it lacks. -/
def addEdge (graph : Hypergraph) (label : String) (vertices : List VertexId) : Except Fault (EdgeId × Hypergraph) :=
  match vertices.find? fun vertex => !graph.hasVertex vertex with
  | some vertex => .error (.edgeAtUnknownVertex vertex)
  | none =>
    let id : EdgeId := ⟨graph.nextId⟩
    .ok (id, { graph with
      nextId := graph.counted
      edges := graph.edges.insert id ⟨id, label, vertices⟩
      incidence := vertices.foldl (fun index vertex => index.modify vertex (· ++ [id])) graph.incidence })

/-- Removes an edge, if it is there, from the edges and from the index. -/
def deleteEdge (graph : Hypergraph) (id : EdgeId) : Hypergraph :=
  match graph.edge? id with
  | none => graph
  | some edge => { graph with
      edges := graph.edges.erase id
      incidence := edge.distinctVertices.foldl
        (fun index vertex => index.modify vertex (·.filter (· ≠ id))) graph.incidence }

/-- Removes a vertex and the edges at it, and lists these edges ascending, each once. -/
def deleteVertex? (graph : Hypergraph) (id : VertexId) : Option (List EdgeId × Hypergraph) :=
  if graph.hasVertex id then
    let lost := Table.distinct (graph.incident id)
    let rest := lost.foldl deleteEdge graph
    some (lost, { rest with vertices := rest.vertices.erase id, incidence := rest.incidence.erase id })
  else none

/-- Removes a vertex, if it is there, and the edges at it. -/
def deleteVertex (graph : Hypergraph) (id : VertexId) : Hypergraph :=
  ((graph.deleteVertex? id).map Prod.snd).getD graph

/-- Lets every incidence of one vertex go to another and drops the first. -/
def redirect (graph : Hypergraph) (source target : VertexId) : Hypergraph :=
  let moved := graph.incident source
  let rewire := fun (edge : Edge) =>
    { edge with vertices := edge.vertices.map fun vertex => if vertex = source then target else vertex }
  { graph with
    vertices := graph.vertices.erase source
    edges := (Table.distinct moved).foldl (fun edges id => edges.modify id rewire) graph.edges
    incidence := (graph.incidence.erase source).modify target (· ++ moved) }

end Hypergraph

def Edge.display (edge : Edge) : String :=
  let ends := ",".intercalate (edge.vertices.map Id.text)
  s!"{edge.label}({ends})"

/-- The name, then the isolated vertices, then the edges with their vertices. -/
def Hypergraph.display (graph : Hypergraph) : String :=
  let name := if graph.name.isEmpty then "<unnamed>" else graph.name
  let parts := ", ".intercalate (graph.isolatedVertices.map Id.text ++ graph.edgeList.map Edge.display)
  s!"{name} [{parts}]"

end Coverability
