import Coverability.Order.Minor

/-! The minor order by paths, for edges with at most two vertices. Every vertex of the smaller
graph owns the vertices of the bigger one on which its edges have landed. These have to be
joined by paths over the edges that are left, and paths of different owners must not meet.
Graphs with larger edges are left to the general minor order. -/

namespace Coverability

namespace PathMinor

/-- The search after edges have been picked: who owns which vertex, and which edges are used. -/
structure Claims where
  bigger : Hypergraph
  owners : Table VertexId VertexId
  selected : List EdgeId

namespace Claims

/-- The vertices next to a vertex over unused edges that are free or have the given owner. -/
def neighbours (claims : Claims) (owner vertex : VertexId) : List VertexId :=
  let edges := (claims.bigger.incident vertex).filter fun edge => edge ∉ claims.selected
  let ends := (edges.filterMap claims.bigger.edge?).flatMap Edge.vertices
  (ends.filter fun next => next ≠ vertex && (claims.owners.getD next owner == owner)).eraseDups

/-- The simple paths that extend a path, given in reverse, by a number of steps at most. -/
def paths (claims : Claims) (owner goal : VertexId) : Nat → List VertexId → List (List VertexId)
  | _, [] => []
  | steps, vertex :: earlier =>
    if vertex = goal then [vertex :: earlier]
    else match steps with
      | 0 => []
      | steps + 1 =>
        let onwards := (claims.neighbours owner vertex).filter fun next => next ∉ earlier
        onwards.flatMap fun next => paths claims owner goal steps (next :: vertex :: earlier)

/-- For every owner, the connections that join its vertices, each as a choice of paths. Joining
the first vertex with all others is enough. -/
def connections (claims : Claims) : List (VertexId × List (List VertexId)) :=
  let owned := Table.group (claims.owners.entries.map fun entry => (entry.2, entry.1))
  owned.entries.flatMap fun (owner, vertices) =>
    match vertices with
    | [] => []
    | first :: others =>
      others.map fun other => (owner, claims.paths owner other claims.bigger.vertexCount [first])

/-- Picks one path for every connection such that different owners stay apart and enough
vertices are left over. -/
def choose (claims : Claims) (spare : Nat) : List (VertexId × List (List VertexId)) → Table VertexId VertexId → Bool
  | [], claimed => spare ≤ claims.bigger.vertexCount - claimed.size
  | (owner, paths) :: rest, claimed =>
    paths.any fun path =>
      match force claimed (path.map fun vertex => (vertex, owner)) with
      | some claimed => claims.choose spare rest claimed
      | none => false

def connect (claims : Claims) (spare : Nat) : Bool :=
  let connections := claims.connections
  connections.all (fun connection => !connection.2.isEmpty) && claims.choose spare connections claims.owners

end Claims

/-- Picks an unused edge of the bigger graph for every edge of the smaller one in turn. -/
def assign (smaller bigger : Hypergraph) : List (EdgeId × List EdgeId) → Table VertexId VertexId → List EdgeId → Bool
  | [], owners, selected => Claims.connect ⟨bigger, owners, selected⟩ smaller.isolatedVertices.length
  | (edge, candidates) :: rest, owners, selected =>
    candidates.any fun candidate =>
      candidate ∉ selected &&
        match smaller.edge? edge, bigger.edge? candidate with
        | some one, some other =>
          match force owners (other.vertices.zip one.vertices) with
          | some owners => assign smaller bigger rest owners (candidate :: selected)
          | none => false
        | _, _ => false

def isPathMinor (smaller bigger : Hypergraph) : Bool :=
  if 2 < smaller.maxArity || 2 < bigger.maxArity then Minor.isMinor smaller bigger
  else if !mayFit smaller bigger then false
  else assign smaller bigger (smaller.edgeList.map fun edge => (edge.id, bigger.edgesOfShape edge.shape)) ∅ []

end PathMinor

def Order.pathMinor : Order where
  name := "path-minor"
  contracts := true
  le := PathMinor.isPathMinor

end Coverability
