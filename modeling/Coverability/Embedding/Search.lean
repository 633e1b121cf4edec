import Coverability.Hypergraph.Morphism

/-! A search for injective maps from a source graph into a target graph. The edges of the
source are paired one at a time with candidates in the target, and the pairs of vertices that
follow must never contradict each other. Vertices without edges carry no structure and are
paired at the end. -/

namespace Coverability.Embedding

/-- A partial injective map, with its inverse on the vertices and the edges of the target that
are taken. -/
structure Pairing where
  forward : Table VertexId VertexId := ∅
  backward : Table VertexId VertexId := ∅
  edges : Table EdgeId EdgeId := ∅
  taken : List EdgeId := []
deriving Inhabited

/-- Edges of the source in the order in which they are paired, with their candidates. -/
abbrev Plan := List (EdgeId × List EdgeId)

/-- Edges with few candidates come first, since they fail early. -/
def Plan.sorted (plan : Plan) : Plan :=
  plan.mergeSort fun first second =>
    first.2.length < second.2.length ||
      first.2.length == second.2.length && (compare first.1 second.1).isLE

namespace Pairing

/-- Adds a pair of vertices that `admits` accepts, unless it contradicts an earlier pair. -/
def pairVertex (admits : VertexId → VertexId → Bool) (pairing : Pairing) (source target : VertexId) : Option Pairing :=
  match pairing.forward.get? source with
  | some image => if image = target then some pairing else none
  | none =>
    if pairing.backward.contains target || !admits source target then none
    else some { pairing with
      forward := pairing.forward.insert source target
      backward := pairing.backward.insert target source }

def pairVertices (admits : VertexId → VertexId → Bool) : Pairing → List (VertexId × VertexId) → Option Pairing
  | pairing, [] => some pairing
  | pairing, (source, target) :: rest =>
    (pairing.pairVertex admits source target).bind fun pairing => pairing.pairVertices admits rest

/-- Pairs two edges of one shape and their vertices position by position. -/
def pairEdge (admits : VertexId → VertexId → Bool) (source target : Hypergraph) (pairing : Pairing)
    (first second : EdgeId) : Option Pairing :=
  match source.edge? first, target.edge? second with
  | some one, some other =>
    if one.shape ≠ other.shape then none
    else (pairing.pairVertices admits (one.vertices.zip other.vertices)).map fun pairing =>
      { pairing with edges := pairing.edges.insert first second, taken := second :: pairing.taken }
  | _, _ => none

/-- Pairs the remaining vertices of the source with unused vertices of the target in ascending
order. -/
def close (pairing : Pairing) (source target : Hypergraph) : Option Morphism :=
  let unpaired := source.vertexIds.filter fun vertex => !pairing.forward.contains vertex
  let unused := target.vertexIds.filter fun vertex => !pairing.backward.contains vertex
  if unpaired.length ≤ unused.length then
    some { vertices := pairing.forward.insertAll (unpaired.zip unused), edges := pairing.edges }
  else none

end Pairing

/-- The first way to pair all edges of the plan, trying candidates in their order. -/
def search (admits : VertexId → VertexId → Bool) (source target : Hypergraph) : Plan → Pairing → Option Pairing
  | [], pairing => some pairing
  | (edge, candidates) :: rest, pairing =>
    candidates.findSome? fun candidate =>
      if candidate ∈ pairing.taken then none
      else (pairing.pairEdge admits source target edge candidate).bind fun pairing =>
        search admits source target rest pairing

def run (admits : VertexId → VertexId → Bool) (source target : Hypergraph) (plan : Plan) : Option Morphism :=
  (search admits source target plan.sorted {}).bind fun pairing => pairing.close source target

end Coverability.Embedding
