import Coverability.Embedding.Search
import Coverability.Signature

/-! Isomorphism and embedding of graphs. Signatures narrow the search for an isomorphism: an
edge is only tried against edges with its signature, and vertices with different signatures
are never paired. -/

namespace Coverability

/-- Whether two graphs have as many edges of every signature. -/
def Signature.sameBuckets (first second : Signature) : Bool :=
  let buckets := first.edgeBuckets
  let others := second.edgeBuckets
  buckets.size == others.size && buckets.entries.all fun entry =>
    (others.get? entry.1).map List.length == some entry.2.length

def findIsomorphism (source target : Hypergraph) : Option Morphism :=
  if source.vertexCount ≠ target.vertexCount ∨ source.edgeCount ≠ target.edgeCount then none
  else
    let first := Signature.of source
    let second := Signature.of target
    if first.summary source ≠ second.summary target then none
    else if !first.sameBuckets second then none
    else
      let buckets := second.edgeBuckets
      let plan := source.edgeIds.map fun edge => (edge, buckets.getD (first.edges.getD edge 0) [])
      Embedding.run (fun vertex image => first.vertex? vertex == second.vertex? image) source target plan

def areIsomorphic (first second : Hypergraph) : Bool := (findIsomorphism first second).isSome

/-- Looks for an injective map that keeps labels and vertex sequences. The bigger graph may
have more vertices and edges, also between the images. -/
def findEmbedding (smaller bigger : Hypergraph) : Option Morphism :=
  if smaller.vertexCount > bigger.vertexCount ∨ smaller.edgeCount > bigger.edgeCount then none
  else
    let plan := smaller.edgeList.map fun edge => (edge.id, bigger.edgesOfShape edge.shape)
    if plan.any fun entry => entry.2.isEmpty then none
    else Embedding.run (fun _ _ => true) smaller bigger plan

end Coverability
