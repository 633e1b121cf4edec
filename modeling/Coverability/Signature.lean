import Coverability.Digest.Basic
import Coverability.Hypergraph.Basic

/-! Signatures of vertices and edges that do not depend on identifiers. Every round of
refinement mixes the signatures of the surroundings into each element, and refinement ends
when a round tells no more elements apart than the one before. Isomorphic graphs have equal
signatures; the converse need not hold. -/

namespace Coverability

/-- The word every signature of an edge with this label starts from. -/
def labelSeed (label : String) : UInt32 := (Digest.ofData (Text.utf8 "EDGE_LABEL") (Text.utf8 label)).word

structure Signature where
  vertices : Table VertexId UInt32 := ∅
  edges : Table EdgeId UInt32 := ∅
deriving DecidableEq, Inhabited

/-- What the signatures say about a graph as a whole. -/
structure Summary where
  vertexCount : Nat
  edgeCount : Nat
  total : UInt32
deriving DecidableEq

/-- Cyclic shift by less than the width of a word. -/
def rotateLeft (word amount : UInt32) : UInt32 := (word <<< amount) ||| (word >>> (32 - amount))

/-- Mixes the signatures at an edge, in their order, into its own signature. -/
def mixEdge (seed previous : UInt32) (incident : List UInt32) : UInt32 :=
  let amount := seed % 31 + 1
  incident.foldl (fun mixed signature => (rotateLeft mixed amount ^^^ signature) * 0x9e3779b1)
    (rotateLeft previous amount ^^^ seed)

namespace Signature

def vertex? (signature : Signature) (vertex : VertexId) : Option UInt32 := signature.vertices.get? vertex

def edge? (signature : Signature) (edge : EdgeId) : Option UInt32 := signature.edges.get? edge

def all (signature : Signature) : List UInt32 := signature.vertices.values ++ signature.edges.values

/-- How many elements the signatures tell apart at least. -/
def distinctCount (signature : Signature) : Nat := (Table.distinct signature.all).length

/-- The edges with their seeds. -/
abbrev Seeded := List (Edge × UInt32)

def start (graph : Hypergraph) (seeded : Seeded) : Signature where
  vertices := graph.vertices.mapValues fun _ _ => 1
  edges := .ofList (seeded.map fun entry => (entry.1.id, entry.2))

/-- A vertex adds the signatures of its edges, once for every incidence. An edge mixes in the
signatures of its vertices. All of them are those of the round before. -/
def refine (graph : Hypergraph) (seeded : Seeded) (signature : Signature) : Signature where
  vertices := graph.vertices.mapValues fun vertex _ =>
    (graph.incident vertex).foldl (fun sum edge => sum + signature.edges.getD edge 0)
      (signature.vertices.getD vertex 0)
  edges := .ofList (seeded.map fun entry =>
    (entry.1.id, mixEdge entry.2 (signature.edges.getD entry.1.id 0)
      (entry.1.vertices.map fun vertex => signature.vertices.getD vertex 0)))

/-- Refines until a round tells no more elements apart. The number of elements bounds the
rounds, since every other round tells at least one more apart. -/
def settle (graph : Hypergraph) (seeded : Seeded) : Nat → Signature → Signature
  | 0, signature => signature
  | rounds + 1, signature =>
    let next := refine graph seeded signature
    if next.distinctCount ≤ signature.distinctCount then next else settle graph seeded rounds next

/-- The signature of a graph whose edge labels have the given seeds. -/
def ofSeeds (seed : String → UInt32) (graph : Hypergraph) : Signature :=
  let seeds : Table String UInt32 := .ofList (graph.labels.map fun label => (label, seed label))
  let seeded := graph.edgeList.map fun edge => (edge, seeds.getD edge.label 0)
  settle graph seeded (graph.vertexCount + graph.edgeCount + 1) (start graph seeded)

def of (graph : Hypergraph) : Signature := ofSeeds labelSeed graph

def summary (signature : Signature) (graph : Hypergraph) : Summary where
  vertexCount := graph.vertexCount
  edgeCount := graph.edgeCount
  total := signature.all.foldl (· + ·) 0

/-- The edges that share a signature, ascending, for every signature in use. -/
def edgeBuckets (signature : Signature) : Table UInt32 (List EdgeId) :=
  .group (signature.edges.entries.map fun entry => (entry.2, entry.1))

end Signature

end Coverability
