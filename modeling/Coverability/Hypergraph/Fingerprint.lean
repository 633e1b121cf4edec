import Coverability.Digest.Basic
import Coverability.Hypergraph.Basic

/-! A fingerprint identifies a concrete graph in a log. It covers the identifiers, labels and
vertex sequences, so renaming a vertex changes it; the name and the counter do not enter. -/

namespace Coverability
open Text

def Id.bytes {kind : Kind} (id : Id kind) : Bytes := littleEndian 8 id.number

/-- Every part of variable length is preceded by its length. -/
def Edge.bytes (edge : Edge) : Bytes :=
  edge.id.bytes ++ littleEndian 8 (utf8 edge.label).length ++ utf8 edge.label
    ++ littleEndian 8 edge.arity ++ edge.vertices.flatMap Id.bytes

namespace Hypergraph

def bytes (graph : Hypergraph) : Bytes :=
  littleEndian 8 graph.vertexCount ++ graph.vertexIds.flatMap Id.bytes
    ++ littleEndian 8 graph.edgeCount ++ graph.edgeList.flatMap Edge.bytes

def fingerprint (graph : Hypergraph) : Digest := .ofData (utf8 "GRAPH_FINGERPRINT") graph.bytes

end Hypergraph

end Coverability
