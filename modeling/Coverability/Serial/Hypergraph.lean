import Coverability.Hypergraph.Basic
import Coverability.Serial.Datum

/-! The written form of graphs. All parts of a graph are written, the counter and the incidence
index too. Reading checks types only, so the parts may disagree. -/

namespace Coverability

def Vertex.datum (vertex : Vertex) : Datum := .record [("id", vertex.id.datum)]

def Vertex.ofDatum? (datum : Datum) : Option Vertex :=
  match datum.fields? ["id"] with
  | some [id] => (Id.ofDatum? id).map Vertex.mk
  | _ => none

def Edge.datum (edge : Edge) : Datum :=
  .record [("id", edge.id.datum), ("label", .text edge.label), ("vertices", .list (edge.vertices.map Id.datum))]

def Edge.ofDatum? (datum : Datum) : Option Edge :=
  match datum.fields? ["id", "label", "vertices"] with
  | some [id, label, vertices] => do
    return { id := ← Id.ofDatum? id, label := ← label.text?, vertices := ← vertices.list? Id.ofDatum? }
  | _ => none

namespace Hypergraph

def datum (graph : Hypergraph) : Datum :=
  .record
    [("name", .text graph.name),
     ("next_id", .natural graph.nextId),
     ("vertices", .ofTable Id.key Vertex.datum graph.vertices),
     ("edges", .ofTable Id.key Edge.datum graph.edges),
     ("incidence", .ofTable Id.key (fun edges => .list (edges.map Id.datum)) graph.incidence)]

def ofDatum? (datum : Datum) : Option Hypergraph :=
  match datum.fields? ["name", "next_id", "vertices", "edges", "incidence"] with
  | some [name, nextId, vertices, edges, incidence] => do
    return {
      name := ← name.text?
      nextId := ← nextId.natural?
      vertices := ← vertices.table? Id.ofKey? Vertex.ofDatum?
      edges := ← edges.table? Id.ofKey? Edge.ofDatum?
      incidence := ← incidence.table? Id.ofKey? (Datum.list? Id.ofDatum?) }
  | _ => none

end Hypergraph

end Coverability
