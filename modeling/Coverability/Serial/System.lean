import Coverability.Rule.System
import Coverability.Serial.Hypergraph

/-! The written form of rules and of transformation systems. Reading does not validate rules. -/

namespace Coverability

namespace Rule

def datum (rule : Rule) : Datum :=
  .record
    [("id", .text rule.id),
     ("name", .text rule.name),
     ("left", rule.left.datum),
     ("right", rule.right.datum),
     ("vertex_map", .ofIdMap rule.vertexMap),
     ("edge_map", .ofIdMap rule.edgeMap)]

def ofDatum? (datum : Datum) : Option Rule :=
  match datum.fields? ["id", "name", "left", "right", "vertex_map", "edge_map"] with
  | some [id, name, left, right, vertexMap, edgeMap] => do
    return {
      id := ← id.text?
      name := ← name.text?
      left := ← Hypergraph.ofDatum? left
      right := ← Hypergraph.ofDatum? right
      vertexMap := ← vertexMap.idMap?
      edgeMap := ← edgeMap.idMap? }
  | _ => none

end Rule

namespace QuantifiedRule

def datum (rule : QuantifiedRule) : Datum :=
  .record
    [("id", .text rule.id),
     ("name", .text rule.name),
     ("base", rule.base.datum),
     ("quantified", rule.quantified.datum),
     ("anchors", .ofIdMap rule.anchors)]

def ofDatum? (datum : Datum) : Option QuantifiedRule :=
  match datum.fields? ["id", "name", "base", "quantified", "anchors"] with
  | some [id, name, base, quantified, anchors] => do
    return {
      id := ← id.text?
      name := ← name.text?
      base := ← Rule.ofDatum? base
      quantified := ← Rule.ofDatum? quantified
      anchors := ← anchors.idMap? }
  | _ => none

end QuantifiedRule

namespace TransformationSystem

def datum (system : TransformationSystem) : Datum :=
  .record
    [("name", .text system.name),
     ("initial", .list (system.initial.map Hypergraph.datum)),
     ("rules", .ofTable id Rule.datum system.rules),
     ("uq_rules", .ofTable id QuantifiedRule.datum system.quantifiedRules)]

def ofDatum? (datum : Datum) : Option TransformationSystem :=
  match datum.fields? ["name", "initial", "rules", "uq_rules"] with
  | some [name, initial, rules, quantifiedRules] => do
    return {
      name := ← name.text?
      initial := ← initial.list? Hypergraph.ofDatum?
      rules := ← rules.table? some Rule.ofDatum?
      quantifiedRules := ← quantifiedRules.table? some QuantifiedRule.ofDatum? }
  | _ => none

end TransformationSystem

end Coverability
