import Coverability.Hypergraph.Morphism

/-! Transformation rules. The maps of a rule tell which part of the left side survives as which part of
the right side; the rest of the left side is deleted and the rest of the right side created. -/

namespace Coverability

abbrev RuleId := String

structure Rule where
  id : RuleId
  name : String
  left : Hypergraph
  right : Hypergraph
  vertexMap : Table VertexId VertexId := ∅
  edgeMap : Table EdgeId EdgeId := ∅
deriving DecidableEq, Inhabited

namespace Rule

/-- The first flaw in the map of vertices, whose pairs are checked in ascending order. -/
def vertexDefect? (rule : Rule) (earlier : List VertexId) : List (VertexId × VertexId) → Option RuleDefect
  | [] => none
  | (left, right) :: rest =>
    if !rule.left.hasVertex left || !rule.right.hasVertex right then some (.foreignVertexPair left right)
    else if right ∈ earlier then some (.vertexTwice right)
    else rule.vertexDefect? (right :: earlier) rest

/-- Whether the vertices of two edges correspond position by position. -/
def keepsIncidence (rule : Rule) (left right : Edge) : Bool :=
  (left.vertices.zip right.vertices).all fun pair => rule.vertexMap.get? pair.1 == some pair.2

/-- The first flaw in the map of edges, whose pairs are checked in ascending order. -/
def edgeDefect? (rule : Rule) (earlier : List EdgeId) : List (EdgeId × EdgeId) → Option RuleDefect
  | [] => none
  | (left, right) :: rest =>
    match rule.left.edge? left, rule.right.edge? right with
    | some one, some other =>
      if right ∈ earlier then some (.edgeTwice right)
      else if one.shape ≠ other.shape then some (.shapeChanged left)
      else if !rule.keepsIncidence one other then some (.incidenceChanged left)
      else rule.edgeDefect? (right :: earlier) rest
    | _, _ => some (.foreignEdgePair left right)

def defect? (rule : Rule) : Option RuleDefect :=
  (rule.vertexDefect? [] rule.vertexMap.entries).or (rule.edgeDefect? [] rule.edgeMap.entries)

/-- Accepts a rule whose maps are a partial isomorphism from the left to the right side. -/
def validate (rule : Rule) : Except Fault Unit :=
  match rule.defect? with
  | none => .ok ()
  | some defect => .error (.defectiveRule rule.id defect)

def createdVertices (rule : Rule) : List VertexId :=
  rule.right.vertexIds.filter fun vertex => vertex ∉ rule.vertexMap.values

def createdEdges (rule : Rule) : List EdgeId :=
  rule.right.edgeIds.filter fun edge => edge ∉ rule.edgeMap.values

def deletedVertices (rule : Rule) : List VertexId :=
  rule.left.vertexIds.filter fun vertex => !rule.vertexMap.contains vertex

def deletedEdges (rule : Rule) : List EdgeId :=
  rule.left.edgeIds.filter fun edge => !rule.edgeMap.contains edge

end Rule

end Coverability
