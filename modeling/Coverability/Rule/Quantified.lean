import Coverability.Rule.Basic

/-! Quantified rules apply a part of themselves to every neighbour that matches. The instance
for a number of neighbours is a plain rule: the base with as many copies of the quantified part
glued on at the anchors. -/

namespace Coverability

structure QuantifiedRule where
  id : RuleId
  name : String
  base : Rule
  quantified : Rule
  /-- Vertices of the quantified left side with the vertices of the base they are glued to. -/
  anchors : Table VertexId VertexId := ∅
deriving DecidableEq, Inhabited

namespace QuantifiedRule

/-- Anchors have to survive on both sides, so that the copies can be glued to both. -/
def validate (rule : QuantifiedRule) : Except Fault Unit := do
  rule.base.validate
  rule.quantified.validate
  match rule.anchors.entries.find? fun (quantified, base) =>
      !rule.quantified.vertexMap.contains quantified || !rule.base.vertexMap.contains base with
  | none => .ok ()
  | some (quantified, base) => .error (.looseAnchor rule.id quantified base)

/-- The anchors as the right sides see them. -/
def rightAnchors (rule : QuantifiedRule) : Except Fault (Table VertexId VertexId) :=
  rule.anchors.entries.foldlM (fun glue (quantified, base) =>
    match rule.quantified.vertexMap.get? quantified, rule.base.vertexMap.get? base with
    | some source, some target => .ok (glue.insert source target)
    | _, _ => .error (.unpreservedAnchor quantified)) ∅

/-- The pairs that a copy adds to a map, where both ends have been copied. -/
def copiedPairs {kind : Kind} (pairs left right : Table (Id kind) (Id kind)) : List (Id kind × Id kind) :=
  pairs.entries.filterMap fun (source, target) =>
    match left.get? source, right.get? target with
    | some source, some target => some (source, target)
    | _, _ => none

/-- Glues one more copy of the quantified part to a rule. -/
def addCopy (rule : QuantifiedRule) (rightAnchors : Table VertexId VertexId) (grown : Rule) : Except Fault Rule :=
  match grown.left.glueCopy rule.quantified.left rule.anchors with
  | (.error fault, _) => .error fault
  | (.ok left, leftSide) =>
    match grown.right.glueCopy rule.quantified.right rightAnchors with
    | (.error fault, _) => .error fault
    | (.ok right, rightSide) => .ok { grown with
        left := leftSide
        right := rightSide
        vertexMap := grown.vertexMap.insertAll (copiedPairs rule.quantified.vertexMap left.vertices right.vertices)
        edgeMap := grown.edgeMap.insertAll (copiedPairs rule.quantified.edgeMap left.edges right.edges) }

def addCopies (rule : QuantifiedRule) (rightAnchors : Table VertexId VertexId) : Nat → Rule → Except Fault Rule
  | 0, grown => .ok grown
  | copies + 1, grown => (rule.addCopy rightAnchors grown).bind (rule.addCopies rightAnchors copies)

/-- The plain rule for a number of neighbours, named after it. -/
def instantiate (rule : QuantifiedRule) (copies : Nat) : Except Fault Rule := do
  let rightAnchors ← rule.rightAnchors
  rule.addCopies rightAnchors copies { rule.base with id := rule.id, name := s!"{rule.name}[{copies}]" }

end QuantifiedRule

end Coverability
