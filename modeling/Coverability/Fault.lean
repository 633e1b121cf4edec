import Coverability.Id

/-! What can go wrong, as causes. A missing collaborator is found before any search starts;
the other faults surface at the call that met them. The wording is in `Fault.message` alone. -/

namespace Coverability

/-- A part an analysis cannot be assembled without. -/
inductive Collaborator where
  | system
  | errorGraphs
  | order
  | preparer
  | enumerator
deriving DecidableEq

/-- Why the preserved part of a rule is not a partial isomorphism between its sides. -/
inductive RuleDefect where
  | foreignVertexPair (left right : VertexId)
  | vertexTwice (right : VertexId)
  | foreignEdgePair (left right : EdgeId)
  | edgeTwice (right : EdgeId)
  | shapeChanged (left : EdgeId)
  | incidenceChanged (left : EdgeId)
deriving DecidableEq

inductive Fault where
  | missing (part : Collaborator)
  | edgeAtUnknownVertex (vertex : VertexId)
  | mergeOfUnknownVertex (vertex : VertexId)
  | mergeOfNoVertices
  | mergeOfUnknownEdge (first second : EdgeId)
  | mergeOfShapes (firstLabel : String) (firstArity : Nat) (secondLabel : String) (secondArity : Nat)
  | mergeOfNoEdges
  | comparisonOfUnknownEdge (first second : EdgeId)
  | unknownGlueTarget (vertex : VertexId)
  | defectiveRule (rule : String) (defect : RuleDefect)
  | looseAnchor (rule : String) (quantified base : VertexId)
  | unpreservedAnchor (quantified : VertexId)
  | duplicateRule (rule : String)
  | unknownQuantifiedRule (rule : String)
  | undecodableLog (detail : String)
  | unopenedFile (path : String)
  | unreadableFile (path : String)
  | edgeLostInMerge
  | timerNotStarted
  | unownedIncidence (position : Nat) (edge : EdgeId)
  | vertexWithoutImage (vertex : VertexId)
  | edgeMissingFromRule (edge : EdgeId)
  | uncreatedFile (path : String)
  | scriptedFailure
deriving DecidableEq

/-- Whose mistake a fault is: the setup's, the argument's, or the order of calls. -/
inductive Fault.Kind where
  | configuration
  | invalidInput
  | invalidState
deriving DecidableEq

def Collaborator.text : Collaborator → String
  | .system => "gts"
  | .errorGraphs => "error graphs"
  | .order => "order"
  | .preparer => "rule preparer"
  | .enumerator => "poc enumerator"

def RuleDefect.text : RuleDefect → String
  | .foreignVertexPair left right => s!"vertex pair {left.text} -> {right.text} is not in the rule"
  | .vertexTwice right => s!"vertex {right.text} preserved twice"
  | .foreignEdgePair left right => s!"edge pair {left.text} -> {right.text} is not in the rule"
  | .edgeTwice right => s!"edge {right.text} preserved twice"
  | .shapeChanged left => s!"preserved edge {left.text} changes shape"
  | .incidenceChanged left => s!"preserved edge {left.text} changes incidence"

namespace Fault

def kind : Fault → Kind
  | missing _ => .configuration
  | edgeLostInMerge | timerNotStarted | unownedIncidence .. | vertexWithoutImage _ | edgeMissingFromRule _
  | uncreatedFile _ | scriptedFailure => .invalidState
  | _ => .invalidInput

def Kind.text : Kind → String
  | configuration => "configuration error"
  | invalidInput => "invalid input"
  | invalidState => "invalid state"

/-- The cause alone, without the kind in front of it. -/
def detail : Fault → String
  | missing part => s!"missing {part.text}"
  | edgeAtUnknownVertex vertex => s!"edge refers to unknown vertex {vertex.text}"
  | mergeOfUnknownVertex vertex => s!"cannot merge unknown vertex {vertex.text}"
  | mergeOfNoVertices => "cannot merge an empty vertex set"
  | mergeOfUnknownEdge first second => s!"cannot merge unknown edge ({first.text} or {second.text})"
  | mergeOfShapes firstLabel firstArity secondLabel secondArity =>
    s!"cannot merge {firstLabel}/{firstArity} with {secondLabel}/{secondArity}"
  | mergeOfNoEdges => "cannot merge an empty edge set"
  | comparisonOfUnknownEdge first second => s!"parallel check on unknown edge ({first.text} or {second.text})"
  | unknownGlueTarget vertex => s!"glue target {vertex.text} does not exist"
  | defectiveRule rule defect => s!"rule {rule}: {defect.text}"
  | looseAnchor rule quantified base =>
    s!"quantified rule {rule}: anchor {quantified.text} -> {base.text} must be preserved on both sides"
  | unpreservedAnchor quantified => s!"unpreserved anchor {quantified.text}"
  | duplicateRule rule => s!"duplicate rule id {rule}"
  | unknownQuantifiedRule rule => s!"unknown quantified rule {rule}"
  | undecodableLog detail => s!"decode event log: {detail}"
  | unopenedFile path => s!"open {path}"
  | unreadableFile path => s!"read {path}"
  | edgeLostInMerge => "edge vanished during merge"
  | timerNotStarted => "timer queried before start"
  | unownedIncidence position edge => s!"incidence {position} of {edge.text} has no owner"
  | vertexWithoutImage vertex => s!"vertex {vertex.text} has no image"
  | edgeMissingFromRule edge => s!"edge {edge.text} missing from rule"
  | uncreatedFile path => s!"create {path}"
  | scriptedFailure => "scripted failure"

def message (fault : Fault) : String := s!"{fault.kind.text}: {fault.detail}"

end Fault

end Coverability
