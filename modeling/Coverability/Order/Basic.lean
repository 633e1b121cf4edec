import Coverability.Hypergraph.Basic

/-! Orders on graphs. A search keeps only the smallest graphs it has found, so it needs a
decision whether one graph lies below another, and nothing else about the graphs. -/

namespace Coverability

structure Order where
  name : String
  /-- Whether a graph may lie below another one only after edges have been contracted. -/
  contracts : Bool := false
  le : Hypergraph → Hypergraph → Bool

/-- How many edges of a shape a graph has. -/
def Hypergraph.shapeCount (graph : Hypergraph) (shape : String × Nat) : Nat :=
  graph.edgeList.countP fun edge => edge.shape = shape

/-- A cheap condition that no order does without: the bigger graph has at least as many
vertices and edges, and enough edges of every shape that the smaller one uses. -/
def mayFit (smaller bigger : Hypergraph) : Bool :=
  smaller.vertexCount ≤ bigger.vertexCount && smaller.edgeCount ≤ bigger.edgeCount &&
    smaller.edgeList.all fun edge => smaller.shapeCount edge.shape ≤ bigger.shapeCount edge.shape

/-- The order in which just the listed pairs of names are comparable. -/
def Order.ofPairs (pairs : List (String × String)) : Order where
  name := "table"
  le smaller bigger := (smaller.name, bigger.name) ∈ pairs

end Coverability
