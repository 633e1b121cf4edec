import Coverability.Hypergraph.Basic

/-! Graphs with an identity. The identity is unique for a whole analysis: a copy of a graph is
a graph of its own, unlike its vertices and edges, which keep their identifiers. -/

namespace Coverability

structure Identified where
  id : GraphId
  graph : Hypergraph
deriving DecidableEq, Inhabited

/-- A source of identities, which counts how many it has issued. -/
structure Allocator where
  issued : Nat := 0
deriving DecidableEq, Inhabited

namespace Allocator

def fresh (allocator : Allocator) : GraphId × Allocator := (⟨allocator.issued⟩, ⟨allocator.issued + 1⟩)

def identify (allocator : Allocator) (graph : Hypergraph) : Identified × Allocator :=
  let (id, allocator) := allocator.fresh
  (⟨id, graph⟩, allocator)

end Allocator

/-- The name of the graph, or one made from its identity if it has none. -/
def Identified.defaultName (identified : Identified) : String :=
  if identified.graph.name.isEmpty then s!"graph_{identified.id.number}" else identified.graph.name

/-- Gives an unnamed graph a name made from its identity. -/
def Identified.withDefaultName (identified : Identified) : Identified :=
  { identified with graph := { identified.graph with name := identified.defaultName } }

end Coverability
