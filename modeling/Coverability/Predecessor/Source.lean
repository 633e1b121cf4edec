import Coverability.Predecessor.Complement
import Coverability.Order.Basic
import Coverability.Trace.Line

/-! Sources of predecessors. A source is reset with a rule and a graph and then yields graphs
that the rule can turn into something above the graph. -/

namespace Coverability

/-- One answer of a source: a graph, or a line about a match that came to nothing. -/
inductive Yield where
  | graph (graph : Hypergraph)
  | skipped (line : Line)

/-- A source has a state of its own. A reset replaces what was still to be yielded; when it
fails, the state it leaves behind counts for the next reset. -/
structure Source where
  State : Type
  state : State
  respond : State → Rule → Hypergraph → List Line × Except Fault (List Yield) × State

def Source.reset (source : Source) (rule : Rule) (graph : Hypergraph) : List Line × Except Fault (List Yield) × Source :=
  let (lines, outcome, state) := source.respond source.state rule graph
  (lines, outcome, { source with state })

/-- The matches of the rule and graph a match source was reset with. -/
structure LoadedMatches where
  rule : Rule
  graph : Hypergraph
  found : List PartialMatch

namespace LoadedMatches

/-- The complement for a match, or a warning if the match does not fit the rule. -/
def yield (loaded : LoadedMatches) (found : PartialMatch) : Yield :=
  match complement loaded.rule loaded.graph found with
  | .ok graph => .graph graph
  | .error fault =>
    .skipped ⟨.warn, "skipping inconsistent match", [("rule", loaded.rule.id), ("err", fault.message)]⟩

end LoadedMatches

/-- Yields the complements of all partial matches. -/
structure MatchSource where
  contract : Bool := false
  loaded : Option LoadedMatches := none
  /-- The matches whose complements have not been yielded. -/
  pending : List PartialMatch := []

namespace MatchSource

/-- A source that contracts edges just if the order does. -/
def forOrder (order : Order) : MatchSource := { contract := order.contracts }

def withContraction (source : MatchSource) (contract : Bool) : MatchSource := { source with contract }

/-- How many matches the last reset has found. -/
def matchCount (source : MatchSource) : Nat :=
  match source.loaded with
  | some loaded => loaded.found.length
  | none => 0

/-- Finds the matches of a rule in a graph. A defective rule leaves the source as it is. -/
def reset (source : MatchSource) (rule : Rule) (graph : Hypergraph) : List Line × Except Fault Unit × MatchSource :=
  match rule.validate with
  | .error fault => ([], .error fault, source)
  | .ok () =>
    let found := Matching.all ⟨rule, graph, source.contract⟩
    ([⟨.trace, "partial matches",
      [("rule", rule.id), ("matches", toString found.length), ("contract", toString source.contract)]⟩],
      .ok (), { source with loaded := some ⟨rule, graph, found⟩, pending := found })

/-- What is still to be yielded. -/
def yields (source : MatchSource) : List Yield :=
  match source.loaded with
  | some loaded => source.pending.map loaded.yield
  | none => []

/-- The next complement among pending matches, with the warnings before it and what is left. -/
def nextAmong (loaded : LoadedMatches) : List PartialMatch → List Line × Option Hypergraph × List PartialMatch
  | [] => ([], none, [])
  | found :: rest =>
    match loaded.yield found with
    | .graph graph => ([], some graph, rest)
    | .skipped line =>
      let (lines, graph, rest) := nextAmong loaded rest
      (line :: lines, graph, rest)

/-- The next complement; none before the first reset and after the last match. -/
def next (source : MatchSource) : List Line × Option Hypergraph × MatchSource :=
  match source.loaded with
  | none => ([], none, source)
  | some loaded =>
    let (lines, graph, pending) := nextAmong loaded source.pending
    (lines, graph, { source with pending })

end MatchSource

namespace Source

/-- Yields the complements of partial matches. -/
def ofMatches (source : MatchSource) : Source where
  State := MatchSource
  state := source
  respond source rule graph :=
    let (lines, outcome, source) := source.reset rule graph
    (lines, outcome.map fun _ => source.yields, source)

/-- Yields the graph itself without its first edge. -/
def dropFirstEdge : Source where
  State := Unit
  state := ()
  respond state _ graph :=
    ([], .ok (graph.edgeIds.head?.toList.map fun edge => .graph (graph.deleteEdge edge)), state)

/-- Yields the listed graphs, one list per reset. A missing list makes the reset fail, and after
the last list nothing is yielded. -/
def scripted (script : List (Option (List Hypergraph))) : Source where
  State := List (Option (List Hypergraph))
  state := script
  respond script _ _ :=
    match script with
    | [] => ([], .ok [], [])
    | some graphs :: rest => ([], .ok (graphs.map .graph), rest)
    | none :: rest => ([], .error .scriptedFailure, rest)

end Source

end Coverability
