import Coverability.Hypergraph.Fingerprint
import Coverability.Identified
import Coverability.Rule.Basic

/-! What a search reports while it runs. Graphs are referred to by identity and fingerprint, so
a log keeps no graph. -/

namespace Coverability

/-- Why a search stopped. Only a converged search has found every minimal graph. -/
inductive Status where
  | converged
  /-- The initial graph with this index lies above a graph that was found. -/
  | covered (graph : GraphId) (initial : Nat)
  | timedOut
deriving DecidableEq

def Status.isComplete (status : Status) : Bool := status == .converged

structure GraphRef where
  id : GraphId
  digest : Digest
deriving DecidableEq

def Identified.ref (identified : Identified) : GraphRef := ⟨identified.id, identified.graph.fingerprint⟩

inductive Event where
  | prepared (name : String) (standard quantified : Nat)
  | errorGraph (graph : GraphRef)
  /-- The graph is a minimal predecessor of another one under a rule. -/
  | generated (graph source : GraphRef) (rule : RuleId)
  /-- The graph left the antichain, or never entered it, because another one lies below it. -/
  | deleted (graph because : GraphRef)
  /-- The graph was to be expanded but has left the antichain by now. -/
  | skipped (graph : GraphRef)
  | roundStarted (round : Nat)
  | roundFinished (round newGraphs : Nat)
  | finished (status : Status)
deriving DecidableEq

/-- The graph that an event is about. -/
def Event.subject? : Event → Option GraphId
  | errorGraph graph => some graph.id
  | generated graph _ _ => some graph.id
  | deleted graph _ => some graph.id
  | skipped graph => some graph.id
  | _ => none

end Coverability
