import Coverability.Trace.Event
import Coverability.Trace.Line

/-! Receivers of events. A sink may keep an event, turn it into a diagnostic line, or refuse
events altogether; nothing it does flows back into the search. -/

namespace Coverability

/-- The events of a search in the order in which they were recorded. -/
structure EventLog where
  events : Array Event := #[]
deriving DecidableEq, Inhabited

namespace EventLog

def record (log : EventLog) (event : Event) : EventLog := ⟨log.events.push event⟩

/-- The events whose subject is the given graph. -/
def historyOf (log : EventLog) (id : GraphId) : List Event :=
  log.events.toList.filter fun event => event.subject? = some id

end EventLog

structure Sink (σ : Type) where
  isEnabled : σ → Bool
  record : Event → σ → σ
  lines : Event → List Line

namespace Sink

variable {σ : Type}

/-- Passes an event on, if the sink is enabled. -/
def emit (sink : Sink σ) (event : Event) (state : σ) : List Line × σ :=
  if sink.isEnabled state then (sink.lines event, sink.record event state) else ([], state)

/-- Discards every event. -/
def null : Sink Unit where
  isEnabled _ := false
  record _ state := state
  lines _ := []

def log : Sink EventLog where
  isEnabled _ := true
  record event log := log.record event
  lines _ := []

/-- Counts what it receives, but refuses everything. -/
def muted : Sink Nat where
  isEnabled _ := false
  record _ count := count + 1
  lines _ := []

end Sink

/-- How a status is written in a diagnostic line. -/
def Status.debugText : Status → String
  | converged => "Converged"
  | covered graph initial =>
    s!"InitialGraphCovered \x7b graph: GraphId({graph.number}), initial: {initial} \x7d"
  | timedOut => "TimedOut"

def Event.line : Event → Line
  | prepared name standard quantified =>
    ⟨.info, "prepared rules", [("gts", name), ("standard", toString standard), ("quantified", toString quantified)]⟩
  | errorGraph graph => ⟨.debug, "error graph", [("graph", graph.id.text), ("digest", graph.digest.text)]⟩
  | generated graph source rule =>
    ⟨.trace, "generated", [("graph", graph.id.text), ("from", source.id.text), ("rule", rule)]⟩
  | deleted graph because => ⟨.trace, "deleted", [("graph", graph.id.text), ("because", because.id.text)]⟩
  | skipped graph => ⟨.trace, "skipped dominated graph", [("graph", graph.id.text)]⟩
  | roundStarted round => ⟨.debug, "round started", [("round", toString round)]⟩
  | roundFinished round newGraphs =>
    ⟨.debug, "round finished", [("round", toString round), ("new_graphs", toString newGraphs)]⟩
  | finished status => ⟨.info, "search finished", [("status", status.debugText)]⟩

/-- Turns every event into a diagnostic line. -/
def Sink.tracing : Sink Unit where
  isEnabled _ := true
  record _ state := state
  lines event := [event.line]

end Coverability
