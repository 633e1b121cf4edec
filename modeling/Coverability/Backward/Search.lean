import Coverability.Antichain
import Coverability.Predecessor.Source
import Coverability.Rule.Prepared
import Coverability.Timer

/-! Backward search. From the graphs to be covered, every round applies all rules backwards to
the graphs that the round before has found, and keeps what is minimal. The search has converged
when a round finds nothing new. It stops early when an initial graph lies above a graph that was
found, or when time is up. -/

namespace Coverability

/-- What stays the same during a search. -/
structure Setting (τ : Type) where
  order : Order
  initial : List Hypergraph
  /-- Whether initial graphs stop the search. -/
  checkInitial : Bool
  sink : Sink τ
  timer : Timer
  /-- The time at the first, second, ... look at the clock. -/
  clock : Nat → Nat

/-- What changes during a search. -/
structure Search (τ : Type) where
  allocator : Allocator
  source : Source
  sink : τ
  lines : Array Line := #[]
  /-- How often the clock has been looked at. -/
  polls : Nat := 0
  antichain : Antichain := {}
  /-- The graphs for the next round, the last one first. -/
  next : List Identified := []

/-- Whether a search goes on. -/
inductive Verdict where
  | proceed
  | stop (status : Status)
  | fail (fault : Fault)

/-- The first initial graph above one of the graphs, which are tried in their order. -/
def Setting.covered? {τ : Type} (setting : Setting τ) (graphs : List Identified) : Option Status :=
  if setting.checkInitial then
    graphs.findSome? fun graph =>
      (setting.initial.findIdx? fun initial => setting.order.le graph.graph initial).map (Status.covered graph.id)
  else none

namespace Search

variable {τ : Type} (setting : Setting τ)

def note (search : Search τ) (line : Line) : Search τ := { search with lines := search.lines.push line }

def noteAll (search : Search τ) (lines : List Line) : Search τ := { search with lines := search.lines ++ lines }

def emit (search : Search τ) (event : Event) : Search τ :=
  let (lines, sink) := setting.sink.emit event search.sink
  { search.noteAll lines with sink }

def identify (search : Search τ) (graph : Hypergraph) : Identified × Search τ :=
  let (identified, allocator) := search.allocator.identify graph
  (identified, { search with allocator })

/-- Inserts a graph into the antichain and reports what became of it. -/
def insert (search : Search τ) (graph : Identified) : Bool × Search τ :=
  let (insertion, antichain) := search.antichain.insert setting.order graph
  let search := (insertion.report graph).foldl
    (fun search (line, event) => (search.note line).emit setting event) { search with antichain }
  (insertion.isAccepted, search)

/-- Looks at the clock. -/
def isOutOfTime (search : Search τ) : Bool × Search τ :=
  (setting.timer.outOfTime (setting.clock search.polls), { search with polls := search.polls + 1 })

/-- Takes in a predecessor of a graph under a rule. -/
def takeIn (search : Search τ) (origin : Identified) (rule : RuleId) (found : Hypergraph) : Verdict × Search τ :=
  let (graph, search) := search.identify found
  match search.insert setting graph with
  | (false, search) => (.proceed, search)
  | (true, search) =>
    let line : Line := ⟨.debug, "new minimal graph", [("graph", graph.id.text), ("from", origin.id.text), ("rule", rule)]⟩
    let search := (search.note line).emit setting (.generated graph.ref origin.ref rule)
    match setting.covered? [graph] with
    | some status => (.stop status, search)
    | none => (.proceed, { search with next := graph :: search.next })

/-- Takes in everything a source has yielded, and looks at the clock after each graph. -/
def takeInAll (origin : Identified) (rule : RuleId) : List Yield → Search τ → Verdict × Search τ
  | [], search => (.proceed, search)
  | .skipped line :: rest, search => takeInAll origin rule rest (search.note line)
  | .graph found :: rest, search =>
    match search.takeIn setting origin rule found with
    | (.proceed, search) =>
      match search.isOutOfTime setting with
      | (true, search) => (.stop .timedOut, search)
      | (false, search) => takeInAll origin rule rest search
    | stopped => stopped

/-- Applies one rule backwards to a graph. -/
def expand (search : Search τ) (graph : Identified) (rule : Rule) : Verdict × Search τ :=
  let (lines, outcome, source) := search.source.reset rule graph.graph
  let search := { search.noteAll lines with source }
  match outcome with
  | .ok yields => takeInAll setting graph rule.id yields search
  | .error fault => (.fail fault, search)

/-- Applies rules backwards to a graph, one after the other. -/
def expandAll (graph : Identified) : List (Except Fault Rule) → Search τ → Verdict × Search τ
  | [], search => (.proceed, search)
  | .error fault :: _, search => (.fail fault, search)
  | .ok rule :: rest, search =>
    match search.expand setting graph rule with
    | (.proceed, search) => expandAll graph rest search
    | stopped => stopped

/-- Expands the graphs of a round. A graph that has left the antichain by now is skipped. -/
def expandRound (prepared : Prepared) : List Identified → Search τ → Verdict × Search τ
  | [], search => (.proceed, search)
  | graph :: rest, search =>
    if search.antichain.contains graph.id then
      match expandAll setting graph (prepared.rulesFor graph.graph) search with
      | (.proceed, search) => expandRound prepared rest search
      | stopped => stopped
    else expandRound prepared rest (search.emit setting (.skipped graph.ref))

/-- Runs rounds until one of them is left with nothing to expand. The answer names the number of
the last round, and there is none if more rounds than allowed were needed. -/
def runRounds (prepared : Prepared) :
    Nat → Nat → List Identified → Search τ → Option (Except Fault Status × Nat × Search τ)
  | _, round, [], search => some (.ok .converged, round, search)
  | 0, _, _ :: _, _ => none
  | allowed + 1, round, worklist, search =>
    let round := round + 1
    let line : Line := ⟨.info, "backward round",
      [("round", toString round), ("worklist", toString worklist.length), ("antichain", toString search.antichain.size)]⟩
    let search := (search.emit setting (.roundStarted round)).note line
    match expandRound setting prepared worklist search with
    | (.proceed, search) =>
      let search := search.emit setting (.roundFinished round search.next.length)
      runRounds prepared allowed round search.next { search with next := [] }
    | (.stop status, search) => some (.ok status, round, search)
    | (.fail fault, search) => some (.error fault, round, search)

/-- Takes in the graphs to be covered and lists them, the last one first. -/
def takeInErrors : List Hypergraph → List Identified → Search τ → List Identified × Search τ
  | [], worklist, search => (worklist, search)
  | found :: rest, worklist, search =>
    let (graph, search) := search.identify found
    let search := search.emit setting (.errorGraph graph.ref)
    let (_, search) := search.insert setting graph
    takeInErrors rest (graph :: worklist) search

/-- The search from the graphs to be covered, with at most the given number of rounds. -/
def run (prepared : Prepared) (errorGraphs : List Hypergraph) (allowed : Nat) (search : Search τ) :
    Option (Except Fault Status × Nat × Search τ) :=
  let (worklist, search) := takeInErrors setting errorGraphs [] search
  match setting.covered? worklist.reverse with
  | some status => some (.ok status, 0, search)
  | none =>
    match search.isOutOfTime setting with
    | (true, search) => some (.ok .timedOut, 0, search)
    | (false, search) => runRounds setting prepared allowed 0 worklist search

/-- Names the graphs of a converged search and reports why the search has stopped. -/
def conclude (search : Search τ) (status : Status) (rounds : Nat) : Search τ :=
  let search := match status with
    | .converged =>
      let (lines, antichain) := search.antichain.assignDefaultNames fun _ => false
      { search.noteAll lines with antichain }
    | _ => search
  let size := toString search.antichain.size
  let line : Line := match status with
    | .converged => ⟨.info, "backward search converged", [("rounds", toString rounds), ("graphs", size)]⟩
    | .covered graph initial => ⟨.info, "initial graph covers a found graph, result is partial",
        [("rounds", toString rounds), ("graph", graph.text), ("initial", toString initial)]⟩
    | .timedOut => ⟨.info, "timeout reached, result is partial", [("rounds", toString rounds), ("graphs", size)]⟩
  (search.note line).emit setting (.finished status)

end Search

end Coverability
