import Coverability.Backward.Config
import Coverability.Backward.Search
import Coverability.Text.Quoted

/-! Analyses: a system, the graphs to be covered, and the parts that do the work. An analysis can
be performed again. Identities go on counting, and the source keeps its state. -/

namespace Coverability

structure Analysis (τ : Type) where
  system : TransformationSystem
  errorGraphs : List Hypergraph
  order : Order
  preparer : Preparer
  source : Source
  sink : Sink τ
  sinkState : τ
  config : Config
  allocator : Allocator := {}

/-- The parts of an analysis that have been chosen so far. -/
structure Assembly where
  system : Option TransformationSystem := none
  errorGraphs : Option (List Hypergraph) := none
  order : Option Order := none
  preparer : Option Preparer := none
  source : Option Source := none
  config : Config := {}

namespace Assembly

/-- Chooses the missing parts as the configuration says. The source contracts edges just if the
order does. -/
def withDefaults (assembly : Assembly) : Assembly :=
  let order := assembly.order.getD assembly.config.order.order
  { assembly with
    order := some order
    preparer := some (assembly.preparer.getD (.validating assembly.config.maxInstances))
    source := some (assembly.source.getD (.ofMatches (.forOrder order))) }

/-- The analysis with the given sink, or the first part that is missing. -/
def build {τ : Type} (assembly : Assembly) (sink : Sink τ) (sinkState : τ) : Except Fault (Analysis τ) :=
  match assembly.system, assembly.errorGraphs, assembly.order, assembly.preparer, assembly.source with
  | none, _, _, _, _ => .error (.missing .system)
  | _, none, _, _, _ => .error (.missing .errorGraphs)
  | _, _, none, _, _ => .error (.missing .order)
  | _, _, _, none, _ => .error (.missing .preparer)
  | _, _, _, _, none => .error (.missing .enumerator)
  | some system, some errorGraphs, some order, some preparer, some source =>
    .ok { system, errorGraphs, order, preparer, source, sink, sinkState, config := assembly.config }

end Assembly

structure Outcome where
  status : Status
  antichain : Antichain
  /-- The number of rounds that were started. -/
  rounds : Nat

/-- The outcome of a run with the lines it wrote, and the analysis after it. -/
structure Run (τ : Type) where
  result : Except Fault Outcome
  lines : Array Line
  analysis : Analysis τ

namespace Analysis

variable {τ : Type}

/-- Performs the analysis, given the time at each look at the clock. There is no answer if more
rounds than allowed are needed. -/
def perform (analysis : Analysis τ) (clock : Nat → Nat) (allowed : Nat) : Option (Run τ) :=
  let setting : Setting τ :=
    ⟨analysis.order, analysis.system.initial, analysis.config.checkInitial, analysis.sink,
      analysis.config.timer.start 0, clock⟩
  let ended (result : Except Fault Outcome) (search : Search τ) : Run τ :=
    ⟨result, search.lines,
      { analysis with source := search.source, sinkState := search.sink, allocator := search.allocator }⟩
  let (lines, outcome) := analysis.preparer analysis.system analysis.order
  let search : Search τ := Search.noteAll ⟨analysis.allocator, analysis.source, analysis.sinkState, #[], 0, {}, []⟩ lines
  match outcome with
  | .error fault => some (ended (.error fault) search)
  | .ok prepared =>
    let standard := prepared.rules.size
    let quantified := prepared.quantifiedRules.size
    let line : Line := ⟨.info, "starting backward search",
      [("order", analysis.order.name), ("standard", toString standard), ("quantified", toString quantified),
       ("errors", toString analysis.errorGraphs.length)]⟩
    let search := (search.emit setting (.prepared prepared.name standard quantified)).note line
    (search.run setting prepared analysis.errorGraphs allowed).map fun
      | (.error fault, _, search) => ended (.error fault) search
      | (.ok status, rounds, search) =>
        let search := search.conclude setting status rounds
        ended (.ok ⟨status, search.antichain, rounds⟩) search

def debugText (analysis : Analysis τ) : String :=
  let name := Text.quoted analysis.system.name
  s!"BackwardAnalysis \x7b gts: {name}, error_graphs: {analysis.errorGraphs.length}, " ++
    s!"order: \"{analysis.order.name}\", config: {analysis.config.debugText}, .. \x7d"

end Analysis

end Coverability
