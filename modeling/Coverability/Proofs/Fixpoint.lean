import Coverability.Backward.Analysis
import Coverability.Proofs.Rounds

/-! What an analysis returns, whatever its order, source, preparer and clock are. The graphs above
the antichain are those above an error graph or a graph that the source has yielded. When the search
has converged, every element has been expanded once, and no initial graph lies above one. At the
very end the unnamed elements get a name, which matters to an order that looks at names. -/

namespace Coverability

namespace Antichain

variable {chain : Antichain}

/-- Nothing but the antichain holds its elements, so all of them can be named. -/
theorem assignDefaultNames_elements (distinct : (chain.elements.map Identified.id).Nodup) :
    (chain.assignDefaultNames fun _ => false).2.elements =
      chain.elements.map Identified.withDefaultName := by
  refine List.map_congr_left fun element member => ?_
  have once : (chain.elements.countP fun other => other.id = element.id) = 1 := by
    have counted :=
      List.count_eq_one_of_mem distinct (List.mem_map_of_mem (f := Identified.id) member)
    rwa [List.count, List.countP_map] at counted
  rw [ownsAlone, once]
  rfl

end Antichain

theorem Search.source_conclude {τ : Type} (setting : Setting τ) (search : Search τ)
    (status : Status) (rounds : Nat) :
    (search.conclude setting status rounds).source = search.source := by
  cases status <;> rfl

namespace Analysis

variable {τ : Type}

def setting (analysis : Analysis τ) (clock : Nat → Nat) : Setting τ :=
  ⟨analysis.order, analysis.system.initial, analysis.config.checkInitial, analysis.sink,
    analysis.config.timer.start 0, clock⟩

/-- The search once the rules have been prepared. -/
def opening (analysis : Analysis τ) (clock : Nat → Nat) (lines : List Line)
    (prepared : Prepared) : Search τ :=
  let search : Search τ :=
    Search.noteAll ⟨analysis.allocator, analysis.source, analysis.sinkState, #[], 0, {}, []⟩ lines
  let standard := prepared.rules.size
  let quantified := prepared.quantifiedRules.size
  (search.emit (analysis.setting clock) (.prepared prepared.name standard quantified)).note
    ⟨.info, "starting backward search",
      [("order", analysis.order.name), ("standard", toString standard),
        ("quantified", toString quantified),
       ("errors", toString analysis.errorGraphs.length)]⟩

/-- The run that a search has come to, with the graphs of a converged search named. -/
def closing (analysis : Analysis τ) (clock : Nat → Nat)
    (ending : Except Fault Status × Nat × Search τ) : Run τ :=
  let ended (result : Except Fault Outcome) (search : Search τ) : Run τ :=
    ⟨result, search.lines, { analysis with
      source := search.source
      sinkState := search.sink
      allocator := search.allocator }⟩
  match ending with
  | (.error fault, _, search) => ended (.error fault) search
  | (.ok status, rounds, search) =>
    let search := search.conclude (analysis.setting clock) status rounds
    ended (.ok ⟨status, search.antichain, rounds⟩) search

/-- The inquiries that an analysis makes of its source, round by round. -/
def inquiries (analysis : Analysis τ) (clock : Nat → Nat) (allowed : Nat) : List (List Inquiry) :=
  match analysis.preparer analysis.system analysis.order with
  | (lines, .ok prepared) =>
    (analysis.opening clock lines prepared).inquiries (analysis.setting clock) prepared
      analysis.errorGraphs allowed
  | (_, .error _) => []

/-- What the antichain holds when the search of an analysis ends, before anything is named. -/
def findings (analysis : Analysis τ) (clock : Nat → Nat) (allowed : Nat) : Option (List Identified) :=
  match analysis.preparer analysis.system analysis.order with
  | (lines, .ok prepared) =>
    ((analysis.opening clock lines prepared).run (analysis.setting clock) prepared
      analysis.errorGraphs allowed).map
      fun (_, _, search) => search.antichain.elements
  | (_, .error _) => none

variable {analysis : Analysis τ} {clock : Nat → Nat} {allowed : Nat} {run : Run τ} {outcome : Outcome}

theorem findings_prepared {lines : List Line} {prepared : Prepared}
    (ready : analysis.preparer analysis.system analysis.order = (lines, .ok prepared))
    {ending : Except Fault Status × Nat × Search τ}
    (ran : (analysis.opening clock lines prepared).run (analysis.setting clock) prepared
      analysis.errorGraphs allowed =
      some ending) : analysis.findings clock allowed = some ending.2.2.antichain.elements := by
  rw [findings]
  simp only [ready, ran, Option.map_some]

theorem perform_prepared {lines : List Line} {prepared : Prepared}
    (ready : analysis.preparer analysis.system analysis.order = (lines, .ok prepared)) :
    analysis.perform clock allowed =
      ((analysis.opening clock lines prepared).run (analysis.setting clock) prepared
        analysis.errorGraphs allowed).map
        (analysis.closing clock) := by
  rw [perform]
  simp only [ready]
  rfl

/-- Where the rules cannot be prepared, the search does not begin. -/
theorem perform_unprepared {lines : List Line} {fault : Fault}
    (ready : analysis.preparer analysis.system analysis.order = (lines, .error fault)) :
    analysis.perform clock allowed = some ⟨.error fault, (#[] : Array Line) ++ lines, analysis⟩ := by
  rw [perform]
  simp only [ready]
  rfl

/-- A search that ends without a fault, from its opening to its conclusion. -/
theorem perform_concluded (performed : analysis.perform clock allowed = some run)
    (finished : run.result = .ok outcome) :
    ∃ lines prepared after, analysis.preparer analysis.system analysis.order = (lines, .ok prepared) ∧
      (analysis.opening clock lines prepared).run (analysis.setting clock) prepared
        analysis.errorGraphs allowed =
        some (.ok outcome.status, outcome.rounds, after) ∧
      outcome.antichain =
        (after.conclude (analysis.setting clock) outcome.status outcome.rounds).antichain ∧
      run.analysis.source = after.source ∧
      run.analysis.sinkState =
        (after.conclude (analysis.setting clock) outcome.status outcome.rounds).sink := by
  cases ready : analysis.preparer analysis.system analysis.order with
  | mk lines result =>
    cases result with
    | error fault =>
      rw [perform_unprepared ready] at performed
      cases performed
      cases finished
    | ok prepared =>
      rw [perform_prepared ready] at performed
      obtain ⟨ending, ran, rfl⟩ := Option.map_eq_some_iff.mp performed
      obtain ⟨answer, rounds, after⟩ := ending
      cases answer with
      | error fault => cases finished
      | ok status =>
        cases finished
        exact ⟨lines, prepared, after, rfl, ran, rfl,
          Search.source_conclude (analysis.setting clock) after status rounds, rfl⟩

theorem perform_run (performed : analysis.perform clock allowed = some run)
    (finished : run.result = .ok outcome) :
    ∃ lines prepared after, analysis.preparer analysis.system analysis.order = (lines, .ok prepared) ∧
      (analysis.opening clock lines prepared).run (analysis.setting clock) prepared
        analysis.errorGraphs allowed =
        some (.ok outcome.status, outcome.rounds, after) ∧
      outcome.antichain =
        (after.conclude (analysis.setting clock) outcome.status outcome.rounds).antichain := by
  obtain ⟨lines, prepared, after, ready, ran, antichain, _⟩ := perform_concluded performed finished
  exact ⟨lines, prepared, after, ready, ran, antichain⟩

/-- Incomparable graphs that stand for all good graphs above one of the given graphs. -/
structure Minimal (order : Order) (good : Hypergraph → Prop) (graphs : List Hypergraph)
    (elements : List Identified) : Prop where
  incomparable : elements.Pairwise fun first second =>
    order.le first.graph second.graph = false ∧ order.le second.graph first.graph = false
  above_iff : ∀ target, good target → ((∃ element ∈ elements, order.le element.graph target = true) ↔
    ∃ graph ∈ graphs, order.le graph target = true)

def Uncovered (analysis : Analysis τ) (elements : List Identified) : Prop :=
  ∀ element ∈ elements, ∀ initial ∈ analysis.system.initial,
    analysis.order.le element.graph initial = false

/-- What a search has found, before its graphs are named. -/
structure Found (analysis : Analysis τ) (good : Hypergraph → Prop) (prepared : Prepared)
    (rounds : List (List Inquiry)) (outcome : Outcome) (found : List Identified) : Prop where
  returned : outcome.antichain.elements =
    if outcome.status = .converged then found.map Identified.withDefaultName else found
  fit : ∀ element ∈ found, good element.graph
  minimal : Minimal analysis.order good
    (analysis.errorGraphs ++ rounds.flatten.flatMap Inquiry.heard) found
  expanded : outcome.status = .converged →
    ∀ element ∈ found, Search.Expanded prepared rounds.flatten element
  uncovered : outcome.status = .converged → analysis.config.checkInitial = true →
    analysis.Uncovered found
  linked : outcome.status = .converged → Search.Linked analysis.errorGraphs rounds
  count : outcome.rounds = rounds.length

theorem inquiries_answers {required : Rule → Hypergraph → List Yield → Prop}
    (answers : analysis.source.Answers required) :
    ∀ inquiry ∈ (analysis.inquiries clock allowed).flatten,
      required inquiry.rule inquiry.origin.graph inquiry.answer ∧
      inquiry.heard ⊆ inquiry.answer.filterMap Yield.graph? := by
  rw [inquiries]
  split
  next lines prepared _ =>
    obtain ⟨⟨last, resets, _⟩, heard⟩ :=
      Search.run_inquired (analysis.setting clock) prepared analysis.errorGraphs allowed
        (analysis.opening clock lines prepared)
    exact fun inquiry member => ⟨resets.answers answers inquiry member, heard inquiry member⟩
  · exact nofun

/-- The inquiries are all that a run without a fault has used the source for. -/
theorem perform_resets (performed : analysis.perform clock allowed = some run)
    (finished : run.result = .ok outcome) :
    analysis.source.Resets (analysis.inquiries clock allowed).flatten run.analysis.source := by
  obtain ⟨lines, prepared, after, ready, ran, _, left, _⟩ := perform_concluded performed finished
  obtain ⟨⟨last, resets, ends⟩, _⟩ :=
    Search.run_inquired (analysis.setting clock) prepared analysis.errorGraphs allowed
      (analysis.opening clock lines prepared)
  rw [inquiries, ready, left, ends _ _ _ ran]
  exact resets

theorem inquiries_asked {prepared : Prepared}
    (ready : (analysis.preparer analysis.system analysis.order).2 = .ok prepared) :
    ∀ inquiry ∈ (analysis.inquiries clock allowed).flatten,
      .ok inquiry.rule ∈ prepared.rulesFor inquiry.origin.graph := by
  rw [inquiries]
  split
  next lines prepared' prepares =>
    rw [prepares] at ready
    cases ready
    exact Search.inquiries_asked _ prepared analysis.errorGraphs allowed _
  · exact nofun

theorem perform_found {good : Hypergraph → Prop} (lawful : analysis.order.LawfulOn good)
    (fit : ∀ graph ∈ analysis.errorGraphs, good graph)
    (trusted : Search.Trusted good (analysis.inquiries clock allowed).flatten)
    (performed : analysis.perform clock allowed = some run) (finished : run.result = .ok outcome) :
    ∃ prepared found,
      (analysis.preparer analysis.system analysis.order).2 = .ok prepared ∧
      analysis.findings clock allowed = some found ∧
      Found analysis good prepared (analysis.inquiries clock allowed) outcome found := by
  obtain ⟨lines, prepared, after, ready, ran, concluded⟩ := perform_run performed finished
  have asked : analysis.inquiries clock allowed =
      (analysis.opening clock lines prepared).inquiries (analysis.setting clock) prepared
        analysis.errorGraphs allowed := by
    rw [inquiries, ready]
  rw [asked] at trusted ⊢
  obtain ⟨⟨sound, complete⟩, count⟩ := Search.run_rounds lawful fit trusted rfl rfl ran
  refine ⟨prepared, after.antichain.elements, by rw [ready], findings_prepared ready ran, ?_⟩
  refine ⟨?_, sound.valid.good, ⟨sound.valid.incomparable, sound.above_iff⟩,
    fun converged element member => ?_, fun converged checked => ?_,
    fun converged => (complete converged).2.2, count⟩
  · rw [concluded]
    cases status : outcome.status with
    | converged =>
      rw [if_pos rfl]
      exact Antichain.assignDefaultNames_elements sound.valid.distinct
    | covered graph initial =>
      rw [if_neg nofun]
      rfl
    | timedOut =>
      rw [if_neg nofun]
      rfl
  · obtain ⟨ledger, idle, _⟩ := complete converged
    refine (ledger.settled element member).resolve_left fun waiting => ?_
    rw [idle] at waiting
    cases waiting
  · exact (complete converged).1.uncovered checked

/-- Whether an order looks at the structure of graphs only, and not at their names. -/
structure Nameless (order : Order) : Prop where
  left : ∀ (graph other : Hypergraph) (name : String),
    order.le { graph with name } other = order.le graph other
  right : ∀ (graph other : Hypergraph) (name : String),
    order.le other { graph with name } = order.le other graph

private theorem Minimal.named {order : Order} {good : Hypergraph → Prop} {graphs : List Hypergraph}
    {elements : List Identified} (minimal : Minimal order good graphs elements)
    (nameless : Nameless order) :
    Minimal order good graphs (elements.map Identified.withDefaultName) where
  incomparable := by
    rw [List.pairwise_map]
    refine minimal.incomparable.imp fun apart => ?_
    simp only [Identified.withDefaultName, nameless.left, nameless.right]
    exact apart
  above_iff target fit := by
    rw [← minimal.above_iff target fit]
    constructor
    · intro above
      obtain ⟨named, member, below⟩ := above
      obtain ⟨element, inside, rfl⟩ := List.mem_map.mp member
      exact ⟨element, inside, (nameless.left _ _ _).symm.trans below⟩
    · intro above
      obtain ⟨element, inside, below⟩ := above
      exact ⟨element.withDefaultName, List.mem_map_of_mem inside, (nameless.left _ _ _).trans below⟩

private theorem Uncovered.named {elements : List Identified}
    (uncovered : analysis.Uncovered elements) (nameless : Nameless analysis.order) :
    analysis.Uncovered (elements.map Identified.withDefaultName) := by
  intro named member initial start
  obtain ⟨element, inside, rfl⟩ := List.mem_map.mp member
  exact (nameless.left _ _ _).trans (uncovered element inside initial start)

/-- The graphs that a search has found are returned, once they have been named if the search has
converged. They are minimal among what has been heard; of a converged search each has been expanded
once, and what the source had to say about it lies above one of them. None of this changes with the
names unless the order looks at them. What has been heard is what the source was asked for: the
inquiries are the resets that have led to the source that is left. -/
theorem perform_fixpoint (lawful : analysis.order.Lawful)
    (performed : analysis.perform clock allowed = some run) (finished : run.result = .ok outcome) :
    ∃ prepared found,
      (analysis.preparer analysis.system analysis.order).2 = .ok prepared ∧
      analysis.findings clock allowed = some found ∧
      outcome.antichain.elements =
        (if outcome.status = .converged then found.map Identified.withDefaultName else found) ∧
      Minimal analysis.order (fun _ => True)
        (analysis.errorGraphs ++ (analysis.inquiries clock allowed).flatten.flatMap Inquiry.heard)
        found ∧
      (outcome.status = .converged → ∀ element ∈ found,
        Search.Expanded prepared (analysis.inquiries clock allowed).flatten element ∧
        ∀ inquiry ∈ (analysis.inquiries clock allowed).flatten, inquiry.origin.id = element.id →
          ∀ graph ∈ inquiry.answer.filterMap Yield.graph?,
            ∃ below ∈ found, analysis.order.le below.graph graph = true) ∧
      (outcome.status = .converged → analysis.config.checkInitial = true → analysis.Uncovered found) ∧
      (Nameless analysis.order →
        Minimal analysis.order (fun _ => True)
          (analysis.errorGraphs ++ (analysis.inquiries clock allowed).flatten.flatMap Inquiry.heard)
          outcome.antichain.elements ∧
        (outcome.status = .converged → analysis.config.checkInitial = true →
          analysis.Uncovered outcome.antichain.elements)) ∧
      analysis.source.Resets (analysis.inquiries clock allowed).flatten run.analysis.source := by
  obtain ⟨prepared, found, ready, ended, known⟩ :=
    perform_found lawful (fun _ _ => trivial) (fun _ _ _ _ _ => trivial) performed finished
  refine ⟨prepared, found, ready, ended, known.returned, known.minimal,
    fun converged element member => ?_,
    known.uncovered, fun nameless => ?_, perform_resets performed finished⟩
  · have expanded := known.expanded converged element member
    refine ⟨expanded, fun inquiry asked same graph yielded => ?_⟩
    have drained := (expanded.2 inquiry (List.mem_filter.mpr ⟨asked, decide_eq_true same⟩)).2
    rw [← drained] at yielded
    rw [known.minimal.above_iff graph trivial]
    exact ⟨graph, List.mem_append_right _ (List.mem_flatMap.mpr ⟨inquiry, asked, yielded⟩),
      lawful.refl trivial⟩
  · rw [known.returned]
    split
    · exact ⟨known.minimal.named nameless,
        fun converged checked => (known.uncovered converged checked).named nameless⟩
    · exact ⟨known.minimal, known.uncovered⟩

/-- What a search that ends without a fault returns, with its status. -/
def returns (analysis : Analysis τ) (clock : Nat → Nat) (allowed : Nat) :
    Option (Status × List Identified) :=
  (analysis.perform clock allowed).bind fun run =>
    run.result.toOption.map fun outcome => (outcome.status, outcome.antichain.elements)

theorem perform_of_returns {status : Status} {elements : List Identified}
    (returned : analysis.returns clock allowed = some (status, elements)) : ∃ run outcome,
      analysis.perform clock allowed = some run ∧ run.result = .ok outcome ∧ outcome.status = status ∧
        outcome.antichain.elements = elements := by
  obtain ⟨run, performed, ended⟩ := Option.bind_eq_some_iff.mp returned
  obtain ⟨outcome, finished, same⟩ := Option.map_eq_some_iff.mp ended
  cases result : run.result with
  | error fault =>
    rw [result] at finished
    cases finished
  | ok found =>
    rw [result] at finished
    cases finished
    cases same
    exact ⟨run, outcome, performed, result, rfl, rfl⟩

/-- The order of equal names. -/
def byName : Order where
  name := "name"
  le smaller bigger := smaller.name = bigger.name

theorem byName_lawful : byName.Lawful where
  refl _ := decide_eq_true rfl
  trans _ _ _ first second :=
    decide_eq_true ((of_decide_eq_true first).trans (of_decide_eq_true second))

/-- Two steps back from an error graph, to graphs that the source makes up. -/
def scriptedSearch : Analysis Unit where
  system := { rules := Table.insert ∅ "step" ⟨"step", "", {}, {}, ∅, ∅⟩ }
  errorGraphs := [{ name := "error" }]
  order := byName
  preparer := .validating 0
  source := .scripted [some [{ name := "first" }, { name := "error" }], some [{ name := "second" }]]
  sink := .null
  sinkState := ()
  config := {}

theorem scriptedSearch_found :
    ∃ run outcome, scriptedSearch.perform (fun _ => 0) 3 = some run ∧ run.result = .ok outcome ∧
    ∃ found, outcome.antichain.elements = found.map Identified.withDefaultName ∧
      Minimal byName (fun _ => True) [{ name := "error" }, { name := "first" }, { name := "error" },
        { name := "second" }] found ∧
      (scriptedSearch.inquiries (fun _ => 0) 3).flatten.length = 3 ∧
      scriptedSearch.source.Resets (scriptedSearch.inquiries (fun _ => 0) 3).flatten
        run.analysis.source := by
  have asked : (scriptedSearch.inquiries (fun _ => 0) 3).flatten.length = 3 := by decide +kernel
  have returned : scriptedSearch.returns (fun _ => 0) 3 =
      some (.converged,
        [⟨⟨0⟩, { name := "error" }⟩, ⟨⟨1⟩, { name := "first" }⟩, ⟨⟨3⟩, { name := "second" }⟩]) := by
          decide +kernel
  have heard : (scriptedSearch.inquiries (fun _ => 0) 3).flatten.flatMap Inquiry.heard =
      [{ name := "first" }, { name := "error" }, { name := "second" }] := by decide +kernel
  obtain ⟨run, outcome, performed, finished, converged, _⟩ := perform_of_returns returned
  obtain ⟨_, found, _, _, returned, minimal, _, _, _, resets⟩ :=
    perform_fixpoint byName_lawful performed finished
  rw [if_pos converged] at returned
  rw [heard] at minimal
  exact ⟨run, outcome, performed, finished, found, returned, minimal, asked, resets⟩

/-- An unnamed error graph may be given the name of another one. -/
def clashing : Analysis Unit where
  system := {}
  errorGraphs := [{}, { name := "graph_0" }]
  order := byName
  preparer := .validating 0
  source := .ofMatches {}
  sink := .null
  sinkState := ()
  config := { checkInitial := false }

theorem clashing_comparable :
    clashing.order.Lawful ∧ ∃ run outcome, clashing.perform (fun _ => 0) 1 = some run ∧
    run.result = .ok outcome ∧ outcome.status = .converged ∧
    ∃ first ∈ outcome.antichain.elements, ∃ second ∈ outcome.antichain.elements,
      first ≠ second ∧ clashing.order.le first.graph second.graph = true := by
  have returned : clashing.returns (fun _ => 0) 1 =
      some (.converged, [⟨⟨0⟩, { name := "graph_0" }⟩, ⟨⟨1⟩, { name := "graph_0" }⟩]) := by
        decide +kernel
  obtain ⟨run, outcome, performed, finished, converged, elements⟩ := perform_of_returns returned
  refine ⟨byName_lawful, run, outcome, performed, finished, converged, ?_⟩
  rw [elements]
  decide +kernel

end Analysis

end Coverability
