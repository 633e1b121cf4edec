import Coverability.Proofs.Fixpoint
import Coverability.Proofs.Insertions

/-! Stopping at an initial graph. A search that stops in a round names the graph that it took in
last, and this one is still in the antichain. Before the first round it names an error graph. All
error graphs have gone into the antichain by then, so the one that is named may have been turned
down, or dropped again, for a smaller one. -/

namespace Coverability

/-- The graph at this index lies above the given one, and none before it does. -/
structure Order.FirstAbove (order : Order) (graph : Hypergraph) (targets : List Hypergraph)
    (index : Nat) : Prop where
  above : ∃ target, targets[index]? = some target ∧ order.le graph target = true
  before : ∀ earlier < index, ∀ target, targets[earlier]? = some target →
    order.le graph target = false

theorem Order.firstAbove_of_findIdx? {order : Order} {graph : Hypergraph}
    {targets : List Hypergraph} {index : Nat}
    (found : targets.findIdx? (fun target => order.le graph target) = some index) :
    order.FirstAbove graph targets index := by
  obtain ⟨inside, above, before⟩ := List.findIdx?_eq_some_iff_getElem.mp found
  refine ⟨⟨_, List.getElem?_eq_getElem inside, above⟩, ?_⟩
  intro earlier less target same
  obtain ⟨_, rfl⟩ := List.getElem?_eq_some_iff.mp same
  exact Bool.not_eq_true _ ▸ before earlier less

/-- The graphs with the identities that they get when they are identified one after the other. -/
def Allocator.identifyAll (allocator : Allocator) : List Hypergraph → List Identified
  | [] => []
  | graph :: rest => (allocator.identify graph).1 :: (allocator.identify graph).2.identifyAll rest

namespace Search

variable {τ : Type} {setting : Setting τ} {search after : Search τ} {id : GraphId} {index : Nat}

theorem covered?_firstAbove {graphs : List Identified}
    (covered : setting.covered? graphs = some (.covered id index)) :
    ∃ witness ∈ graphs, witness.id = id ∧
      setting.order.FirstAbove witness.graph setting.initial index := by
  rw [Setting.covered?] at covered
  split at covered
  · obtain ⟨witness, member, found⟩ := List.exists_of_findSome?_eq_some covered
    obtain ⟨first, found, same⟩ := Option.map_eq_some_iff.mp found
    cases same
    exact ⟨witness, member, rfl, Order.firstAbove_of_findIdx? found⟩
  · cases covered

/-- If the search stops at an initial graph, then it names an element of its antichain. -/
def Witnessed (setting : Setting τ) (verdict : Verdict) (after : Search τ) : Prop :=
  ∀ id index, verdict = .stop (.covered id index) →
    ∃ witness ∈ after.antichain.elements, witness.id = id ∧
      setting.order.FirstAbove witness.graph setting.initial index

theorem witnessed_proceed : Witnessed setting .proceed after := nofun

theorem witnessed_fail (fault : Fault) : Witnessed setting (.fail fault) after := nofun

theorem witnessed_timedOut : Witnessed setting (.stop .timedOut) after := nofun

private theorem insert_mem (setting : Setting τ) (search : Search τ) (graph : Identified)
    (accepted : (search.insert setting graph).1 = true) :
    graph ∈ (search.insert setting graph).2.antichain.elements := by
  obtain ⟨accepts, alike⟩ := insert_eq setting search graph
  rw [accepts] at accepted
  rw [alike.antichain]
  cases inserted : search.antichain.insert setting.order graph with
  | mk insertion result =>
    rw [inserted] at accepted
    cases insertion with
    | rejected because => cases accepted
    | accepted gone =>
      change graph ∈ result.elements
      rw [(Antichain.insert_accepted inserted).2.1]
      exact List.mem_append_right _ List.mem_cons_self

theorem takeIn_witnessed (setting : Setting τ) (search : Search τ) (origin : Identified)
    (rule : RuleId) (found : Hypergraph) :
    Witnessed setting (search.takeIn setting origin rule found).1
      (search.takeIn setting origin rule found).2 := by
  have inside := insert_mem setting (search.identify found).2 (search.identify found).1
  rw [takeIn]
  simp only
  generalize (search.identify found).2.insert setting (search.identify found).1 = step at inside
  obtain ⟨accepted, inserted⟩ := step
  cases accepted with
  | false => exact witnessed_proceed
  | true =>
    simp only
    split
    next status covered =>
      intro id index stops
      cases stops
      obtain ⟨witness, only, same⟩ := covered?_firstAbove covered
      rw [List.mem_singleton.mp only] at same
      exact ⟨_, inside rfl, same⟩
    · exact witnessed_proceed

theorem takeInAll_witnessed (setting : Setting τ) (search : Search τ) (origin : Identified)
    (rule : RuleId) (answer : List Yield) :
    Witnessed setting (takeInAll setting origin rule answer search).1
      (takeInAll setting origin rule answer search).2 := by
  induction answer generalizing search with
  | nil => exact witnessed_proceed
  | cons first rest ih =>
    cases first with
    | skipped line => exact ih (search.note line)
    | graph found =>
      have first := takeIn_witnessed setting search origin rule found
      rw [takeInAll]
      generalize search.takeIn setting origin rule found = step at first
      obtain ⟨verdict, middle⟩ := step
      cases verdict with
      | stop status => exact first
      | fail fault => exact first
      | proceed =>
        simp only
        split
        · exact witnessed_timedOut
        · exact ih _

theorem expand_witnessed (setting : Setting τ) (search : Search τ)
    (graph : Identified) (rule : Rule) :
    Witnessed setting (search.expand setting graph rule).1 (search.expand setting graph rule).2 := by
  rw [expand]
  simp only
  split
  · exact takeInAll_witnessed setting _ graph rule.id _
  · exact witnessed_fail _

theorem expandAll_witnessed (setting : Setting τ) (search : Search τ) (graph : Identified)
    (rules : List (Except Fault Rule)) :
    Witnessed setting (expandAll setting graph rules search).1
      (expandAll setting graph rules search).2 := by
  induction rules generalizing search with
  | nil => exact witnessed_proceed
  | cons first rest ih =>
    cases first with
    | error fault => exact witnessed_fail fault
    | ok rule =>
      have first := expand_witnessed setting search graph rule
      rw [expandAll]
      generalize search.expand setting graph rule = step at first
      obtain ⟨verdict, middle⟩ := step
      cases verdict with
      | proceed => exact ih middle
      | stop status => exact first
      | fail fault => exact first

theorem expandRound_witnessed (setting : Setting τ) (prepared : Prepared)
    (waiting : List Identified) (search : Search τ) :
    Witnessed setting (expandRound setting prepared waiting search).1
      (expandRound setting prepared waiting search).2 := by
  induction waiting generalizing search with
  | nil => exact witnessed_proceed
  | cons graph rest ih =>
    rw [expandRound]
    split
    · have first := expandAll_witnessed setting search graph (prepared.rulesFor graph.graph)
      generalize expandAll setting graph (prepared.rulesFor graph.graph) search = step at first
      obtain ⟨verdict, middle⟩ := step
      cases verdict with
      | proceed => exact ih middle
      | stop status => exact first
      | fail fault => exact first
    · exact ih _

theorem runRounds_witnessed {prepared : Prepared} {allowed round last : Nat}
    {waiting : List Identified}
    (finished : runRounds setting prepared allowed round waiting search =
      some (.ok (.covered id index), last, after)) :
    round < last ∧
      ∃ witness ∈ after.antichain.elements, witness.id = id ∧
        setting.order.FirstAbove witness.graph setting.initial index := by
  induction allowed generalizing search waiting round with
  | zero => cases waiting <;> cases finished
  | succ allowed ih =>
    cases waiting with
    | nil => cases finished
    | cons graph rest =>
      have witnessed :=
        expandRound_witnessed setting prepared (graph :: rest)
          (search.started setting (round + 1) (graph :: rest))
      rw [runRounds_cons] at finished
      generalize expandRound setting prepared (graph :: rest)
        (search.started setting (round + 1) (graph :: rest)) = step
        at finished witnessed
      obtain ⟨verdict, middle⟩ := step
      cases verdict with
      | proceed =>
        obtain ⟨later, known⟩ := ih finished
        exact ⟨Nat.lt_of_succ_lt later, known⟩
      | stop status =>
        cases finished
        exact ⟨Nat.lt_succ_self round, witnessed id index rfl⟩
      | fail fault => cases finished

theorem takeInErrors_worklist (setting : Setting τ) (graphs : List Hypergraph)
    (worklist : List Identified) (search : Search τ) :
    (takeInErrors setting graphs worklist search).1 =
      (search.allocator.identifyAll graphs).reverse ++ worklist := by
  induction graphs generalizing worklist search with
  | nil => rfl
  | cons found rest ih =>
    have told :=
      alike_emit setting (search.identify found).2 (.errorGraph (search.identify found).1.ref)
    have inserted :=
      (insert_eq setting
        ((search.identify found).2.emit setting (.errorGraph (search.identify found).1.ref))
        (search.identify found).1).2
    have counted := inserted.allocator.trans told.allocator
    rw [takeInErrors]
    simp only
    rw [ih, counted, Allocator.identifyAll, List.reverse_cons, List.append_assoc]
    rfl

/-- The antichain stands for all error graphs, so one of them is in it that lies below the one
that is named. -/
theorem run_witnessed (lawful : setting.order.Lawful) {prepared : Prepared}
    {errorGraphs : List Hypergraph} {allowed last : Nat} (fresh : search.antichain = {})
    (finished : search.run setting prepared errorGraphs allowed =
      some (.ok (.covered id index), last, after)) :
    ∃ witness : Identified, witness.id = id ∧
      setting.order.FirstAbove witness.graph setting.initial index ∧
      (last ≠ 0 → witness ∈ after.antichain.elements) ∧
      (last = 0 → witness ∈ search.allocator.identifyAll errorGraphs ∧
        ∃ element ∈ after.antichain.elements,
        element ∈ search.allocator.identifyAll errorGraphs ∧
        setting.order.le element.graph witness.graph = true) := by
  have fit : ∀ graph ∈ errorGraphs, (fun _ => True) graph := fun _ _ => trivial
  obtain ⟨listed, _⟩ := takeInErrors_listed lawful fit search (listed_nil fresh)
  have worklist := takeInErrors_worklist setting errorGraphs [] search
  rw [List.append_nil] at worklist
  rw [run] at finished
  generalize takeInErrors setting errorGraphs [] search = step at finished listed worklist
  obtain ⟨waiting, taken⟩ := step
  have worklist : waiting = (search.allocator.identifyAll errorGraphs).reverse := worklist
  have listed : Listed setting (fun _ => True) errorGraphs waiting taken := listed
  subst worklist
  simp only [List.reverse_reverse] at finished
  cases covered : setting.covered? (search.allocator.identifyAll errorGraphs) with
  | some halt =>
    rw [covered] at finished
    cases finished
    obtain ⟨witness, member, same, first⟩ := covered?_firstAbove covered
    refine ⟨witness, same, first, absurd rfl, ?_⟩
    intro _
    have heard : witness.graph ∈ errorGraphs := by
      have mapped := List.mem_map_of_mem (f := Identified.graph) (List.mem_reverse.mpr member)
      rwa [listed.heard, List.mem_reverse] at mapped
    obtain ⟨element, inside, below⟩ :=
      (listed.sound.above_iff witness.graph trivial).mpr ⟨_, heard, lawful.refl trivial⟩
    exact ⟨member, element, inside, List.mem_reverse.mp (listed.kept element inside), below⟩
  | none =>
    rw [covered] at finished
    simp only at finished
    split at finished
    · cases finished
    · obtain ⟨later, witness, member, same, first⟩ := runRounds_witnessed finished
      refine ⟨witness, same, first, fun _ => member, ?_⟩
      intro none
      omega

end Search

namespace Analysis

variable {τ : Type} {analysis : Analysis τ} {clock : Nat → Nat} {allowed : Nat} {run : Run τ}
  {outcome : Outcome}

/-- The status names the first initial graph above a graph that was found. Once a round has begun
this graph is in the antichain that is returned. Before that it is an error graph, and an error
graph below it is in the antichain. -/
theorem perform_covered (lawful : analysis.order.Lawful)
    (performed : analysis.perform clock allowed = some run) (finished : run.result = .ok outcome)
    {id : GraphId} {index : Nat} (covered : outcome.status = .covered id index) :
    ∃ witness : Identified, witness.id = id ∧
      analysis.order.FirstAbove witness.graph analysis.system.initial index ∧
      (outcome.rounds ≠ 0 → witness ∈ outcome.antichain.elements) ∧
      (outcome.rounds = 0 → witness ∈ analysis.allocator.identifyAll analysis.errorGraphs ∧
        ∃ element ∈ outcome.antichain.elements,
          element ∈ analysis.allocator.identifyAll analysis.errorGraphs ∧
          analysis.order.le element.graph witness.graph = true) := by
  obtain ⟨lines, prepared, after, _, ran, concluded⟩ := perform_run performed finished
  rw [covered] at ran concluded
  rw [concluded]
  exact Search.run_witnessed lawful rfl ran

/-- A predecessor with two vertices is found, and an initial graph with three lies above it. -/
def coveredSearch : Analysis Unit where
  system := { initial := [.ofEdges 1 [], .ofEdges 3 []] }
  errorGraphs := [.ofEdges 4 []]
  order := Antichain.bySize
  preparer := fun _ _ => ([], .ok { rules := Table.insert ∅ "step" ⟨"step", "", {}, {}, ∅, ∅⟩ })
  source := .scripted [some [.ofEdges 5 [], .ofEdges 2 []]]
  sink := .null
  sinkState := ()
  config := {}

theorem coveredSearch_found :
    ∃ run outcome, coveredSearch.perform (fun _ => 0) 1 = some run ∧ run.result = .ok outcome ∧
    outcome.status = .covered ⟨2⟩ 1 ∧ ∃ witness ∈ outcome.antichain.elements,
      witness.id = ⟨2⟩ ∧
      coveredSearch.order.FirstAbove witness.graph coveredSearch.system.initial 1 := by
  have returned : coveredSearch.returns (fun _ => 0) 1 =
    some (.covered ⟨2⟩ 1, [⟨⟨2⟩, .ofEdges 2 []⟩]) := by decide +kernel
  obtain ⟨run, outcome, performed, finished, covered, _⟩ := perform_of_returns returned
  obtain ⟨witness, same, first, inside, errorGraph⟩ :=
    perform_covered Antichain.bySize_lawful performed finished covered
  refine ⟨run, outcome, performed, finished, covered, witness, inside ?_, same, first⟩
  intro none
  have only := List.mem_singleton.mp (errorGraph none).1
  rw [only] at same
  cases same

/-- The first error graph leaves the antichain for the second one, and an initial graph
lies above both. -/
def evictingSearch : Analysis Unit where
  system := { initial := [.ofEdges 3 []] }
  errorGraphs := [.ofEdges 2 [], .ofEdges 1 []]
  order := Antichain.bySize
  preparer := .validating 0
  source := .ofMatches {}
  sink := .null
  sinkState := ()
  config := {}

theorem evictingSearch_names_evicted :
    evictingSearch.order.Lawful ∧ ∃ run outcome, evictingSearch.perform (fun _ => 0) 1 = some run ∧
    run.result = .ok outcome ∧ outcome.status = .covered ⟨0⟩ 0 ∧
    ∀ element ∈ outcome.antichain.elements, element.id ≠ ⟨0⟩ := by
  have returned : evictingSearch.returns (fun _ => 0) 1 =
    some (.covered ⟨0⟩ 0, [⟨⟨1⟩, .ofEdges 1 []⟩]) := by decide +kernel
  obtain ⟨run, outcome, performed, finished, covered, elements⟩ := perform_of_returns returned
  refine ⟨Antichain.bySize_lawful, run, outcome, performed, finished, covered, ?_⟩
  rw [elements]
  decide +kernel

end Analysis

end Coverability
