import Coverability.Order.Kind
import Coverability.Proofs.Pairing

/-! Analyses side by side. With another sink an analysis returns the same, so sinks are a side
channel. Performed once more, an analysis returns and tells the same with larger identities,
whatever its source has not yielded yet. Both follow from the pairing of their searches. -/

namespace Coverability

namespace Sink

variable {σ : Type} {sink : Sink σ} {state : σ}

theorem receive_disabled (disabled : sink.isEnabled state = false) (events : List Event) :
    sink.receive state events = state := by
  induction events with
  | nil => rfl
  | cons event rest ih =>
    have unchanged : (sink.emit event state).2 = state := by rw [emit, disabled]; rfl
    rw [receive, List.foldl_cons, unchanged]
    exact ih

end Sink

namespace Identified

/-- What a graph is called when a search returns it. After convergence a graph without a name is
called after its identity. -/
def title (status : Status) (identified : Identified) : String :=
  if status = .converged ∧ identified.graph.name = "" then s!"graph_{identified.id.number}"
  else identified.graph.name

def titled (status : Status) (identified : Identified) : Identified :=
  ⟨identified.id, { identified.graph with name := identified.title status }⟩

theorem withDefaultName_eq (identified : Identified) :
    identified.withDefaultName = identified.titled .converged := by
  have name : identified.defaultName = identified.title .converged := by
    simp only [defaultName, title, String.isEmpty_iff, true_and]
  rw [withDefaultName, name]
  rfl

theorem map_titled_partial {status : Status} (stopped : status ≠ .converged)
    (found : List Identified) :
    found.map (titled status) = found := by
  refine (List.map_congr_left fun identified _ => ?_).trans (List.map_id found)
  rw [titled, title, if_neg fun both => stopped both.1]
  rfl

theorem titled_raise (status : Status) (offset : Nat) :
    titled (status.raise offset) = titled status := by
  cases status <;> rfl

/-- The identity and the name of a graph. -/
def label (identified : Identified) : GraphId × String := (identified.id, identified.graph.name)

private theorem label_titled (found : List Identified) : (found.map (titled .converged)).map label =
    (found.map label).map fun (id, name) =>
      (id, if name = "" then s!"graph_{id.number}" else name) := by
  rw [List.map_map, List.map_map]
  refine List.map_congr_left fun element _ => ?_
  by_cases unnamed : element.graph.name = "" <;> simp [titled, title, label, unnamed]

private theorem label_raise (offset : Nat) (found : List Identified) :
    (found.map (raise offset)).map label =
    (found.map label).map fun (id, name) => (id.raise offset, name) := by
  simp [raise, label]

end Identified

namespace Antichain

variable {chain : Antichain}

theorem Indexed.raise (indexed : chain.Indexed) (offset : Nat) : (chain.raise offset).Indexed := by
  have ids : (chain.raise offset).elements.map Identified.id =
      (chain.elements.map Identified.id).map (Id.raise offset) := by
    rw [Antichain.raise, List.map_map, List.map_map]
    rfl
  refine ⟨?_, indexed.members_distinct.map (Id.raise_injective offset), fun id => ?_⟩
  · rw [ids]
    exact indexed.distinct.map (Id.raise_injective offset)
  · rw [ids, Antichain.raise, List.mem_map, List.mem_map]
    simp only [indexed.members_iff]

/-- The graphs are returned under their titles, whatever the search has come to. -/
theorem concluded_elements (indexed : chain.Indexed) (status : Status) :
    (chain.concluded status).elements = chain.elements.map (Identified.titled status) := by
  cases status with
  | converged =>
    rw [concluded, assignDefaultNames_elements indexed.distinct]
    exact List.map_congr_left fun element _ => element.withDefaultName_eq
  | covered graph initial =>
    have stopped : Status.covered graph initial ≠ .converged := nofun
    exact (Identified.map_titled_partial stopped chain.elements).symm
  | timedOut =>
    have stopped : Status.timedOut ≠ .converged := nofun
    exact (Identified.map_titled_partial stopped chain.elements).symm

end Antichain

namespace Analysis

variable {τ υ : Type}

/-- Two analyses that differ only in their sinks, in what is left in their sources, and in how many
identities have been issued, and for which time is up at the same look at the clock. -/
structure Related (first : Analysis τ) (clock : Nat → Nat) (second : Analysis υ)
    (other : Nat → Nat) (offset : Nat) (alike : Source → Source → Prop) : Prop where
  system : second.system = first.system
  errorGraphs : second.errorGraphs = first.errorGraphs
  order : second.order = first.order
  preparer : second.preparer = first.preparer
  checkInitial : second.config.checkInitial = first.config.checkInitial
  timing : ∀ looks, (second.config.timer.start 0).outOfTime (other looks) =
    (first.config.timer.start 0).outOfTime (clock looks)
  issued : second.allocator.issued = first.allocator.issued + offset
  source : alike first.source second.source
  answers : ∀ {one two}, alike one two → ∀ rule graph,
    (two.reset rule graph).2.1 = (one.reset rule graph).2.1 ∧
    alike (one.reset rule graph).2.2 (two.reset rule graph).2.2

variable {first : Analysis τ} {clock : Nat → Nat} {second : Analysis υ}
  {other : Nat → Nat} {offset : Nat} {alike : Source → Source → Prop}

def Related.pairing (related : Related first clock second other offset alike) : Pairing τ υ where
  first := first.setting clock
  second := second.setting other
  sinks := (first.sinkState, second.sinkState)
  start := first.allocator.issued
  offset := offset
  alike := alike
  order := related.order
  initial := congrArg TransformationSystem.initial related.system
  checkInitial := related.checkInitial
  timing := related.timing
  answers := related.answers

/-- The same fault, or the same outcome with raised identities. The outcome is what the first search
has found, with the graphs named after their own identities. -/
inductive SameResult (offset : Nat) (found : Option (List Identified)) :
    Except Fault Outcome → Except Fault Outcome → Prop
  | error (fault : Fault) : SameResult offset found (.error fault) (.error fault)
  | ok (status : Status) (rounds : Nat) {chain : Antichain} (indexed : chain.Indexed)
    (left : found = some chain.elements) :
    SameResult offset found (.ok ⟨status, chain.concluded status, rounds⟩)
      (.ok ⟨status.raise offset, (chain.raise offset).concluded (status.raise offset), rounds⟩)

theorem SameResult.eq {found : Option (List Identified)} {one two : Except Fault Outcome}
    (same : SameResult 0 found one two) : two = one := by
  cases same with
  | error fault => rfl
  | ok status rounds indexed =>
    rw [status.raise_zero, Antichain.raise_zero]

/-- The second run has come to the same as the first one, and both have told the same. -/
structure Alongside (first : Analysis τ) (clock : Nat → Nat) (allowed : Nat)
    (second : Analysis υ) (offset : Nat) (alike : Source → Source → Prop) (one : Run τ)
    (two : Run υ) : Prop where
  result : SameResult offset (first.findings clock allowed) one.result two.result
  source : alike one.analysis.source two.analysis.source
  started : first.allocator.issued ≤ one.analysis.allocator.issued
  issued : two.analysis.allocator.issued = one.analysis.allocator.issued + offset
  told : ∃ events, one.analysis.sinkState = first.sink.receive first.sinkState events ∧
    two.analysis.sinkState = second.sink.receive second.sinkState (events.map (Event.raise offset)) ∧
    ∀ event ∈ events,
      ∀ id ∈ event.ids, id.Between first.allocator.issued one.analysis.allocator.issued

private theorem opening_beside (related : Related first clock second other offset alike)
    (lines : List Line) (prepared : Prepared) :
    Search.Beside related.pairing [] (first.opening clock lines prepared)
      (second.opening other lines prepared) := by
  have blank : Search.Beside related.pairing []
      (Search.noteAll ⟨first.allocator, first.source, first.sinkState, #[], 0, {}, []⟩ lines)
      (Search.noteAll ⟨second.allocator, second.source, second.sinkState, #[], 0, {}, []⟩ lines) :=
    ⟨Nat.le_refl _, related.issued, related.source, rfl, rfl, rfl, nofun, [], rfl, rfl, nofun⟩
  exact (blank.emit (.prepared prepared.name prepared.rules.size prepared.quantifiedRules.size)
    nofun).note _ _

private theorem run_indexed {analysis : Analysis τ} {lines : List Line} {prepared : Prepared}
    {allowed last : Nat} {status : Status} {after : Search τ}
    (ran : (analysis.opening clock lines prepared).run (analysis.setting clock) prepared
      analysis.errorGraphs allowed =
      some (.ok status, last, after)) : after.antichain.Indexed := by
  obtain ⟨_, _, _, _, _, tells⟩ := Search.run_tells rfl ran
  have blank : Search.Faithful analysis.order analysis.allocator.issued [] [] []
      (analysis.opening clock lines prepared) :=
    ⟨rfl, Antichain.holds_empty, nofun, nofun, nofun, nofun⟩
  exact (tells.faithful blank).holds.indexed

private theorem closing_alongside (related : Related first clock second other offset alike)
    {lines : List Line} {prepared : Prepared} {allowed : Nat}
    (ready : first.preparer first.system first.order = (lines, .ok prepared))
    {ending : Except Fault Status × Nat × Search τ} {endingTwo : Except Fault Status × Nat × Search υ}
    (ran : (first.opening clock lines prepared).run (first.setting clock) prepared first.errorGraphs
      allowed = some ending) (ended : Search.Ends related.pairing ending endingTwo) :
    Alongside first clock allowed second offset alike (first.closing clock ending)
      (second.closing other endingTwo) := by
  obtain ⟨answer, last, after⟩ := ending
  obtain ⟨_, _, afterTwo⟩ := endingTwo
  obtain ⟨sameAnswer, sameRounds, known, beside⟩ := ended
  cases sameAnswer
  cases sameRounds
  cases answer with
  | error fault => exact ⟨.error fault, beside.source, beside.started, beside.issued, beside.told⟩
  | ok status =>
    have told := beside.of_tellings
      (Search.telling_conclude (first.setting clock) after status last)
      (Search.telling_conclude (second.setting other) afterTwo (status.raise offset) last)
      (List.forall_mem_singleton.mpr (known status rfl))
    have antichain : afterTwo.antichain = after.antichain.raise offset := beside.antichain
    have result : SameResult offset (first.findings clock allowed)
        (.ok ⟨status, (after.conclude (first.setting clock) status last).antichain, last⟩)
        (.ok ⟨status.raise offset,
          (afterTwo.conclude (second.setting other) (status.raise offset) last).antichain, last⟩) := by
      rw [Search.antichain_conclude, Search.antichain_conclude, antichain]
      exact .ok status last (run_indexed ran) (findings_prepared ready ran)
    exact ⟨result, told.source, told.started, told.issued, told.told⟩

theorem perform_alongside (related : Related first clock second other offset alike) (allowed : Nat) :
    Option.Rel (Alongside first clock allowed second offset alike) (first.perform clock allowed)
      (second.perform other allowed) := by
  have prepares : second.preparer second.system second.order =
      first.preparer first.system first.order := by
    rw [related.preparer, related.system, related.order]
  cases ready : first.preparer first.system first.order with
  | mk lines result =>
    rw [ready] at prepares
    cases result with
    | error fault =>
      rw [perform_unprepared ready, perform_unprepared prepares]
      exact .some ⟨.error fault, related.source, Nat.le_refl _, related.issued, [], rfl, rfl, nofun⟩
    | ok prepared =>
      have ends :=
        Search.run_ends prepared first.errorGraphs allowed (opening_beside related lines prepared)
      change Option.Rel _
        ((first.opening clock lines prepared).run (first.setting clock) prepared
          first.errorGraphs allowed)
        ((second.opening other lines prepared).run (second.setting other) prepared
          first.errorGraphs allowed) at ends
      rw [perform_prepared ready, perform_prepared prepares, related.errorGraphs]
      generalize ran : (first.opening clock lines prepared).run (first.setting clock) prepared
        first.errorGraphs allowed = one at ends ⊢
      generalize (second.opening other lines prepared).run (second.setting other) prepared
        first.errorGraphs allowed = two at ends ⊢
      cases ends with
      | none => exact .none
      | some ended => exact .some (closing_alongside related ready ran ended)

/-- The analysis with another sink. -/
def withSink (analysis : Analysis τ) (sink : Sink υ) (state : υ) : Analysis υ :=
  { analysis with sink := sink, sinkState := state }

private theorem withSink_related (analysis : Analysis τ) (sink : Sink υ) (state : υ)
    (clock : Nat → Nat) :
    Related analysis clock (analysis.withSink sink state) clock 0 Eq where
  system := rfl
  errorGraphs := rfl
  order := rfl
  preparer := rfl
  checkInitial := rfl
  timing _ := rfl
  issued := rfl
  source := rfl
  answers same rule graph := by
    cases same
    exact ⟨rfl, rfl⟩

/-- Whatever the parts of an analysis do, its sink is a side channel. With another sink the result
is the same, graph by graph and name by name, and the other sink is given the same events. A sink
that is disabled receives none of them. -/
theorem perform_withSink (analysis : Analysis τ) (sink : Sink υ) (state : υ) (clock : Nat → Nat)
    (allowed : Nat) :
    ((analysis.withSink sink state).perform clock allowed).map Run.result =
      (analysis.perform clock allowed).map Run.result ∧
      ∀ run other, analysis.perform clock allowed = some run →
        (analysis.withSink sink state).perform clock allowed = some other →
        (∃ events, run.analysis.sinkState = analysis.sink.receive analysis.sinkState events ∧
          other.analysis.sinkState = sink.receive state events) ∧
        (sink.isEnabled state = false → other.analysis.sinkState = state) := by
  have alongside := perform_alongside (withSink_related analysis sink state clock) allowed
  generalize analysis.perform clock allowed = one at alongside ⊢
  generalize (analysis.withSink sink state).perform clock allowed = two at alongside ⊢
  cases alongside with
  | none => exact ⟨rfl, fun _ _ performed => nomatch performed⟩
  | @some run other alongside =>
    refine ⟨congrArg some alongside.result.eq, fun _ _ same sameOther => ?_⟩
    cases same
    cases sameOther
    obtain ⟨events, toldFirst, toldSecond, _⟩ := alongside.told
    have unraised : events.map (Event.raise 0) = events :=
      (List.map_congr_left fun event _ => event.raise_zero).trans (List.map_id events)
    rw [unraised] at toldSecond
    refine ⟨⟨events, toldFirst, toldSecond⟩, fun disabled => ?_⟩
    rw [toldSecond]
    exact Sink.receive_disabled disabled events

theorem loggedSearch_withSink : ∃ run other, loggedSearch.perform (fun _ => 0) 3 = some run ∧
    (loggedSearch.withSink .muted 7).perform (fun _ => 0) 3 = some other ∧ other.result = run.result ∧
    run.analysis.sinkState.events.size = 13 ∧ other.analysis.sinkState = 7 := by
  have told : (loggedSearch.perform (fun _ => 0) 3).map
    (fun run => run.analysis.sinkState.events.size) = some 13 := by decide +kernel
  obtain ⟨run, performed, size⟩ := Option.map_eq_some_iff.mp told
  obtain ⟨same, silent⟩ := perform_withSink loggedSearch .muted 7 (fun _ => 0) 3
  rw [performed, Option.map_some, Option.map_eq_some_iff] at same
  obtain ⟨other, performedOther, result⟩ := same
  exact ⟨run, other, performed, performedOther, result, size,
    (silent run other performed performedOther).2 rfl⟩

variable {analysis : Analysis τ} {allowed : Nat} {run : Run τ} {outcome : Outcome} {contract : Bool}

/-- What a later run returns and tells if it does what an earlier one did. All identities are larger by a
count, those that graphs are called after as well, and no identity occurs in the events of both runs. -/
structure Repeats (analysis : Analysis τ) (clock : Nat → Nat) (allowed : Nat) (run : Run τ)
    (outcome : Outcome) (count : Nat) (again : Run τ) : Prop where
  returned : ∃ found later, analysis.findings clock allowed = some found ∧ again.result = .ok later ∧
    later.rounds = outcome.rounds ∧ later.status = outcome.status.raise count ∧
    later.antichain.members = outcome.antichain.members.map (Id.raise count) ∧
    outcome.antichain.elements = found.map (Identified.titled outcome.status) ∧
    later.antichain.elements = (found.map (Identified.raise count)).map
      (Identified.titled outcome.status)
  told : ∃ events, run.analysis.sinkState = analysis.sink.receive analysis.sinkState events ∧
    again.analysis.sinkState = analysis.sink.receive run.analysis.sinkState
      (events.map (Event.raise count)) ∧
    ∀ event ∈ events, ∀ later ∈ events.map (Event.raise count), ∀ id ∈ event.ids, id ∉ later.ids
  issued : again.analysis.allocator.issued = run.analysis.allocator.issued + count

/-- A run changes nothing of an analysis but the source, the sink, and how many identities have been
issued. -/
theorem perform_analysis (performed : analysis.perform clock allowed = some run) :
    run.analysis = { analysis with
      source := run.analysis.source
      sinkState := run.analysis.sinkState
      allocator := run.analysis.allocator } := by
  cases ready : analysis.preparer analysis.system analysis.order with
  | mk lines result =>
    cases result with
    | error fault =>
      rw [perform_unprepared ready] at performed
      cases performed
      rfl
    | ok prepared =>
      rw [perform_prepared ready] at performed
      obtain ⟨ending, _, rfl⟩ := Option.map_eq_some_iff.mp performed
      obtain ⟨answer, rounds, after⟩ := ending
      cases answer <;> rfl

private theorem matching_answers {one two : Source}
    (matching : one.Matching contract ∧ two.Matching contract) (rule : Rule) (graph : Hypergraph) :
    (two.reset rule graph).2.1 = (one.reset rule graph).2.1 ∧
      (one.reset rule graph).2.2.Matching contract ∧
      (two.reset rule graph).2.2.Matching contract := by
  obtain ⟨answer, kept⟩ := matching.1.reset rule graph
  obtain ⟨answerTwo, keptTwo⟩ := matching.2.reset rule graph
  exact ⟨answerTwo.trans answer.symm, kept, keptTwo⟩

private theorem again_related (untimed : analysis.config.timeout = 0)
    (source : analysis.source.Matching contract)
    (performed : analysis.perform clock allowed = some run) {count : Nat}
    (issued : run.analysis.allocator.issued = analysis.allocator.issued + count) {left : Source}
    (matching : left.Matching contract) (other : Nat → Nat) :
    Related analysis clock { run.analysis with source := left } other count
      fun one two => one.Matching contract ∧ two.Matching contract := by
  have unlimited : analysis.config.timer = .ofMillis 0 := congrArg Timer.ofMillis untimed
  rw [perform_analysis performed] at issued ⊢
  refine ⟨rfl, rfl, rfl, rfl, rfl, fun looks => ?_, issued, ⟨source, matching⟩, matching_answers⟩
  rw [unlimited]
  rfl

private theorem Alongside.repeats {again : Run τ} {resumed : Analysis τ} {count : Nat}
    {alike : Source → Source → Prop}
    (alongside : Alongside analysis clock allowed resumed count alike run again)
    (sink : resumed.sink = analysis.sink) (state : resumed.sinkState = run.analysis.sinkState)
    (issued : run.analysis.allocator.issued = analysis.allocator.issued + count)
    (finished : run.result = .ok outcome) :
    Repeats analysis clock allowed run outcome count again where
  returned := by
    obtain ⟨result, _, _, _, _⟩ := alongside
    rw [finished] at result
    generalize again.result = answer at result
    cases result with
    | @ok status rounds chain indexed left =>
      have members (status : Status) (chain : Antichain) :
          (chain.concluded status).members = chain.members := by cases status <;> rfl
      refine ⟨chain.elements, _, left, rfl, rfl, rfl, ?_,
        Antichain.concluded_elements indexed status, ?_⟩
      · rw [members, members]
        rfl
      · rw [Antichain.concluded_elements (indexed.raise count), Identified.titled_raise]
        rfl
  told := by
    obtain ⟨events, toldFirst, toldSecond, known⟩ := alongside.told
    rw [sink, state] at toldSecond
    refine ⟨events, toldFirst, toldSecond, fun event member later raised id mentioned again => ?_⟩
    obtain ⟨earlier, inside, rfl⟩ := List.mem_map.mp raised
    rw [Event.ids_raise] at again
    obtain ⟨before, mentionedBefore, rfl⟩ := List.mem_map.mp again
    have below : before.number + count < run.analysis.allocator.issued :=
      (known event member _ mentioned).2
    have above : analysis.allocator.issued ≤ before.number :=
      (known earlier inside before mentionedBefore).1
    omega
  issued := alongside.issued

/-- An analysis can be performed again. If there is no time limit and its source yields the
complements of matches, then the next run does what this one did. It does so whatever the source has
left to yield, in case this run has stopped early. -/
theorem perform_again (untimed : analysis.config.timeout = 0)
    (source : analysis.source.Matching contract)
    (performed : analysis.perform clock allowed = some run) (finished : run.result = .ok outcome) :
    ∃ count, run.analysis.allocator.issued = analysis.allocator.issued + count ∧ ∀ other,
      (∃ again, run.analysis.perform other allowed = some again ∧
        Repeats analysis clock allowed run outcome count again) ∧
      ∀ left : Source, left.Matching contract → ∃ again,
        { run.analysis with source := left }.perform other allowed = some again ∧
        Repeats analysis clock allowed run outcome count again := by
  have self : Related analysis clock analysis clock 0 fun one two => one.Matching contract ∧
      two.Matching contract :=
    ⟨rfl, rfl, rfl, rfl, rfl, fun _ => rfl, rfl, ⟨source, source⟩, matching_answers⟩
  have alongside := perform_alongside self allowed
  rw [performed] at alongside
  obtain @⟨_, _, kept⟩ := alongside
  obtain ⟨count, issued⟩ := Nat.exists_eq_add_of_le kept.started
  have repeats (other : Nat → Nat) (left : Source) (matching : left.Matching contract) : ∃ again,
      { run.analysis with source := left }.perform other allowed = some again ∧
      Repeats analysis clock allowed run outcome count again := by
    have alongside :=
      perform_alongside (again_related untimed source performed issued matching other) allowed
    rw [performed] at alongside
    generalize Analysis.perform { run.analysis with source := left } other allowed =
      result at alongside ⊢
    obtain @⟨_, again, alongside⟩ := alongside
    have sink : run.analysis.sink = analysis.sink := by rw [perform_analysis performed]
    exact ⟨again, rfl, alongside.repeats sink rfl issued finished⟩
  exact ⟨count, issued, fun other => ⟨repeats other run.analysis.source kept.source.1, repeats other⟩⟩

/-- An initial graph lies above a predecessor, and the search stops while there are matches left. -/
def stoppedSearch : Analysis EventLog where
  system := {
    initial := [.ofEdges 2 []]
    rules := Table.insert ∅ "grow" ⟨"grow", "", .ofEdges 1 [], .ofEdges 2 [],
      Table.insert ∅ ⟨0⟩ ⟨0⟩, ∅⟩ }
  errorGraphs := [.ofEdges 3 []]
  order := Antichain.bySize
  preparer := .validating 0
  source := .ofMatches {}
  sink := .log
  sinkState := {}
  config := {}

/-- Three graphs are left, of which one has a name. -/
def relabelledSearch : Analysis EventLog where
  system := {
    rules := Table.insert ∅ "relabel"
      ⟨"relabel", "", .ofEdges 1 [("C", [0])], .ofEdges 1 [("A", [0])], Table.insert ∅ ⟨0⟩ ⟨0⟩, ∅⟩ }
  errorGraphs := [.ofEdges 1 [("A", [0])], { Hypergraph.ofEdges 1 [("B", [0])] with name := "goal" }]
  order := .subgraph
  preparer := .validating 0
  source := .ofMatches {}
  sink := .log
  sinkState := {}
  config := {}

private theorem perform_counted {status : Status} {count : Nat}
    (ended : (analysis.returns clock allowed).map Prod.fst = some status)
    (counted : (analysis.perform clock allowed).map (fun run => run.analysis.allocator.issued) =
      some count) :
    ∃ run outcome, analysis.perform clock allowed = some run ∧ run.result = .ok outcome ∧
      outcome.status = status ∧ run.analysis.allocator.issued = count := by
  obtain ⟨⟨reached, elements⟩, returned, rfl⟩ := Option.map_eq_some_iff.mp ended
  obtain ⟨run, outcome, performed, finished, same, _⟩ := perform_of_returns returned
  rw [performed] at counted
  exact ⟨run, outcome, performed, finished, same, Option.some.inj counted⟩

/-- In the next run a graph without a name is called after its new identity. -/
theorem stoppedSearch_again :
    ((stoppedSearch.inquiries (fun _ => 0) 3).flatten.map (fun inquiry =>
        (inquiry.heard.length, inquiry.answer.length)) = [(4, 9)] ∧
      ∃ run outcome again, stoppedSearch.perform (fun _ => 0) 3 = some run ∧
        run.result = .ok outcome ∧ outcome.status = .covered ⟨4⟩ 0 ∧
        run.analysis.perform (fun _ => 7) 3 = some again ∧
        Repeats stoppedSearch (fun _ => 0) 3 run outcome 5 again) ∧
    ∃ run outcome again later, relabelledSearch.perform (fun _ => 0) 4 = some run ∧
      run.result = .ok outcome ∧ outcome.status = .converged ∧
      run.analysis.perform (fun _ => 7) 4 = some again ∧ again.result = .ok later ∧
      outcome.antichain.elements.map Identified.label =
        [(⟨0⟩, "graph_0"), (⟨1⟩, "goal"), (⟨2⟩, "graph_2")] ∧
      later.antichain.elements.map Identified.label =
        [(⟨3⟩, "graph_3"), (⟨4⟩, "goal"), (⟨5⟩, "graph_5")] ∧
      Repeats relabelledSearch (fun _ => 0) 4 run outcome 3 again := by
  constructor
  · have stopped : (stoppedSearch.returns (fun _ => 0) 3).map Prod.fst = some (.covered ⟨4⟩ 0) := by
      decide +kernel
    have counted : (stoppedSearch.perform (fun _ => 0) 3).map
        (fun run => run.analysis.allocator.issued) = some 5 := by
      decide +kernel
    obtain ⟨run, outcome, performed, finished, covered, issued⟩ := perform_counted stopped counted
    obtain ⟨count, more, later⟩ := perform_again rfl ⟨{}, rfl, rfl⟩ performed finished
    obtain rfl : count = 5 := (Nat.zero_add count).symm.trans (more.symm.trans issued)
    obtain ⟨⟨again, performedAgain, repeats⟩, _⟩ := later fun _ => 7
    exact ⟨by decide +kernel, run, outcome, again, performed, finished, covered,
      performedAgain, repeats⟩
  · have converges : (relabelledSearch.returns (fun _ => 0) 4).map Prod.fst = some .converged := by
      decide +kernel
    have counted : (relabelledSearch.perform (fun _ => 0) 4).map
        (fun run => run.analysis.allocator.issued) = some 3 := by
      decide +kernel
    have left : (relabelledSearch.findings (fun _ => 0) 4).map (List.map Identified.label) =
        some [(⟨0⟩, ""), (⟨1⟩, "goal"), (⟨2⟩, "")] := by decide +kernel
    obtain ⟨run, outcome, performed, finished, converged, issued⟩ := perform_counted converges counted
    obtain ⟨count, more, later⟩ := perform_again rfl ⟨{}, rfl, rfl⟩ performed finished
    obtain rfl : count = 3 := (Nat.zero_add count).symm.trans (more.symm.trans issued)
    obtain ⟨⟨again, performedAgain, repeats⟩, _⟩ := later fun _ => 7
    obtain ⟨found, second, findings, finishedAgain, _, _, _, elements, elementsAgain⟩ :=
      repeats.returned
    rw [findings] at left
    have labels : found.map Identified.label = [(⟨0⟩, ""), (⟨1⟩, "goal"), (⟨2⟩, "")] :=
      Option.some.inj left
    rw [converged] at elements elementsAgain
    refine ⟨run, outcome, again, second, performed, finished, converged, performedAgain,
      finishedAgain, ?_, ?_, repeats⟩
    · rw [elements, Identified.label_titled, labels]
      decide +kernel
    · rw [elementsAgain, Identified.label_titled, Identified.label_raise, labels]
      decide +kernel

end Analysis

end Coverability
