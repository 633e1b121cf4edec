import Coverability.Proofs.Transcript

/-! Replaying a search from its events. One invariant relates what has been told to the antichain
and to the graphs that wait, and every step keeps it, with the events that the step tells. The
events of a whole search come in the order of its phases: the preparation, the error graphs, the
rounds, and the end. -/

namespace Coverability

namespace Sink

variable {σ : Type} {sink : Sink σ} {state : σ} {events more : List Event}

/-- The sink after it has been given some events. -/
def receive (sink : Sink σ) (state : σ) (events : List Event) : σ :=
  events.foldl (fun state event => (sink.emit event state).2) state

theorem receive_append :
    sink.receive state (events ++ more) = sink.receive (sink.receive state events) more :=
  List.foldl_append

theorem receive_enabled (enabled : ∀ state, sink.isEnabled state = true) :
    sink.receive state events = events.foldl (fun state event => sink.record event state) state := by
  rw [receive]
  congr 1
  funext state event
  rw [emit, if_pos (enabled state)]

theorem receive_log (log : EventLog) :
    events.foldl (fun log event => Sink.log.record event log) log =
      ⟨log.events ++ events.toArray⟩ := by
  induction events generalizing log with
  | nil => simp
  | cons event rest ih =>
    rw [List.foldl_cons, ih]
    simp [Sink.log, EventLog.record]

end Sink

namespace Allocator

variable {allocator : Allocator} {graphs more : List Hypergraph} {graph : Identified}

theorem identifyAll_append :
    allocator.identifyAll (graphs ++ more) =
      allocator.identifyAll graphs ++ identifyAll ⟨allocator.issued + graphs.length⟩ more := by
  induction graphs generalizing allocator with
  | nil => rfl
  | cons first rest ih =>
    have later : allocator.issued + 1 + rest.length = allocator.issued + (rest.length + 1) := by omega
    rw [List.cons_append, identifyAll, identifyAll, ih, List.cons_append, List.length_cons]
    change _ :: (_ ++ identifyAll ⟨allocator.issued + 1 + rest.length⟩ more) = _
    rw [later]

theorem length_identifyAll : (allocator.identifyAll graphs).length = graphs.length := by
  induction graphs generalizing allocator with
  | nil => rfl
  | cons first rest ih => exact congrArg Nat.succ ih

theorem number_lt_of_mem (member : graph ∈ allocator.identifyAll graphs) :
    graph.id.number < allocator.issued + graphs.length := by
  induction graphs generalizing allocator with
  | nil => cases member
  | cons first rest ih =>
    rw [List.length_cons]
    rcases List.mem_cons.mp member with rfl | later
    · change allocator.issued < _
      omega
    · have below : graph.id.number < allocator.issued + 1 + rest.length := ih later
      omega

end Allocator

namespace Search
open Transcript

variable {τ : Type} {setting : Setting τ} {order : Order} {start : Nat}
  {waiting later : List Identified} {told : List Event} {heard : List Hypergraph}
  {search after : Search τ}

/-- What has been told since the search began agrees with what it holds. -/
structure Faithful (order : Order) (start : Nat) (waiting : List Identified) (told : List Event)
    (heard : List Hypergraph) (search : Search τ) : Prop where
  issued : search.allocator.issued = start + heard.length
  holds : search.antichain.Holds (entered told) (left told)
  known : ∀ element ∈ search.antichain.elements, element ∈ Allocator.identifyAll ⟨start⟩ heard
  truthful : ∀ event ∈ told, event.Truthful order (Allocator.identifyAll ⟨start⟩ heard)
  skipped : SkipsDeleted told
  waiting : ∀ graph ∈ waiting ++ search.next, graph ∈ Allocator.identifyAll ⟨start⟩ heard ∧
    graph.id ∈ entered told

namespace Faithful

theorem of_same (faithful : Faithful order start waiting told heard search)
    (allocator : after.allocator = search.allocator)
    (antichain : after.antichain = search.antichain)
    (fewer : ∀ graph ∈ later ++ after.next, graph ∈ waiting ++ search.next) :
    Faithful order start later told heard after where
  issued := by rw [allocator, faithful.issued]
  holds := antichain ▸ faithful.holds
  known := antichain ▸ faithful.known
  truthful := faithful.truthful
  skipped := faithful.skipped
  waiting graph member := faithful.waiting graph (fewer graph member)

/-- An event that leaves the antichain as it is. -/
theorem concat (faithful : Faithful order start waiting told heard search) (event : Event)
    (enters : event.entering? = none) (leaves : event.leaving? = none)
    (truthful : event.Truthful order (Allocator.identifyAll ⟨start⟩ heard))
    (skips : ∀ graph, event = .skipped graph → graph.id ∈ left told) :
    Faithful order start waiting (told ++ [event]) heard search := by
  have sameEntered : entered (told ++ [event]) = entered told := by simp [entered, enters]
  have sameLeft : left (told ++ [event]) = left told := by simp [left, leaves]
  refine ⟨faithful.issued, ?_, faithful.known, ?_, ?_, ?_⟩
  · rw [sameEntered, sameLeft]
    exact faithful.holds
  · intro other member
    rcases List.mem_append.mp member with old | new
    · exact faithful.truthful other old
    · rw [List.mem_singleton.mp new]
      exact truthful
  · apply faithful.skipped.append
    intro index graph found
    have same := List.mem_singleton.mp (List.mem_of_getElem? found)
    exact List.mem_append_left _ (skips graph same.symm)
  · rw [sameEntered]
    exact faithful.waiting

/-- An event that says nothing of any graph. -/
theorem concat_plain (faithful : Faithful order start waiting told heard search) (event : Event)
    (enters : event.entering? = none) (leaves : event.leaving? = none)
    (truthful : event.Truthful order (Allocator.identifyAll ⟨start⟩ heard))
    (plain : event.isStep = false) : Faithful order start waiting (told ++ [event]) heard search := by
  apply faithful.concat event enters leaves truthful
  intro graph same
  rw [same] at plain
  cases plain

theorem fresh (faithful : Faithful order start waiting told heard search) :
    (⟨search.allocator.issued⟩ : GraphId) ∉ entered told ∧
    (⟨search.allocator.issued⟩ : GraphId) ∉ left told := by
  have absent {one : Identified} (member : one ∈ Allocator.identifyAll ⟨start⟩ heard) : one.id ≠
      ⟨search.allocator.issued⟩ := by
    intro same
    have below := Allocator.number_lt_of_mem member
    rw [same, faithful.issued] at below
    exact Nat.lt_irrefl _ below
  constructor
  · intro member
    obtain ⟨event, inside, enters⟩ := List.mem_filterMap.mp member
    obtain ⟨one, known, same⟩ := (faithful.truthful event inside).entering_known enters
    exact absent known same
  · intro member
    obtain ⟨event, inside, leaves⟩ := List.mem_filterMap.mp member
    obtain ⟨one, known, same⟩ := (faithful.truthful event inside).leaving_known leaves
    exact absent known same

variable {found : Hypergraph}

theorem identified (faithful : Faithful order start waiting told heard search) :
    Allocator.identifyAll ⟨start⟩ (heard ++ [found]) =
      Allocator.identifyAll ⟨start⟩ heard ++ [(search.identify found).1] := by
  have self : (search.identify found).1 = ⟨⟨start + heard.length⟩, found⟩ := by
    rw [← faithful.issued]; rfl
  rw [Allocator.identifyAll_append, self]
  rfl

/-- A new graph has been heard, and some events tell what has become of it. -/
theorem extend (faithful : Faithful order start waiting told heard search) {events : List Event}
    (issued : after.allocator.issued = search.allocator.issued + 1)
    (holds : after.antichain.Holds (entered (told ++ events)) (left (told ++ events)))
    (known : ∀ element ∈ after.antichain.elements, element ∈ search.antichain.elements ∨
      element = (search.identify found).1)
    (truthful : ∀ event ∈ events,
      event.Truthful order (Allocator.identifyAll ⟨start⟩ (heard ++ [found])))
    (plain : ∀ event ∈ events, ∀ graph, event ≠ .skipped graph)
    (waits : ∀ graph ∈ later ++ after.next, graph ∈ waiting ++ search.next ∨
      graph = (search.identify found).1 ∧ graph.id ∈ entered (told ++ events)) :
    Faithful order start later (told ++ events) (heard ++ [found]) after := by
  have grown : Allocator.identifyAll ⟨start⟩ heard ⊆
      Allocator.identifyAll ⟨start⟩ (heard ++ [found]) := by
    rw [faithful.identified]
    exact List.subset_append_left _ _
  have self : (search.identify found).1 ∈ Allocator.identifyAll ⟨start⟩ (heard ++ [found]) := by
    rw [faithful.identified]
    exact List.mem_append_right _ List.mem_cons_self
  refine ⟨?_, holds, ?_, ?_, faithful.skipped.append_of_ne plain, ?_⟩
  · rw [issued, faithful.issued, List.length_append]
    rfl
  · intro element member
    rcases known element member with old | rfl
    · exact grown (faithful.known element old)
    · exact self
  · intro event member
    rcases List.mem_append.mp member with old | new
    · exact (faithful.truthful event old).mono grown
    · exact truthful event new
  · intro graph member
    rcases waits graph member with old | ⟨rfl, enters⟩
    · obtain ⟨inside, enters⟩ := faithful.waiting graph old
      rw [entered_append]
      exact ⟨grown inside, List.mem_append_left _ enters⟩
    · exact ⟨self, enters⟩

variable {insertion : Insertion} {chain : Antichain}

theorem insert_holds (faithful : Faithful order start waiting told heard search)
    (inserted : search.antichain.insert order (search.identify found).1 = (insertion, chain)) :
    chain.Holds (entered told ++ [(search.identify found).1.id])
      (left told ++ left (insertion.deletions (search.identify found).1)) :=
  Antichain.insert_holds faithful.holds faithful.fresh.1 faithful.fresh.2 inserted

theorem insert_truthful (faithful : Faithful order start waiting told heard search)
    (inserted : search.antichain.insert order (search.identify found).1 = (insertion, chain)) :
    ∀ event ∈ insertion.deletions (search.identify found).1,
      event.Truthful order (Allocator.identifyAll ⟨start⟩ (heard ++ [found])) := by
  rw [faithful.identified]
  apply Antichain.deletions_truthful inserted
  · intro element member
    exact List.mem_append_left _ (faithful.known element member)
  · exact List.mem_append_right _ List.mem_cons_self

end Faithful

private theorem deletions_plain {insertion : Insertion} {graph : Identified} :
    ∀ event ∈ insertion.deletions graph, ∀ other, event ≠ .skipped other := by
  intro event member other same
  have deletion := Antichain.isDeletion_of_mem member
  rw [same] at deletion
  cases deletion

private theorem sink_report (steps : List (Line × Event)) :
    (steps.foldl (fun search (line, event) => (search.note line).emit setting event) search).sink =
      setting.sink.receive search.sink (steps.map Prod.snd) := by
  induction steps generalizing search with
  | nil => rfl
  | cons step rest ih => exact ih

/-- An insertion of a new graph, with what it tells. -/
structure Enters (setting : Setting τ) (search : Search τ) (found : Hypergraph)
    (insertion : Insertion) (told : τ) (after : Search τ) :
    Prop where
  inserted : search.antichain.insert setting.order (search.identify found).1 =
    (insertion, after.antichain)
  allocator : after.allocator = (search.identify found).2.allocator
  next : after.next = search.next
  sink : after.sink = setting.sink.receive told (insertion.deletions (search.identify found).1)

theorem insert_enters (setting : Setting τ) (search : Search τ) (found : Hypergraph)
    {middle : Search τ} (same : Alike (search.identify found).2 middle) :
    ∃ insertion, (middle.insert setting (search.identify found).1).1 = insertion.isAccepted ∧
      Enters setting search found insertion middle.sink
        (middle.insert setting (search.identify found).1).2 := by
  obtain ⟨accepts, alike⟩ := insert_eq setting middle (search.identify found).1
  have antichain : middle.antichain = search.antichain := same.antichain
  have sink : (middle.insert setting (search.identify found).1).2.sink = _ := sink_report _
  rw [antichain] at accepts alike sink
  refine ⟨_, accepts, ?_, ?_, alike.next.trans same.next, sink⟩
  · exact Prod.ext rfl alike.antichain.symm
  · exact alike.allocator.trans same.allocator

theorem Enters.issued {found : Hypergraph} {insertion : Insertion} {sink : τ}
    (enters : Enters setting search found insertion sink after) :
    after.allocator.issued = search.allocator.issued + 1 :=
  congrArg Allocator.issued enters.allocator

theorem Enters.kept {found : Hypergraph} {insertion : Insertion} {sink : τ}
    (enters : Enters setting search found insertion sink after) :
    ∀ element ∈ after.antichain.elements, element ∈ search.antichain.elements ∨
      element = (search.identify found).1 :=
  fun _ member => (Antichain.mem_insert enters.inserted member).imp_right And.left

/-- Nothing has been told, and nothing has changed that is told of. -/
structure Silent (search after : Search τ) : Prop where
  sink : after.sink = search.sink
  allocator : after.allocator = search.allocator
  antichain : after.antichain = search.antichain

/-- From one search to a later one, some events have been told and some graphs have been heard, and
other graphs wait. -/
structure Tells (setting : Setting τ) (start : Nat) (waiting : List Identified) (search : Search τ)
    (events : List Event) (heard : List Hypergraph) (later : List Identified)
    (after : Search τ) : Prop where
  sink : after.sink = setting.sink.receive search.sink events
  faithful : ∀ {told before}, Faithful setting.order start waiting told before search →
    Faithful setting.order start later (told ++ events) (before ++ heard) after

theorem Tells.of_silent (silent : Silent search after)
    (fewer : ∀ graph ∈ later ++ after.next, graph ∈ waiting ++ search.next) :
    Tells setting start waiting search [] [] later after where
  sink := silent.sink
  faithful {told before} faithful := by
    rw [List.append_nil, List.append_nil]
    exact faithful.of_same silent.allocator silent.antichain fewer

theorem Tells.trans {last : Search τ} {events further : List Event} {more : List Hypergraph}
    {rest : List Identified} (first : Tells setting start waiting search events heard later after)
    (second : Tells setting start later after further more rest last) :
    Tells setting start waiting search (events ++ further) (heard ++ more) rest last where
  sink := by rw [second.sink, first.sink, Sink.receive_append]
  faithful {told before} faithful := by
    rw [← List.append_assoc, ← List.append_assoc]
    exact second.faithful (first.faithful faithful)

/-- What waits no more need not be kept in mind. -/
theorem Tells.forget {events : List Event}
    (tells : Tells setting start waiting search events heard later after) :
    Tells setting start waiting search events heard [] after where
  sink := tells.sink
  faithful {told before} faithful := by
    apply (tells.faithful faithful).of_same rfl rfl
    intro graph member
    exact List.mem_append_right _ member

/-- What is told of a round between its start and its end. If it goes on, the next round has all
graphs that were generated. -/
structure Works (setting : Setting τ) (start : Nat) (waiting : List Identified) (search : Search τ)
    (events : List Event) (heard : List Hypergraph) (verdict : Verdict)
    (after : Search τ) : Prop where
  tells : Tells setting start waiting search events heard waiting after
  steps : ∀ event ∈ events, event.isStep = true
  next : verdict = .proceed → after.next.length =
    search.next.length + events.countP Event.isGeneration

theorem Works.of_silent (silent : Silent search after) (next : after.next = search.next)
    (verdict : Verdict) :
    Works setting start waiting search [] [] verdict after where
  tells := .of_silent silent fun _ member => next ▸ member
  steps := nofun
  next _ := congrArg List.length next

theorem Works.trans {last : Search τ} {events further : List Event} {more : List Hypergraph}
    {verdict : Verdict} (first : Works setting start waiting search events heard .proceed after)
    (second : Works setting start waiting after further more verdict last) :
    Works setting start waiting search (events ++ further) (heard ++ more) verdict last where
  tells := first.tells.trans second.tells
  steps event member := (List.mem_append.mp member).elim (first.steps event) (second.steps event)
  next goesOn := by rw [second.next goesOn, first.next rfl, List.countP_append, Nat.add_assoc]

private theorem isStep_of_deletion {insertion : Insertion} {graph : Identified} :
    ∀ event ∈ insertion.deletions graph, event.isStep = true := by
  intro event member
  have deletion := Antichain.isDeletion_of_mem member
  cases event with
  | deleted graph because => rfl
  | _ => cases deletion

private theorem countP_deletions {insertion : Insertion} {graph : Identified} :
    (insertion.deletions graph).countP Event.isGeneration = 0 := by
  apply List.countP_eq_zero.mpr
  intro event member generation
  have deletion := Antichain.isDeletion_of_mem member
  cases event with
  | deleted graph because => cases generation
  | _ => cases deletion

private theorem rejected_tells {found : Hypergraph} {because : Identified}
    (enters : Enters setting search found (.rejected because) search.sink after) :
    Tells setting start waiting search
      ((Insertion.rejected because).deletions (search.identify found).1) [found] waiting after where
  sink := enters.sink
  faithful {told before} faithful := by
    apply faithful.extend enters.issued _ enters.kept
      (faithful.insert_truthful enters.inserted) deletions_plain
    · intro graph member
      rw [enters.next] at member
      exact .inl member
    · rw [entered_append, left_append, Antichain.entered_deletions, List.append_nil]
      apply (faithful.insert_holds enters.inserted).forget
      exact List.mem_append_right _ List.mem_cons_self

private theorem accepted_tells {found : Hypergraph} {insertion : Insertion} {origin : Identified}
    {rule : RuleId} {middle : Search τ}
    (enters : Enters setting search found insertion search.sink middle) (inside : origin ∈ waiting)
    (sink : after.sink =
      (setting.sink.emit (.generated (search.identify found).1.ref origin.ref rule) middle.sink).2)
    (allocator : after.allocator = middle.allocator) (antichain : after.antichain = middle.antichain)
    (next : ∀ graph ∈ after.next, graph ∈ search.next ∨ graph = (search.identify found).1) :
    Tells setting start waiting search
      (insertion.deletions (search.identify found).1 ++
        [.generated (search.identify found).1.ref origin.ref rule]) [found] waiting after where
  sink := by
    rw [sink, enters.sink, Sink.receive_append]
    rfl
  faithful {told before} faithful := by
    have now : entered (told ++ (insertion.deletions (search.identify found).1 ++
        [.generated (search.identify found).1.ref origin.ref rule])) =
          entered told ++ [(search.identify found).1.id] := by
      rw [entered_append, entered_append, Antichain.entered_deletions]
      rfl
    apply faithful.extend
    · rw [allocator, enters.issued]
    · have none : left [.generated (search.identify found).1.ref origin.ref rule] = [] := rfl
      rw [antichain, now, left_append, left_append, none, List.append_nil]
      exact faithful.insert_holds enters.inserted
    · rw [antichain]
      exact enters.kept
    · intro event member
      rcases List.mem_append.mp member with deletion | generation
      · exact faithful.insert_truthful enters.inserted event deletion
      · rw [List.mem_singleton.mp generation, faithful.identified]
        refine ⟨⟨_, List.mem_append_right _ List.mem_cons_self, rfl⟩, origin, ?_, rfl⟩
        exact List.mem_append_left _ (faithful.waiting origin (List.mem_append_left _ inside)).1
    · intro event member graph
      rcases List.mem_append.mp member with deletion | generation
      · exact deletions_plain event deletion graph
      · rw [List.mem_singleton.mp generation]
        exact nofun
    · intro graph member
      rcases List.mem_append.mp member with early | late
      · exact .inl (List.mem_append_left _ early)
      · rcases next graph late with old | rfl
        · exact .inl (List.mem_append_right _ old)
        · right
          rw [now]
          exact ⟨rfl, List.mem_append_right _ List.mem_cons_self⟩

theorem takeIn_works (setting : Setting τ) (start : Nat) (search : Search τ) {origin : Identified}
    (inside : origin ∈ waiting) (rule : RuleId) (found : Hypergraph) :
    ∃ events, Works setting start waiting search events [found]
      (search.takeIn setting origin rule found).1
      (search.takeIn setting origin rule found).2 := by
  obtain ⟨insertion, accepts, enters⟩ :=
    insert_enters setting search found (.refl (search.identify found).2)
  rw [takeIn]
  simp only
  generalize (search.identify found).2.insert setting (search.identify found).1 =
    step at accepts enters
  obtain ⟨accepted, inserted⟩ := step
  have accepts : accepted = insertion.isAccepted := accepts
  have enters : Enters setting search found insertion search.sink inserted := enters
  cases insertion with
  | rejected because =>
    subst accepts
    refine ⟨_, rejected_tells enters, isStep_of_deletion, ?_⟩
    intro _
    change inserted.next.length = _
    rw [enters.next, countP_deletions]
    rfl
  | accepted gone =>
    subst accepts
    have steps : ∀ event ∈ (Insertion.accepted gone).deletions (search.identify found).1 ++
        [.generated (search.identify found).1.ref origin.ref rule], event.isStep = true := by
      intro event member
      rcases List.mem_append.mp member with deletion | generation
      · exact isStep_of_deletion event deletion
      · rw [List.mem_singleton.mp generation]
        rfl
    simp only [Insertion.isAccepted]
    split
    · refine ⟨_, accepted_tells enters inside rfl rfl rfl ?_, steps, ?_⟩
      · intro graph member
        exact .inl (enters.next ▸ member)
      · intro goesOn
        cases goesOn
    · refine ⟨_, accepted_tells enters inside rfl rfl rfl ?_, steps, ?_⟩
      · intro graph member
        rcases List.mem_cons.mp member with rfl | old
        · exact .inr rfl
        · exact .inl (enters.next ▸ old)
      · intro _
        change inserted.next.length + 1 = _
        rw [enters.next, List.countP_append, countP_deletions]
        rfl

theorem takeInAll_works (setting : Setting τ) (start : Nat) (search : Search τ)
    {origin : Identified} (inside : origin ∈ waiting) (rule : RuleId) (answer : List Yield) :
    ∃ events, Works setting start waiting search events (heardFrom setting origin rule answer search)
      (takeInAll setting origin rule answer search).1
        (takeInAll setting origin rule answer search).2 := by
  induction answer generalizing search with
  | nil => exact ⟨[], .of_silent ⟨rfl, rfl, rfl⟩ rfl _⟩
  | cons first rest ih =>
    cases first with
    | skipped line =>
      obtain ⟨events, later⟩ := ih (search.note line)
      have noted : Silent search (search.note line) := ⟨rfl, rfl, rfl⟩
      exact ⟨events, (Works.of_silent noted rfl .proceed).trans later⟩
    | graph found =>
      obtain ⟨events, first⟩ := takeIn_works setting start search inside rule found
      rw [takeInAll, heardFrom]
      generalize search.takeIn setting origin rule found = step at first
      obtain ⟨verdict, middle⟩ := step
      cases verdict with
      | stop status => exact ⟨events, first⟩
      | fail fault => exact ⟨events, first⟩
      | proceed =>
        have looked : Silent middle (middle.isOutOfTime setting).2 := ⟨rfl, rfl, rfl⟩
        have same : (middle.isOutOfTime setting).2.next = middle.next := rfl
        simp only
        generalize middle.isOutOfTime setting = look at looked same
        obtain ⟨late, resumed⟩ := look
        cases late with
        | true => exact ⟨events ++ [], first.trans (.of_silent looked same _)⟩
        | false =>
          obtain ⟨further, later⟩ := ih resumed
          exact ⟨events ++ further, first.trans ((Works.of_silent looked same .proceed).trans later)⟩

theorem expand_works (setting : Setting τ) (start : Nat) (search : Search τ) {graph : Identified}
    (inside : graph ∈ waiting) (rule : Rule) :
    ∃ events, Works setting start waiting search events
      ((search.inquire setting graph rule).flatMap Inquiry.heard)
      (search.expand setting graph rule).1 (search.expand setting graph rule).2 := by
  rw [expand, inquire]
  generalize search.source.reset rule graph.graph = step
  obtain ⟨lines, outcome, source⟩ := step
  have asked : Silent search { search.noteAll lines with source } := ⟨rfl, rfl, rfl⟩
  cases outcome with
  | error fault => exact ⟨[], .of_silent asked rfl (.fail fault)⟩
  | ok yields =>
    obtain ⟨events, works⟩ :=
      takeInAll_works setting start { search.noteAll lines with source } inside rule.id yields
    simp only [List.flatMap_singleton]
    exact ⟨events, (Works.of_silent asked rfl .proceed).trans works⟩

theorem expandAll_works (setting : Setting τ) (start : Nat) (search : Search τ) {graph : Identified}
    (inside : graph ∈ waiting) (rules : List (Except Fault Rule)) :
    ∃ events, Works setting start waiting search events
      ((inquireAll setting graph rules search).flatMap Inquiry.heard)
      (expandAll setting graph rules search).1 (expandAll setting graph rules search).2 := by
  induction rules generalizing search with
  | nil => exact ⟨[], .of_silent ⟨rfl, rfl, rfl⟩ rfl _⟩
  | cons first rest ih =>
    cases first with
    | error fault => exact ⟨[], .of_silent ⟨rfl, rfl, rfl⟩ rfl _⟩
    | ok rule =>
      obtain ⟨events, first⟩ := expand_works setting start search inside rule
      rw [expandAll, inquireAll, List.flatMap_append]
      generalize search.expand setting graph rule = step at first
      obtain ⟨verdict, middle⟩ := step
      cases verdict with
      | proceed =>
        obtain ⟨further, later⟩ := ih middle
        exact ⟨events ++ further, first.trans later⟩
      | stop status => exact ⟨events, (List.append_nil _).symm ▸ first⟩
      | fail fault => exact ⟨events, (List.append_nil _).symm ▸ first⟩

private theorem skip_works (setting : Setting τ) (start : Nat) {graph : Identified}
    (inside : graph ∈ waiting) (gone : search.antichain.contains graph.id = false) :
    Works setting start waiting search [.skipped graph.ref] []
      .proceed (search.emit setting (.skipped graph.ref)) where
  tells := by
  -- Whatever waits has entered, so what is no element any more has left.
    refine ⟨rfl, ?_⟩
    intro told before faithful
    obtain ⟨known, enters⟩ := faithful.waiting graph (List.mem_append_left _ inside)
    have leaves : graph.id ∈ left told := by
      by_contra stays
      rw [Antichain.contains, decide_eq_false_iff_not, faithful.holds.indexed.members_iff,
        faithful.holds.ids, List.mem_filter] at gone
      exact gone ⟨enters, decide_eq_true stays⟩
    rw [List.append_nil]
    have skipped : Faithful setting.order start waiting (told ++ [.skipped graph.ref])
        before search := by
      have truthful : (Event.skipped graph.ref).Truthful setting.order
        (Allocator.identifyAll ⟨start⟩ before) := ⟨graph, known, rfl⟩
      apply faithful.concat _ rfl rfl truthful
      intro other same
      cases same
      exact leaves
    exact skipped.of_same rfl rfl fun _ => id
  steps event member := by
    rw [List.mem_singleton.mp member]
    rfl
  next _ := rfl

theorem expandRound_works (setting : Setting τ) (start : Nat) (prepared : Prepared)
    (search : Search τ) {graphs : List Identified} (inside : ∀ graph ∈ graphs, graph ∈ waiting) :
    ∃ events, Works setting start waiting search events
      ((inquireRound setting prepared graphs search).flatMap Inquiry.heard)
      (expandRound setting prepared graphs search).1
        (expandRound setting prepared graphs search).2 := by
  induction graphs generalizing search with
  | nil => exact ⟨[], .of_silent ⟨rfl, rfl, rfl⟩ rfl _⟩
  | cons graph rest ih =>
    rw [List.forall_mem_cons] at inside
    rw [expandRound, inquireRound]
    cases present : search.antichain.contains graph.id with
    | true =>
      obtain ⟨events, first⟩ :=
        expandAll_works setting start search inside.1 (prepared.rulesFor graph.graph)
      simp only [if_true, List.flatMap_append]
      generalize expandAll setting graph (prepared.rulesFor graph.graph) search = step at first
      obtain ⟨verdict, middle⟩ := step
      cases verdict with
      | proceed =>
        obtain ⟨further, later⟩ := ih middle inside.2
        exact ⟨events ++ further, first.trans later⟩
      | stop status => exact ⟨events, (List.append_nil _).symm ▸ first⟩
      | fail fault => exact ⟨events, (List.append_nil _).symm ▸ first⟩
    | false =>
      obtain ⟨further, later⟩ := ih (search.emit setting (.skipped graph.ref)) inside.2
      exact ⟨_, (skip_works setting start inside.1 present).trans later⟩

/-- An event between the steps of a round leaves all that is told of as it is. -/
theorem emit_tells (setting : Setting τ) (start : Nat) (waiting : List Identified)
    (search : Search τ) (event : Event) (enters : event.entering? = none)
    (leaves : event.leaving? = none) (truthful : ∀ known, event.Truthful setting.order known)
    (plain : event.isStep = false) :
    Tells setting start waiting search [event] [] waiting (search.emit setting event) where
  sink := rfl
  faithful {told before} faithful := by
    rw [List.append_nil]
    exact (faithful.concat_plain event enters leaves (truthful _) plain).of_same rfl rfl fun _ => id

private theorem started_tells (setting : Setting τ) (start : Nat) (waiting : List Identified)
    (search : Search τ) (round : Nat) :
    Tells setting start waiting search [.roundStarted round] [] waiting
      (search.started setting round waiting) :=
  (emit_tells setting start waiting search (.roundStarted round) rfl rfl (fun _ => trivial) rfl).trans
    (.of_silent ⟨rfl, rfl, rfl⟩ fun _ => id)

private theorem turned_tells (setting : Setting τ) (start : Nat) (waiting : List Identified)
    (search : Search τ) (round : Nat) :
    Tells setting start waiting search [.roundFinished round search.next.length] [] search.next
      (search.turned setting round) := by
  have told :=
    emit_tells setting start waiting search (.roundFinished round search.next.length)
      rfl rfl (fun _ => trivial) rfl
  have silent : Silent (search.emit setting (.roundFinished round search.next.length))
    (search.turned setting round) := ⟨rfl, rfl, rfl⟩
  have empty : (search.turned setting round).next = [] := rfl
  refine told.trans (.of_silent silent fun other member => ?_)
  rw [empty, List.append_nil] at member
  exact List.mem_append_right _ member

/-- By induction on the rounds. In a round that is stopped only the steps so far are told, and what
waits is dropped. -/
theorem runRounds_tells {prepared : Prepared} {allowed round last : Nat} {status : Status}
    (idle : search.next = [])
    (finished : runRounds setting prepared allowed round waiting search =
      some (.ok status, last, after)) :
    ∃ rounds, Layout status [] rounds ∧ (rounds = [] → status = .converged) ∧
      last = round + rounds.length ∧
      Tells setting start waiting search (roundEvents (round + 1) rounds)
        ((inquireRounds setting prepared allowed round waiting search).flatten.flatMap
          Inquiry.heard) [] after := by
  have lawless : setting.order.LawfulOn fun _ => False := ⟨nofun, nofun⟩
  induction allowed generalizing search waiting round with
  | zero =>
    cases waiting with
    | cons graph rest => cases finished
    | nil =>
      cases finished
      exact ⟨[], .of_deletions (List.forall_mem_nil _) _, fun _ => rfl, rfl,
        .of_silent ⟨rfl, rfl, rfl⟩ fun _ => id⟩
  | succ allowed ih =>
    cases waiting with
    | nil =>
      cases finished
      exact ⟨[], .of_deletions (List.forall_mem_nil _) _, fun _ => rfl, rfl,
        .of_silent ⟨rfl, rfl, rfl⟩ fun _ => id⟩
    | cons graph rest =>
      have inside : ∀ other ∈ graph :: rest, other ∈ graph :: rest := fun _ => id
      have started := started_tells setting start (graph :: rest) search (round + 1)
      obtain ⟨steps, works⟩ :=
        expandRound_works setting start prepared
          (search.started setting (round + 1) (graph :: rest)) inside
      have partly :=
        (expandRound_course lawless prepared (graph :: rest)
          (search.started setting (round + 1) (graph :: rest))).intake.partly
      rw [runRounds_cons] at finished
      rw [inquireRounds_cons, List.flatten_cons, List.flatMap_append]
      generalize expandRound setting prepared (graph :: rest)
        (search.started setting (round + 1) (graph :: rest)) = step
        at finished works partly ⊢
      obtain ⟨verdict, middle⟩ := step
      cases verdict with
      | fail fault => cases finished
      | stop halt =>
        cases finished
        have told := (started.trans works.tells).forget
        refine ⟨[⟨steps, false⟩], .stopped works.steps fun same =>
          partly (congrArg Verdict.stop same),
          fun none => absurd none (List.cons_ne_nil _ _), rfl, ?_⟩
        simpa [roundEvents, Round.events] using told
      | proceed =>
        have length : middle.next.length = steps.countP Event.isGeneration := by
          have next := works.next rfl
          change middle.next.length = search.next.length + _ at next
          rwa [idle, List.length_nil, Nat.zero_add] at next
        have turned := turned_tells setting start (graph :: rest) middle (round + 1)
        obtain ⟨rounds, layout, none, count, later⟩ := ih rfl finished
        refine ⟨⟨steps, true⟩ :: rounds, layout.cons works.steps none,
          fun none => absurd none (List.cons_ne_nil _ _), ?_, ?_⟩
        · rw [count, List.length_cons]
          omega
        · simpa [roundEvents, Round.events, length]
            using started.trans (works.tells.trans (turned.trans later))

private theorem errorGraph_tells {found : Hypergraph} {insertion : Insertion} {middle : Search τ}
    (sink : middle.sink =
      (setting.sink.emit (.errorGraph (search.identify found).1.ref) search.sink).2)
    (enters : Enters setting search found insertion middle.sink after) :
    Tells setting start waiting search
      (.errorGraph (search.identify found).1.ref :: insertion.deletions (search.identify found).1)
      [found] ((search.identify found).1 :: waiting) after where
  sink := by
    rw [enters.sink, sink]
    rfl
  faithful {told before} faithful := by
    have now :
        entered (told ++ .errorGraph (search.identify found).1.ref ::
          insertion.deletions (search.identify found).1) =
        entered told ++ [(search.identify found).1.id] := by
      rw [entered_append]
      exact congrArg (entered told ++ (search.identify found).1.id :: ·) Antichain.entered_deletions
    apply faithful.extend enters.issued _ enters.kept
    · rw [List.forall_mem_cons, faithful.identified]
      refine ⟨⟨_, List.mem_append_right _ List.mem_cons_self, rfl⟩, ?_⟩
      rw [← faithful.identified]
      exact faithful.insert_truthful enters.inserted
    · rw [List.forall_mem_cons]
      exact ⟨nofun, deletions_plain⟩
    · intro graph member
      rw [now]
      rw [enters.next] at member
      rcases List.mem_cons.mp member with rfl | old
      · exact .inr ⟨rfl, List.mem_append_right _ List.mem_cons_self⟩
      · exact .inl old
    · rw [now, left_append]
      exact faithful.insert_holds enters.inserted

theorem takeInErrors_tells (setting : Setting τ) (start : Nat) (graphs : List Hypergraph)
    (waiting : List Identified) (search : Search τ) :
    ∃ deletions : List (List Event), deletions.length = graphs.length ∧
      (∀ block ∈ deletions, ∀ event ∈ block, event.isDeletion = true) ∧
      (takeInErrors setting graphs waiting search).2.next = search.next ∧
      Tells setting start waiting search
        (errorEvents (search.allocator.identifyAll graphs) deletions) graphs
        (takeInErrors setting graphs waiting search).1
          (takeInErrors setting graphs waiting search).2 := by
  induction graphs generalizing waiting search with
  | nil => exact ⟨[], rfl, nofun, rfl, .of_silent ⟨rfl, rfl, rfl⟩ fun _ => id⟩
  | cons found rest ih =>
    have told :=
      alike_emit setting (search.identify found).2 (.errorGraph (search.identify found).1.ref)
    obtain ⟨insertion, _, enters⟩ := insert_enters setting search found told
    rw [takeInErrors]
    simp only
    obtain ⟨deletions, length, only, next, later⟩ := ih ((search.identify found).1 :: waiting)
      (((search.identify found).2.emit setting (.errorGraph (search.identify found).1.ref)).insert
        setting (search.identify found).1).2
    rw [enters.allocator] at later
    refine ⟨insertion.deletions (search.identify found).1 :: deletions, congrArg Nat.succ length,
      ?_, next.trans enters.next, ?_⟩
    · rw [List.forall_mem_cons]
      exact ⟨fun _ => Antichain.isDeletion_of_mem, only⟩
    · exact (errorGraph_tells rfl enters).trans later

/-- The events of a search up to its end: the error graphs, then the rounds. -/
theorem run_tells {prepared : Prepared} {errorGraphs : List Hypergraph} {allowed last : Nat}
    {status : Status} (idle : search.next = [])
    (finished : search.run setting prepared errorGraphs allowed = some (.ok status, last, after)) :
    ∃ deletions rounds, Layout status deletions rounds ∧ deletions.length = errorGraphs.length ∧
      last = rounds.length ∧
      Tells setting start [] search
        (errorEvents (search.allocator.identifyAll errorGraphs) deletions ++ roundEvents 1 rounds)
        (errorGraphs ++ (search.inquiries setting prepared errorGraphs allowed).flatten.flatMap
          Inquiry.heard) [] after := by
  obtain ⟨deletions, length, only, next, told⟩ :=
    takeInErrors_tells setting start errorGraphs [] search
  rw [run] at finished
  rw [inquiries]
  generalize takeInErrors setting errorGraphs [] search = step at finished next told ⊢
  obtain ⟨waiting, taken⟩ := step
  have next : taken.next = search.next := next
  have told : Tells setting start [] search
      (errorEvents (search.allocator.identifyAll errorGraphs) deletions) errorGraphs waiting taken :=
    told
  simp only at finished ⊢
  cases covered : setting.covered? waiting.reverse with
  | some halt =>
    rw [covered] at finished
    cases finished
    have silent : Silent after after := ⟨rfl, rfl, rfl⟩
    exact ⟨deletions, [], .of_deletions only _, length, rfl,
      told.forget.trans (.of_silent silent fun _ => id)⟩
  | none =>
    rw [covered] at finished
    have looked : Silent taken (taken.isOutOfTime setting).2 := ⟨rfl, rfl, rfl⟩
    have same : (taken.isOutOfTime setting).2.next = taken.next := rfl
    simp only at finished ⊢
    generalize taken.isOutOfTime setting = look at finished looked same ⊢
    obtain ⟨late, later⟩ := look
    have resumed : Tells setting start waiting taken [] [] waiting later :=
      .of_silent looked fun _ member => same ▸ member
    cases late with
    | true =>
      cases finished
      exact ⟨deletions, [], .of_deletions only _, length, rfl, told.trans resumed.forget⟩
    | false =>
      obtain ⟨rounds, layout, _, count, rounded⟩ :=
        runRounds_tells ((same.trans next).trans idle) finished
      refine ⟨deletions, rounds, ⟨only, layout.steps, layout.finished, layout.last⟩, length, ?_,
        told.trans (resumed.trans rounded)⟩
      rw [count, Nat.zero_add]

end Search

namespace Analysis
open Transcript

variable {τ : Type} {analysis : Analysis τ} {clock : Nat → Nat} {allowed : Nat} {run : Run τ}
  {outcome : Outcome}

/-- The events of a search from which its outcome can be read. -/
structure Replays (order : Order) (prepared : Prepared) (errorGraphs known : List Identified)
    (outcome : Outcome) (events : List Event) : Prop where
  layout : ∃ deletions rounds, Layout outcome.status deletions rounds ∧
    deletions.length = errorGraphs.length ∧
    outcome.rounds = rounds.length ∧ events =
      .prepared prepared.name prepared.rules.size prepared.quantifiedRules.size ::
        (errorEvents errorGraphs deletions ++ roundEvents 1 rounds ++ [.finished outcome.status])
  started : outcome.rounds = events.countP Event.startsRound
  survivors : outcome.antichain.elements.map Identified.id = survivors events
  truthful : ∀ event ∈ events, event.Truthful order known
  skipped : SkipsDeleted events

private theorem ids_conclude (setting : Setting τ) (search : Search τ) (status : Status)
    (rounds : Nat) :
    (search.conclude setting status rounds).antichain.elements.map Identified.id =
      search.antichain.elements.map Identified.id := by
  cases status with
  | converged =>
    change ((search.antichain.elements.map _).map Identified.id) = _
    rw [List.map_map]
    apply List.map_congr_left
    intro element _
    simp only [Function.comp_apply]
    split <;> rfl
  | _ => rfl

private theorem sink_conclude (setting : Setting τ) (search : Search τ) (status : Status)
    (rounds : Nat) :
    (search.conclude setting status rounds).sink =
      setting.sink.receive search.sink [.finished status] := by
  cases status <;> rfl

/-- The search before anything has been told. -/
private def blank (analysis : Analysis τ) : Search τ :=
  ⟨analysis.allocator, analysis.source, analysis.sinkState, #[], 0, {}, []⟩

private theorem blank_faithful (analysis : Analysis τ) :
    Search.Faithful analysis.order analysis.allocator.issued [] [] [] analysis.blank :=
  ⟨rfl, Antichain.holds_empty, nofun, nofun, nofun, nofun⟩

private theorem opening_tells (analysis : Analysis τ) (clock : Nat → Nat) (lines : List Line)
    (prepared : Prepared) :
    Search.Tells (analysis.setting clock) analysis.allocator.issued [] analysis.blank
      [.prepared prepared.name prepared.rules.size prepared.quantifiedRules.size] [] []
        (analysis.opening clock lines prepared) := by
  have noted : Search.Silent analysis.blank (analysis.blank.noteAll lines) := ⟨rfl, rfl, rfl⟩
  have told :=
    Search.emit_tells (analysis.setting clock) analysis.allocator.issued []
      (analysis.blank.noteAll lines)
      (.prepared prepared.name prepared.rules.size prepared.quantifiedRules.size)
        rfl rfl (fun _ => trivial) rfl
  exact (Search.Tells.of_silent noted fun _ => id).trans
    (told.trans (.of_silent ⟨rfl, rfl, rfl⟩ fun _ => id))

/-- The events that an enabled sink receives: the preparation, the error graphs, the rounds, and the
status. Whatever the order, the source and the clock are, these events determine the identities in
the antichain that is returned. -/
theorem perform_replays (enabled : ∀ state, analysis.sink.isEnabled state = true)
    (performed : analysis.perform clock allowed = some run) (finished : run.result = .ok outcome) :
    ∃ prepared events, (analysis.preparer analysis.system analysis.order).2 = .ok prepared ∧
      run.analysis.sinkState = events.foldl (fun state event => analysis.sink.record event state)
        analysis.sinkState ∧
      Replays analysis.order prepared (analysis.allocator.identifyAll analysis.errorGraphs)
        (analysis.allocator.identifyAll
          (analysis.errorGraphs ++ (analysis.inquiries clock allowed).flatten.flatMap
            Inquiry.heard)) outcome events := by
  obtain ⟨lines, prepared, after, ready, ran, antichain, _, sink⟩ :=
    perform_concluded performed finished
  have asked : analysis.inquiries clock allowed =
      (analysis.opening clock lines prepared).inquiries (analysis.setting clock) prepared
        analysis.errorGraphs allowed := by
    rw [inquiries, ready]
  obtain ⟨deletions, rounds, layout, length, count, told⟩ := Search.run_tells rfl ran
  have whole := (analysis.opening_tells clock lines prepared).trans told
  have faithful :=
    (whole.faithful analysis.blank_faithful).concat_plain (.finished outcome.status)
      rfl rfl trivial rfl
  rw [asked]
  refine ⟨prepared, _, by rw [ready], ?_, ⟨deletions, rounds, layout, ?_, count, rfl⟩, ?_, ?_,
    faithful.truthful, faithful.skipped⟩
  · rw [sink, sink_conclude, whole.sink, ← Sink.receive_append]
    exact Sink.receive_enabled enabled
  · rw [length, Allocator.length_identifyAll]
  · have last : [Event.finished outcome.status].countP Event.startsRound = 0 := rfl
    rw [count, List.countP_cons_of_neg Bool.false_ne_true, List.countP_append, List.countP_append,
      countP_errorEvents layout.deletions, countP_roundEvents layout.steps, last]
    omega
  · rw [antichain, ids_conclude, faithful.holds.ids]
    rfl

/-- An error graph leaves for the next one, which leaves in turn for a predecessor, so that the
first is skipped. -/
def loggedSearch : Analysis EventLog where
  system := {}
  errorGraphs := [.ofEdges 3 [], .ofEdges 2 []]
  order := Antichain.bySize
  preparer := fun _ _ => ([], .ok { rules := Table.insert ∅ "step" ⟨"step", "", {}, {}, ∅, ∅⟩ })
  source := .scripted [some [.ofEdges 5 [], .ofEdges 1 []]]
  sink := .log
  sinkState := {}
  config := {}

theorem loggedSearch_replays :
    ∃ run outcome prepared events, loggedSearch.perform (fun _ => 0) 3 = some run ∧
      run.result = .ok outcome ∧
    run.analysis.sinkState.events.toList = events ∧
    events.map Event.subject? =
      [none, some ⟨0⟩, some ⟨1⟩, some ⟨0⟩, none, some ⟨2⟩, some ⟨1⟩, some ⟨3⟩, some ⟨0⟩, none,
        none, none, none] ∧
    Replays loggedSearch.order prepared (loggedSearch.allocator.identifyAll loggedSearch.errorGraphs)
      (loggedSearch.allocator.identifyAll
        (loggedSearch.errorGraphs ++ (loggedSearch.inquiries (fun _ => 0) 3).flatten.flatMap
          Inquiry.heard)) outcome events := by
  have returned : loggedSearch.returns (fun _ => 0) 3 =
      some (.converged, [⟨⟨3⟩, { Hypergraph.ofEdges 1 [] with name := "graph_3" }⟩]) := by
        decide +kernel
  have subjects : (loggedSearch.perform (fun _ => 0) 3).map
      (fun run => run.analysis.sinkState.events.toList.map Event.subject?) =
      some [none, some ⟨0⟩, some ⟨1⟩, some ⟨0⟩, none, some ⟨2⟩, some ⟨1⟩, some ⟨3⟩, some ⟨0⟩,
        none, none, none, none] := by
    decide +kernel
  obtain ⟨run, outcome, performed, finished, _⟩ := perform_of_returns returned
  obtain ⟨prepared, events, _, received, replays⟩ := perform_replays (fun _ => rfl) performed finished
  have logged : run.analysis.sinkState.events.toList = events := by
    rw [received]
    change (events.foldl (fun log event => Sink.log.record event log) {}).events.toList = events
    rw [Sink.receive_log]
    simp
  rw [performed] at subjects
  refine ⟨run, outcome, prepared, events, performed, finished, logged, ?_, replays⟩
  rw [← logged]
  exact Option.some.inj subjects

end Analysis

end Coverability
