import Coverability.Proofs.EarlyStop

/-! What can be read off the events of a search. The identities in the antichain are those that have
entered, in this order, less those that have left. Every event is about graphs that the search
knows, and nothing is deleted but because of a graph below it. None of this needs a law of the
order, since an insertion tells what it has compared. -/

namespace Coverability

namespace Event

/-- The graph that enters the antichain. An error graph may leave again at once. -/
def entering? : Event → Option GraphId
  | errorGraph graph => some graph.id
  | generated graph _ _ => some graph.id
  | _ => none

/-- The graph that leaves the antichain or never enters it. -/
def leaving? : Event → Option GraphId
  | deleted graph _ => some graph.id
  | _ => none

def isDeletion : Event → Bool
  | deleted _ _ => true
  | _ => false

def isGeneration : Event → Bool
  | generated _ _ _ => true
  | _ => false

/-- Whether the event may be told of a round between its start and its end. -/
def isStep : Event → Bool
  | generated _ _ _ => true
  | deleted _ _ => true
  | skipped _ => true
  | _ => false

def startsRound : Event → Bool
  | roundStarted _ => true
  | _ => false

/-- The event is about known graphs, and a graph is deleted because of one below it. -/
def Truthful (order : Order) (known : List Identified) : Event → Prop
  | errorGraph graph => ∃ one ∈ known, one.ref = graph
  | generated graph source _ =>
    (∃ one ∈ known, one.ref = graph) ∧ ∃ origin ∈ known, origin.ref = source
  | deleted graph because => ∃ one ∈ known, ∃ smaller ∈ known,
      one.ref = graph ∧ smaller.ref = because ∧ order.le smaller.graph one.graph = true
  | skipped graph => ∃ one ∈ known, one.ref = graph
  | _ => True

variable {order : Order} {known more : List Identified} {event : Event} {id : GraphId}

theorem Truthful.mono (truthful : event.Truthful order known) (fewer : known ⊆ more) :
    event.Truthful order more := by
  cases event with
  | errorGraph graph => exact truthful.imp fun _ => And.imp_left (@fewer _)
  | generated graph source rule =>
    exact ⟨truthful.1.imp fun _ => And.imp_left (@fewer _),
      truthful.2.imp fun _ => And.imp_left (@fewer _)⟩
  | deleted graph because =>
    obtain ⟨one, member, smaller, inside, known⟩ := truthful
    exact ⟨one, fewer member, smaller, fewer inside, known⟩
  | skipped graph => exact truthful.imp fun _ => And.imp_left (@fewer _)
  | prepared => trivial
  | roundStarted => trivial
  | roundFinished => trivial
  | finished => trivial

theorem Truthful.entering_known (truthful : event.Truthful order known)
    (enters : event.entering? = some id) : ∃ one ∈ known, one.id = id := by
  cases event with
  | errorGraph graph =>
    cases enters
    obtain ⟨one, member, rfl⟩ := truthful
    exact ⟨one, member, rfl⟩
  | generated graph source rule =>
    cases enters
    obtain ⟨one, member, rfl⟩ := truthful.1
    exact ⟨one, member, rfl⟩
  | _ => cases enters

theorem Truthful.leaving_known (truthful : event.Truthful order known)
    (leaves : event.leaving? = some id) : ∃ one ∈ known, one.id = id := by
  cases event with
  | deleted graph because =>
    cases leaves
    obtain ⟨one, member, _, _, rfl, _⟩ := truthful
    exact ⟨one, member, rfl⟩
  | _ => cases leaves

end Event

namespace Transcript

def entered (events : List Event) : List GraphId := events.filterMap Event.entering?

def left (events : List Event) : List GraphId := events.filterMap Event.leaving?

/-- The graphs that are in the antichain after the events, as far as these tell. -/
def survivors (events : List Event) : List GraphId :=
  (entered events).filter fun id => id ∉ left events

/-- A graph is skipped only after it has been deleted. -/
def SkipsDeleted (events : List Event) : Prop :=
  ∀ index graph, events[index]? = some (.skipped graph) → graph.id ∈ left (events.take index)

/-- The events of the error graphs. Each graph is followed by what its insertion deletes. -/
def errorEvents (graphs : List Identified) (deletions : List (List Event)) : List Event :=
  (List.zipWith (fun graph block => Event.errorGraph graph.ref :: block) graphs deletions).flatten

/-- A round as it is told: what happens after its start, and whether its end is reached. -/
structure Round where
  steps : List Event
  isFinished : Bool

def Round.events (number : Nat) (round : Round) : List Event :=
  .roundStarted number :: (round.steps ++
    if round.isFinished then [.roundFinished number (round.steps.countP Event.isGeneration)] else [])

/-- The events of rounds, numbered from the given number on. -/
def roundEvents (number : Nat) : List Round → List Event
  | [] => []
  | round :: rest => round.events number ++ roundEvents (number + 1) rest

/-- Only deletions follow an error graph, and only the last round may lack its end, which it does
unless the search has converged. -/
structure Layout (status : Status) (deletions : List (List Event)) (rounds : List Round) : Prop where
  deletions : ∀ block ∈ deletions, ∀ event ∈ block, event.isDeletion = true
  steps : ∀ round ∈ rounds, ∀ event ∈ round.steps, event.isStep = true
  finished : ∀ round ∈ rounds.dropLast, round.isFinished = true
  last : ∀ round ∈ rounds.getLast?, round.isFinished = decide (status = .converged)

variable {events more : List Event}

@[simp] theorem entered_append : entered (events ++ more) = entered events ++ entered more :=
  List.filterMap_append

@[simp] theorem left_append : left (events ++ more) = left events ++ left more :=
  List.filterMap_append

theorem SkipsDeleted.append (earlier : SkipsDeleted events)
    (later : ∀ index graph, more[index]? = some (.skipped graph) →
      graph.id ∈ left events ++ left (more.take index)) :
    SkipsDeleted (events ++ more) := by
  intro index graph found
  by_cases before : index < events.length
  · rw [List.getElem?_append_left before] at found
    rw [List.take_append_of_le_length (by omega)]
    exact earlier index graph found
  · rw [List.getElem?_append_right (by omega)] at found
    rw [List.take_append, List.take_of_length_le (by omega), left_append]
    exact later _ graph found

theorem SkipsDeleted.append_of_ne (earlier : SkipsDeleted events)
    (none : ∀ event ∈ more, ∀ graph, event ≠ .skipped graph) :
    SkipsDeleted (events ++ more) :=
  earlier.append fun _ graph found => absurd rfl (none _ (List.mem_of_getElem? found) graph)

theorem Layout.of_deletions {deletions : List (List Event)}
    (only : ∀ block ∈ deletions, ∀ event ∈ block, event.isDeletion = true) (status : Status) :
    Layout status deletions [] :=
  ⟨only, nofun, nofun, nofun⟩

theorem Layout.stopped {status : Status} {steps : List Event}
    (only : ∀ event ∈ steps, event.isStep = true) (partly : status ≠ .converged) :
    Layout status [] [⟨steps, false⟩] := by
  refine ⟨nofun, ?_, nofun, ?_⟩
  · intro round member
    rw [List.mem_singleton.mp member]
    exact only
  · intro round last
    cases last
    exact (decide_eq_false partly).symm

/-- A round comes before the others. If there are none then the search converged after it. -/
theorem Layout.cons {status : Status} {deletions : List (List Event)} {rounds : List Round}
    {steps : List Event} (layout : Layout status deletions rounds)
    (only : ∀ event ∈ steps, event.isStep = true) (none : rounds = [] → status = .converged) :
    Layout status deletions (⟨steps, true⟩ :: rounds) := by
  refine ⟨layout.deletions, List.forall_mem_cons.mpr ⟨only, layout.steps⟩, ?_, ?_⟩
  · cases rounds with
    | nil => exact nofun
    | cons next rest => exact List.forall_mem_cons.mpr ⟨rfl, layout.finished⟩
  · cases rounds with
    | nil =>
      intro round last
      cases last
      exact (decide_eq_true (none rfl)).symm
    | cons next rest => exact layout.last

theorem countP_errorEvents {graphs : List Identified} {deletions : List (List Event)}
    (only : ∀ block ∈ deletions, ∀ event ∈ block, event.isDeletion = true) :
    (errorEvents graphs deletions).countP Event.startsRound = 0 := by
  apply List.countP_eq_zero.mpr
  intro event member starts
  obtain ⟨block, inside, listed⟩ := List.mem_flatten.mp member
  obtain ⟨index, bound, rfl⟩ := List.mem_iff_getElem.mp inside
  rw [List.getElem_zipWith] at listed
  rcases List.mem_cons.mp listed with rfl | deleted
  · cases starts
  · have deletion := only _ (List.getElem_mem _) event deleted
    cases event with
    | deleted graph because => cases starts
    | _ => cases deletion

theorem Round.countP_events {round : Round} (steps : ∀ event ∈ round.steps, event.isStep = true)
    (number : Nat) :
    (round.events number).countP Event.startsRound = 1 := by
  have none : round.steps.countP Event.startsRound = 0 := by
    apply List.countP_eq_zero.mpr
    intro event member starts
    have step := steps event member
    cases event with
    | roundStarted number => cases step
    | _ => cases starts
  rw [Round.events, List.countP_cons_of_pos rfl, List.countP_append, none]
  split <;> rfl

theorem countP_roundEvents {rounds : List Round}
    (steps : ∀ round ∈ rounds, ∀ event ∈ round.steps, event.isStep = true) (number : Nat) :
    (roundEvents number rounds).countP Event.startsRound = rounds.length := by
  induction rounds generalizing number with
  | nil => rfl
  | cons round rest ih =>
    rw [List.forall_mem_cons] at steps
    rw [roundEvents, List.countP_append, Round.countP_events steps.1, ih steps.2,
      List.length_cons, Nat.add_comm]

end Transcript

/-- The steps of an insertion, as events. -/
def Insertion.deletions (insertion : Insertion) (graph : Identified) : List Event :=
  (insertion.report graph).map Prod.snd

namespace Antichain
open Transcript

variable {order : Order} {chain result : Antichain} {graph : Identified} {insertion : Insertion}
  {gone : List Identified} {because : Identified}

theorem deletions_rejected :
    (Insertion.rejected because).deletions graph = [.deleted graph.ref because.ref] := rfl

theorem deletions_accepted :
    (Insertion.accepted gone).deletions graph = gone.map fun other =>
      .deleted other.ref graph.ref := by
  rw [Insertion.deletions, Insertion.report, List.map_map]
  rfl

theorem isDeletion_of_mem {event : Event} (member : event ∈ insertion.deletions graph) :
    event.isDeletion = true := by
  cases insertion with
  | rejected because =>
    rw [deletions_rejected, List.mem_singleton] at member
    rw [member]
    rfl
  | accepted gone =>
    rw [deletions_accepted, List.mem_map] at member
    obtain ⟨other, _, rfl⟩ := member
    rfl

theorem entered_deletions : entered (insertion.deletions graph) = [] := by
  apply List.filterMap_eq_nil_iff.mpr
  intro event member
  have deletion := isDeletion_of_mem member
  cases event with
  | deleted graph because => rfl
  | _ => cases deletion

theorem left_rejected : left ((Insertion.rejected because).deletions graph) = [graph.id] := rfl

theorem left_accepted :
    left ((Insertion.accepted gone).deletions graph) = gone.map Identified.id := by
  rw [deletions_accepted, left, List.filterMap_map]
  exact congrFun (List.filterMap_eq_map (f := Identified.id)) gone

/-- What an insertion tells is true of the elements and the new graph. -/
theorem deletions_truthful (inserted : chain.insert order graph = (insertion, result))
    {known : List Identified} (elements : ∀ element ∈ chain.elements, element ∈ known)
    (self : graph ∈ known) :
    ∀ event ∈ insertion.deletions graph, event.Truthful order known := by
  intro event member
  cases insertion with
  | rejected because =>
    obtain ⟨_, inside, below⟩ := insert_rejected inserted
    rw [deletions_rejected, List.mem_singleton] at member
    rw [member]
    exact ⟨graph, self, because, elements because inside, rfl, rfl, below⟩
  | accepted gone =>
    obtain ⟨removed, _⟩ := insert_accepted inserted
    rw [deletions_accepted, List.mem_map] at member
    obtain ⟨other, dropped, rfl⟩ := member
    rw [removed, List.mem_filter] at dropped
    exact ⟨other, elements other dropped.1, graph, self, rfl, rfl, dropped.2⟩

/-- The elements are what has entered, in this order, less what has left. -/
structure Holds (entered left : List GraphId) (chain : Antichain) : Prop where
  indexed : chain.Indexed
  ids : chain.elements.map Identified.id = entered.filter fun id => id ∉ left

variable {entered left : List GraphId}

theorem holds_empty : Holds [] [] {} := ⟨⟨.nil, .nil, fun _ => Iff.rfl⟩, rfl⟩

theorem insert_holds (holds : chain.Holds entered left) (freshEntered : graph.id ∉ entered)
    (freshLeft : graph.id ∉ left) (inserted : chain.insert order graph = (insertion, result)) :
    result.Holds (entered ++ [graph.id]) (left ++ Transcript.left (insertion.deletions graph)) := by
  have within : ∀ id ∈ chain.elements.map Identified.id, id ∈ entered := by
    intro id member
    rw [holds.ids] at member
    exact List.mem_of_mem_filter member
  refine ⟨insert_indexed holds.indexed (fun member => freshEntered (within _ member)) inserted, ?_⟩
  cases insertion with
  | rejected because =>
    rw [(insert_rejected inserted).1, holds.ids, left_rejected, List.filter_append]
    have kept : entered.filter (fun id => id ∉ left ++ [graph.id]) =
        entered.filter fun id => id ∉ left := by
      apply List.filter_congr
      intro id member
      have different : id ≠ graph.id := fun same => freshEntered (same ▸ member)
      simp [different]
    rw [kept]
    simp
  | accepted gone =>
    have outside : graph.id ∉ gone.map Identified.id := by
      rw [(insert_accepted inserted).1]
      intro member
      exact freshEntered (within _ ((List.filter_sublist.map _).subset member))
    rw [insert_ids holds.indexed.distinct inserted, holds.ids, left_accepted, List.filter_filter,
      List.filter_append]
    congr 1
    · apply List.filter_congr
      intro id _
      simp only [List.mem_append, not_or, Bool.decide_and]
      exact Bool.and_comm _ _
    · have stays : graph.id ∉ left ++ gone.map Identified.id := by
        rw [List.mem_append, not_or]
        exact ⟨freshLeft, outside⟩
      simp only [List.filter_cons, stays, not_false_eq_true, decide_true, if_true, List.filter_nil]

/-- What leaves as soon as it enters need not have entered. -/
theorem Holds.forget {id : GraphId} (holds : chain.Holds (entered ++ [id]) left)
    (gone : id ∈ left) : chain.Holds entered left := by
  refine ⟨holds.indexed, ?_⟩
  rw [holds.ids, List.filter_append]
  simp [gone]

end Antichain

end Coverability
