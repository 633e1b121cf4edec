import Coverability.Proofs.Replay

/-! Two searches side by side that differ in their sinks, in what is left in their sources, and in
the identities they issue, which are larger in the second by an offset. Nothing of this flows back
into the search: every step keeps one invariant, under which the second search is the first one with
all identities raised. -/

namespace Coverability

namespace Id

def raise (offset : Nat) (id : GraphId) : GraphId := ⟨id.number + offset⟩

/-- The identity has been issued after the first so many and among the first so many. -/
def Between (low high : Nat) (id : GraphId) : Prop := low ≤ id.number ∧ id.number < high

theorem raise_injective (offset : Nat) : Function.Injective (raise offset) := by
  intro one other same
  have numbers : one.number + offset = other.number + offset := congrArg number same
  cases one
  cases other
  exact congrArg mk (Nat.add_right_cancel numbers)

theorem Between.mono {low high higher : Nat} {id : GraphId} (between : id.Between low high)
    (grown : high ≤ higher) : id.Between low higher :=
  ⟨between.1, Nat.lt_of_lt_of_le between.2 grown⟩

end Id

def Identified.raise (offset : Nat) (graph : Identified) : Identified :=
  ⟨graph.id.raise offset, graph.graph⟩

def GraphRef.raise (offset : Nat) (ref : GraphRef) : GraphRef := ⟨ref.id.raise offset, ref.digest⟩

namespace Status

def ids : Status → List GraphId
  | covered graph _ => [graph]
  | _ => []

def raise (offset : Nat) : Status → Status
  | covered graph initial => covered (graph.raise offset) initial
  | status => status

theorem raise_zero (status : Status) : status.raise 0 = status := by cases status <;> rfl

end Status

namespace Event

/-- All identities that an event mentions. -/
def ids : Event → List GraphId
  | errorGraph graph => [graph.id]
  | generated graph source _ => [graph.id, source.id]
  | deleted graph because => [graph.id, because.id]
  | skipped graph => [graph.id]
  | finished status => status.ids
  | _ => []

def raise (offset : Nat) : Event → Event
  | errorGraph graph => errorGraph (graph.raise offset)
  | generated graph source rule => generated (graph.raise offset) (source.raise offset) rule
  | deleted graph because => deleted (graph.raise offset) (because.raise offset)
  | skipped graph => skipped (graph.raise offset)
  | finished status => finished (status.raise offset)
  | event => event

theorem ids_raise (offset : Nat) (event : Event) :
    (event.raise offset).ids = event.ids.map (Id.raise offset) := by
  cases event with
  | finished status => cases status <;> rfl
  | _ => rfl

theorem raise_zero (event : Event) : event.raise 0 = event := by
  cases event with
  | finished status => exact congrArg finished status.raise_zero
  | _ => rfl

end Event

def Verdict.raise (offset : Nat) : Verdict → Verdict
  | stop status => stop (status.raise offset)
  | verdict => verdict

def Insertion.raise (offset : Nat) : Insertion → Insertion
  | rejected because => rejected (because.raise offset)
  | accepted removed => accepted (removed.map (Identified.raise offset))

theorem Insertion.deletions_raise (offset : Nat) (insertion : Insertion) (graph : Identified) :
    (insertion.raise offset).deletions (graph.raise offset) =
      (insertion.deletions graph).map (Event.raise offset) := by
  cases insertion with
  | rejected because => rfl
  | accepted gone =>
    rw [raise, Antichain.deletions_accepted, Antichain.deletions_accepted, List.map_map, List.map_map]
    rfl

namespace Antichain

def raise (offset : Nat) (chain : Antichain) : Antichain where
  elements := chain.elements.map (Identified.raise offset)
  members := chain.members.map (Id.raise offset)

theorem raise_zero (chain : Antichain) : chain.raise 0 = chain := by
  have elements : chain.elements.map (Identified.raise 0) = chain.elements := List.map_id _
  have members : chain.members.map (Id.raise 0) = chain.members := List.map_id _
  rw [raise, elements, members]

private theorem sift_raise (offset : Nat) (le : Hypergraph → Hypergraph → Bool)
    (target : Hypergraph) (dropped : Bool) (elements : List Identified) :
    sift le target dropped (elements.map (Identified.raise offset)) =
      match sift le target dropped elements with
      | .error because => .error (because.raise offset)
      | .ok (kept, gone) =>
        .ok (kept.map (Identified.raise offset), gone.map (Identified.raise offset)) := by
  induction elements generalizing dropped with
  | nil => rfl
  | cons element rest ih =>
    have same : (element.raise offset).graph = element.graph := rfl
    rw [List.map_cons, sift, sift, same, ih, ih]
    split
    · rfl
    · split
      · cases sift le target true rest <;> rfl
      · cases sift le target dropped rest <;> rfl

private theorem eraseAll_raise (offset : Nat) (gone : List Identified) (members : List GraphId) :
    (gone.map (Identified.raise offset)).foldl (fun members element => members.erase element.id)
      (members.map (Id.raise offset)) =
      (gone.foldl (fun members element => members.erase element.id) members).map
        (Id.raise offset) := by
  induction gone generalizing members with
  | nil => rfl
  | cons element rest ih =>
    have erased : (members.map (Id.raise offset)).erase (element.raise offset).id =
        (members.erase element.id).map (Id.raise offset) :=
      (List.map_erase (Id.raise_injective offset) members).symm
    rw [List.map_cons, List.foldl_cons, List.foldl_cons, erased, ih]

private theorem insertMember_raise (offset : Nat) (members : List GraphId) (id : GraphId) :
    (members.map (Id.raise offset)).insert (id.raise offset) =
      (members.insert id).map (Id.raise offset) := by
  have mem_iff : id.raise offset ∈ members.map (Id.raise offset) ↔ id ∈ members :=
    List.mem_map_of_injective (Id.raise_injective offset)
  by_cases known : id ∈ members
  · rw [List.insert_of_mem known, List.insert_of_mem (mem_iff.mpr known)]
  · rw [List.insert_of_not_mem known, List.insert_of_not_mem fun again =>
      known (mem_iff.mp again), List.map_cons]

theorem insert_raise (offset : Nat) (order : Order) (chain : Antichain) (graph : Identified) :
    (chain.raise offset).insert order (graph.raise offset) =
      ((chain.insert order graph).1.raise offset, (chain.insert order graph).2.raise offset) := by
  have sifted := sift_raise offset order.le graph.graph false chain.elements
  have same : (graph.raise offset).graph = graph.graph := rfl
  have elements : (chain.raise offset).elements = chain.elements.map (Identified.raise offset) := rfl
  rw [insert, insert, same, elements, sifted]
  cases sift order.le graph.graph false chain.elements with
  | error because => rfl
  | ok parts =>
    obtain ⟨kept, gone⟩ := parts
    have members := eraseAll_raise offset gone chain.members
    simp only [raise, Insertion.raise, members, List.map_append, List.map_cons, List.map_nil]
    rw [← insertMember_raise]
    rfl

theorem contains_raise (offset : Nat) (chain : Antichain) (id : GraphId) :
    (chain.raise offset).contains (id.raise offset) = chain.contains id := by
  rw [contains, contains, decide_eq_decide]
  exact List.mem_map_of_injective (Id.raise_injective offset)

/-- An insertion tells of the new graph and of elements only. -/
theorem ids_deletions {order : Order} {chain result : Antichain} {graph : Identified}
    {insertion : Insertion} (inserted : chain.insert order graph = (insertion, result))
    {event : Event} (member : event ∈ insertion.deletions graph) {id : GraphId}
    (mentioned : id ∈ event.ids) : id = graph.id ∨ ∃ element ∈ chain.elements, id = element.id := by
  cases insertion with
  | rejected because =>
    obtain ⟨_, inside, _⟩ := insert_rejected inserted
    rw [deletions_rejected, List.mem_singleton] at member
    subst member
    rcases List.mem_pair.mp mentioned with rfl | rfl
    · exact .inl rfl
    · exact .inr ⟨because, inside, rfl⟩
  | accepted gone =>
    obtain ⟨removed, _⟩ := insert_accepted inserted
    rw [deletions_accepted, List.mem_map] at member
    obtain ⟨other, dropped, rfl⟩ := member
    rw [removed, List.mem_filter] at dropped
    rcases List.mem_pair.mp mentioned with rfl | rfl
    · exact .inr ⟨other, dropped.1, rfl⟩
    · exact .inl rfl

/-- The antichain that is returned: the graphs of a converged search are named. -/
def concluded (status : Status) (chain : Antichain) : Antichain :=
  match status with
  | .converged => (chain.assignDefaultNames fun _ => false).2
  | _ => chain

end Antichain

/-- What two searches have in common. The sources answer alike, now and later, and time is up for
both at the same look at the clock. The identities of the second are larger by the offset. -/
structure Pairing (τ υ : Type) where
  first : Setting τ
  second : Setting υ
  /-- What the sinks hold at first. -/
  sinks : τ × υ
  /-- How many identities have been issued before the first search. -/
  start : Nat
  offset : Nat
  alike : Source → Source → Prop
  order : second.order = first.order
  initial : second.initial = first.initial
  checkInitial : second.checkInitial = first.checkInitial
  timing : ∀ looks, second.timer.outOfTime (second.clock looks) =
    first.timer.outOfTime (first.clock looks)
  answers : ∀ {one two}, alike one two → ∀ rule graph,
    (two.reset rule graph).2.1 = (one.reset rule graph).2.1 ∧
    alike (one.reset rule graph).2.2 (two.reset rule graph).2.2

namespace Search

variable {τ υ : Type}

/-- The second search is the first one with raised identities, and both have told the same. The
first has issued every identity that it mentions or may mention. -/
structure Beside (pairing : Pairing τ υ) (waiting : List Identified) (one : Search τ)
    (two : Search υ) : Prop where
  started : pairing.start ≤ one.allocator.issued
  issued : two.allocator.issued = one.allocator.issued + pairing.offset
  source : pairing.alike one.source two.source
  antichain : two.antichain = one.antichain.raise pairing.offset
  next : two.next = one.next.map (Identified.raise pairing.offset)
  polls : two.polls = one.polls
  known : ∀ graph ∈ waiting ++ (one.antichain.elements ++ one.next),
    graph.id.Between pairing.start one.allocator.issued
  told : ∃ events, one.sink = pairing.first.sink.receive pairing.sinks.1 events ∧
    two.sink = pairing.second.sink.receive pairing.sinks.2 (events.map (Event.raise pairing.offset)) ∧
    ∀ event ∈ events, ∀ id ∈ event.ids, id.Between pairing.start one.allocator.issued

/-- Some events have been told, and otherwise nothing has changed that matters. -/
structure Telling (sink : Sink τ) (search : Search τ) (events : List Event)
    (after : Search τ) : Prop where
  alike : Alike search after
  polls : after.polls = search.polls
  sink : after.sink = sink.receive search.sink events

theorem telling_note (sink : Sink τ) (search : Search τ) (line : Line) :
    Telling sink search [] (search.note line) :=
  ⟨alike_note search line, rfl, rfl⟩

theorem telling_emit (setting : Setting τ) (search : Search τ) (event : Event) :
    Telling setting.sink search [event] (search.emit setting event) :=
  ⟨alike_emit setting search event, rfl, rfl⟩

theorem Telling.trans {sink : Sink τ} {search middle after : Search τ} {events more : List Event}
    (first : Telling sink search events middle) (second : Telling sink middle more after) :
    Telling sink search (events ++ more) after where
  alike := first.alike.trans second.alike
  polls := second.polls.trans first.polls
  sink := by rw [second.sink, first.sink, Sink.receive_append]

private theorem telling_report (setting : Setting τ) (steps : List (Line × Event))
    (search : Search τ) :
    Telling setting.sink search (steps.map Prod.snd)
      (steps.foldl (fun search (line, event) => (search.note line).emit setting event) search) := by
  induction steps generalizing search with
  | nil => exact ⟨.refl _, rfl, rfl⟩
  | cons step rest ih =>
    obtain ⟨line, event⟩ := step
    exact (telling_note _ search line).trans ((telling_emit setting _ event).trans (ih _))

theorem telling_insert (setting : Setting τ) (search : Search τ) (graph : Identified) :
    Telling setting.sink { search with antichain := (search.antichain.insert setting.order graph).2 }
      ((search.antichain.insert setting.order graph).1.deletions graph)
        (search.insert setting graph).2 :=
  telling_report setting _ _

namespace Beside

variable {pairing : Pairing τ υ} {waiting fewer : List Identified} {one later : Search τ}
  {two laterTwo : Search υ}

theorem forget (beside : Beside pairing waiting one two) (subset : fewer ⊆ waiting) :
    Beside pairing fewer one two :=
  { beside with known := fun graph member => beside.known graph (List.append_subset.mpr
      ⟨List.Subset.trans subset (List.subset_append_left _ _), List.subset_append_right _ _⟩ member) }

theorem of_tellings (beside : Beside pairing waiting one two) {events : List Event}
    (first : Telling pairing.first.sink one events later)
    (second : Telling pairing.second.sink two (events.map (Event.raise pairing.offset)) laterTwo)
    (within : ∀ event ∈ events, ∀ id ∈ event.ids, id.Between pairing.start one.allocator.issued) :
    Beside pairing waiting later laterTwo where
  started := by
    rw [first.alike.allocator]
    exact beside.started
  issued := by rw [second.alike.allocator, first.alike.allocator, beside.issued]
  source := by
    rw [second.alike.source, first.alike.source]
    exact beside.source
  antichain := by rw [second.alike.antichain, first.alike.antichain, beside.antichain]
  next := by rw [second.alike.next, first.alike.next, beside.next]
  polls := by rw [second.polls, first.polls, beside.polls]
  known := by
    rw [first.alike.antichain, first.alike.next, first.alike.allocator]
    exact beside.known
  told := by
    obtain ⟨told, toldFirst, toldSecond, known⟩ := beside.told
    refine ⟨told ++ events, ?_, ?_, ?_⟩
    · rw [first.sink, toldFirst, Sink.receive_append]
    · rw [second.sink, toldSecond, List.map_append, Sink.receive_append]
    · rw [first.alike.allocator]
      exact List.forall_mem_append.mpr ⟨known, within⟩

theorem note (beside : Beside pairing waiting one two) (line other : Line) :
    Beside pairing waiting (one.note line) (two.note other) :=
  beside.of_tellings (telling_note _ one line) (telling_note _ two other) nofun

theorem emit (beside : Beside pairing waiting one two) (event : Event)
    (within : ∀ id ∈ event.ids, id.Between pairing.start one.allocator.issued) :
    Beside pairing waiting (one.emit pairing.first event)
      (two.emit pairing.second (event.raise pairing.offset)) :=
  beside.of_tellings (telling_emit _ one event) (telling_emit _ two _)
    (List.forall_mem_singleton.mpr within)

/-- A new graph gets the next identity in both searches. -/
theorem identify (beside : Beside pairing waiting one two) (found : Hypergraph) :
    (two.identify found).1 = (one.identify found).1.raise pairing.offset ∧
      Beside pairing ((one.identify found).1 :: waiting) (one.identify found).2
        (two.identify found).2 := by
  have same : (two.identify found).1 = (one.identify found).1.raise pairing.offset := by
    change (⟨⟨two.allocator.issued⟩, found⟩ : Identified) =
      ⟨⟨one.allocator.issued + pairing.offset⟩, found⟩
    rw [beside.issued]
  have more : ∀ id : GraphId, id.Between pairing.start one.allocator.issued →
      id.Between pairing.start (one.allocator.issued + 1) :=
    fun _ between => between.mono (Nat.le_succ _)
  refine ⟨same, Nat.le_succ_of_le beside.started, ?_, beside.source, beside.antichain, beside.next,
    beside.polls, ?_, ?_⟩
  · change two.allocator.issued + 1 = one.allocator.issued + 1 + pairing.offset
    rw [beside.issued]
    omega
  · rw [List.cons_append, List.forall_mem_cons]
    exact ⟨⟨beside.started, Nat.lt_succ_self _⟩,
      fun graph member => more _ (beside.known graph member)⟩
  · obtain ⟨told, toldFirst, toldSecond, known⟩ := beside.told
    exact ⟨told, toldFirst, toldSecond, fun event member id mentioned =>
      more id (known event member id mentioned)⟩

theorem insert (beside : Beside pairing waiting one two) {graph : Identified}
    (waits : graph ∈ waiting) :
    (two.insert pairing.second (graph.raise pairing.offset)).1 = (one.insert pairing.first graph).1 ∧
      Beside pairing waiting (one.insert pairing.first graph).2
        (two.insert pairing.second (graph.raise pairing.offset)).2 := by
  have raised : two.antichain.insert pairing.second.order (graph.raise pairing.offset) =
      ((one.antichain.insert pairing.first.order graph).1.raise pairing.offset,
        (one.antichain.insert pairing.first.order graph).2.raise pairing.offset) := by
    rw [beside.antichain, pairing.order]
    exact Antichain.insert_raise pairing.offset pairing.first.order one.antichain graph
  have first := telling_insert pairing.first one graph
  have second := telling_insert pairing.second two (graph.raise pairing.offset)
  have self := beside.known graph (List.mem_append_left _ waits)
  constructor
  · rw [(insert_eq _ _ _).1, (insert_eq _ _ _).1, raised]
    cases (one.antichain.insert pairing.first.order graph).1 <;> rfl
  · rcases inserted : one.antichain.insert pairing.first.order graph with ⟨insertion, chain⟩
    rw [inserted] at first raised
    rw [raised, Insertion.deletions_raise] at second
    have changed : Beside pairing waiting { one with antichain := chain }
        { two with antichain := chain.raise pairing.offset } := by
      refine { beside with antichain := rfl, known := fun other member => ?_ }
      simp only [List.mem_append] at member
      rcases member with waits | atChain | next
      · exact beside.known other (List.mem_append_left _ waits)
      · rcases Antichain.mem_insert inserted atChain with old | ⟨rfl, _⟩
        · exact beside.known other (List.mem_append_right _ (List.mem_append_left _ old))
        · exact self
      · exact beside.known other (List.mem_append_right _ (List.mem_append_right _ next))
    refine changed.of_tellings first second fun event member id mentioned => ?_
    rcases Antichain.ids_deletions inserted member mentioned with rfl | ⟨element, inside, rfl⟩
    · exact self
    · exact beside.known element (List.mem_append_right _ (List.mem_append_left _ inside))

end Beside

/-- The second step ends as the first one does. -/
structure Keeps (pairing : Pairing τ υ) (waiting : List Identified) (first : Verdict × Search τ)
    (second : Verdict × Search υ) : Prop where
  verdict : second.1 = first.1.raise pairing.offset
  beside : Beside pairing waiting first.2 second.2

variable {pairing : Pairing τ υ} {waiting : List Identified} {one : Search τ} {two : Search υ}

theorem covered?_raise (pairing : Pairing τ υ) (graphs : List Identified) :
    pairing.second.covered? (graphs.map (Identified.raise pairing.offset)) =
      (pairing.first.covered? graphs).map (Status.raise pairing.offset) := by
  rw [Setting.covered?, Setting.covered?, pairing.checkInitial]
  split
  · rw [List.findSome?_map, List.map_findSome?, pairing.initial, pairing.order]
    congr 1
    funext graph
    simp only [Function.comp_apply, Option.map_map]
    rfl
  · rfl

/-- The status names one of the graphs. -/
theorem covered?_known {setting : Setting τ} {graphs : List Identified} {status : Status}
    (found : setting.covered? graphs = some status) {low high : Nat}
    (known : ∀ graph ∈ graphs, graph.id.Between low high) :
    ∀ id ∈ status.ids, id.Between low high := by
  intro id named
  cases status with
  | covered graph index =>
    obtain ⟨witness, member, rfl, _⟩ := covered?_firstAbove found
    rw [List.mem_singleton.mp named]
    exact known witness member
  | converged => cases named
  | timedOut => cases named

theorem isOutOfTime_beside (beside : Beside pairing waiting one two) :
    (two.isOutOfTime pairing.second).1 = (one.isOutOfTime pairing.first).1 ∧
      Beside pairing waiting (one.isOutOfTime pairing.first).2
        (two.isOutOfTime pairing.second).2 := by
  constructor
  · rw [isOutOfTime, isOutOfTime, beside.polls]
    exact pairing.timing one.polls
  · exact { beside with polls := congrArg Nat.succ beside.polls }

theorem takeIn_keeps (beside : Beside pairing waiting one two) {origin : Identified}
    (inside : origin ∈ waiting) (rule : RuleId) (found : Hypergraph) :
    Keeps pairing waiting (one.takeIn pairing.first origin rule found)
      (two.takeIn pairing.second (origin.raise pairing.offset) rule found) := by
  obtain ⟨same, identified⟩ := beside.identify found
  obtain ⟨accepts, inserted⟩ := identified.insert List.mem_cons_self
  rw [← same] at accepts inserted
  have covered := covered?_raise pairing [(one.identify found).1]
  rw [List.map_singleton, ← same] at covered
  rw [takeIn, takeIn]
  simp only
  generalize (one.identify found).2.insert pairing.first (one.identify found).1 =
    step at accepts inserted
  generalize (two.identify found).2.insert pairing.second (two.identify found).1 =
    stepTwo at accepts inserted
  obtain ⟨accepted, later⟩ := step
  obtain ⟨_, laterTwo⟩ := stepTwo
  cases accepts
  cases accepted with
  | false => exact ⟨rfl, inserted.forget (List.subset_cons_self _ _)⟩
  | true =>
    have self := inserted.known (one.identify found).1 (List.mem_append_left _ List.mem_cons_self)
    have parent := inserted.known origin (List.mem_append_left _ (List.mem_cons_of_mem _ inside))
    have told (line other : Line) :=
      (inserted.note line other).emit (.generated (one.identify found).1.ref origin.ref rule)
        (List.forall_mem_cons.mpr ⟨self, List.forall_mem_singleton.mpr parent⟩)
    rw [same] at covered ⊢
    rw [covered]
    cases pairing.first.covered? [(one.identify found).1] with
    | some status => exact ⟨rfl, (told _ _).forget (List.subset_cons_self _ _)⟩
    | none =>
      refine ⟨rfl, { (told _ _).forget (List.subset_cons_self _ _) with
        next := ?_
        known := fun graph member => ?_ }⟩
      · exact congrArg (List.cons _) inserted.next
      · apply inserted.known
        change graph ∈ waiting ++
          (later.antichain.elements ++ (one.identify found).1 :: later.next) at member
        simp only [List.mem_append, List.mem_cons] at member ⊢
        tauto

/-- By induction on the answer. Both searches look at the clock after each graph, and see the same. -/
theorem takeInAll_keeps (beside : Beside pairing waiting one two) {origin : Identified}
    (inside : origin ∈ waiting) (rule : RuleId) (answer : List Yield) :
    Keeps pairing waiting (takeInAll pairing.first origin rule answer one)
      (takeInAll pairing.second (origin.raise pairing.offset) rule answer two) := by
  induction answer generalizing one two with
  | nil => exact ⟨rfl, beside⟩
  | cons first rest ih =>
    cases first with
    | skipped line => exact ih (beside.note line line)
    | graph found =>
      obtain ⟨verdict, beside⟩ := takeIn_keeps beside inside rule found
      rw [takeInAll, takeInAll]
      generalize one.takeIn pairing.first origin rule found = step at verdict beside
      generalize two.takeIn pairing.second (origin.raise pairing.offset) rule found =
        stepTwo at verdict beside
      obtain ⟨ended, middle⟩ := step
      obtain ⟨_, middleTwo⟩ := stepTwo
      cases verdict
      cases ended with
      | stop status => exact ⟨rfl, beside⟩
      | fail fault => exact ⟨rfl, beside⟩
      | proceed =>
        obtain ⟨late, looked⟩ := isOutOfTime_beside beside
        simp only
        generalize middle.isOutOfTime pairing.first = look at late looked
        generalize middleTwo.isOutOfTime pairing.second = lookTwo at late looked
        obtain ⟨isLate, later⟩ := look
        obtain ⟨_, laterTwo⟩ := lookTwo
        cases late
        cases isLate with
        | true => exact ⟨rfl, looked⟩
        | false => exact ih looked

theorem expand_keeps (beside : Beside pairing waiting one two) {graph : Identified}
    (inside : graph ∈ waiting) (rule : Rule) :
    Keeps pairing waiting (one.expand pairing.first graph rule)
      (two.expand pairing.second (graph.raise pairing.offset) rule) := by
  obtain ⟨answer, alike⟩ := pairing.answers beside.source rule graph.graph
  have same : (graph.raise pairing.offset).graph = graph.graph := rfl
  rw [expand, expand, same]
  generalize one.source.reset rule graph.graph = reset at answer alike
  generalize two.source.reset rule graph.graph = resetTwo at answer alike
  obtain ⟨lines, outcome, source⟩ := reset
  obtain ⟨linesTwo, _, sourceTwo⟩ := resetTwo
  cases answer
  have beside : Beside pairing waiting { one.noteAll lines with source }
      { two.noteAll linesTwo with source := sourceTwo } :=
    { beside with source := alike }
  cases outcome with
  | ok yields => exact takeInAll_keeps beside inside rule.id yields
  | error fault => exact ⟨rfl, beside⟩

theorem expandAll_keeps (beside : Beside pairing waiting one two) {graph : Identified}
    (inside : graph ∈ waiting) (rules : List (Except Fault Rule)) :
    Keeps pairing waiting (expandAll pairing.first graph rules one)
      (expandAll pairing.second (graph.raise pairing.offset) rules two) := by
  induction rules generalizing one two with
  | nil => exact ⟨rfl, beside⟩
  | cons first rest ih =>
    cases first with
    | error fault => exact ⟨rfl, beside⟩
    | ok rule =>
      obtain ⟨verdict, beside⟩ := expand_keeps beside inside rule
      rw [expandAll, expandAll]
      generalize one.expand pairing.first graph rule = step at verdict beside
      generalize two.expand pairing.second (graph.raise pairing.offset) rule =
        stepTwo at verdict beside
      obtain ⟨ended, middle⟩ := step
      obtain ⟨_, middleTwo⟩ := stepTwo
      cases verdict
      cases ended with
      | proceed => exact ih beside
      | stop status => exact ⟨rfl, beside⟩
      | fail fault => exact ⟨rfl, beside⟩

/-- A graph has left both antichains or none. -/
theorem expandRound_keeps (prepared : Prepared) (beside : Beside pairing waiting one two)
    {graphs : List Identified} (inside : ∀ graph ∈ graphs, graph ∈ waiting) :
    Keeps pairing waiting (expandRound pairing.first prepared graphs one)
      (expandRound pairing.second prepared (graphs.map (Identified.raise pairing.offset)) two) := by
  induction graphs generalizing one two with
  | nil => exact ⟨rfl, beside⟩
  | cons graph rest ih =>
    rw [List.forall_mem_cons] at inside
    have present : two.antichain.contains (graph.raise pairing.offset).id =
        one.antichain.contains graph.id := by
      rw [beside.antichain]
      exact Antichain.contains_raise pairing.offset one.antichain graph.id
    rw [List.map_cons, expandRound, expandRound, present]
    cases one.antichain.contains graph.id with
    | true =>
      obtain ⟨verdict, beside⟩ := expandAll_keeps beside inside.1 (prepared.rulesFor graph.graph)
      have same : (graph.raise pairing.offset).graph = graph.graph := rfl
      simp only [if_true, same]
      generalize expandAll pairing.first graph (prepared.rulesFor graph.graph) one =
        step at verdict beside
      generalize expandAll pairing.second (graph.raise pairing.offset)
        (prepared.rulesFor graph.graph) two = stepTwo at verdict beside
      obtain ⟨ended, middle⟩ := step
      obtain ⟨_, middleTwo⟩ := stepTwo
      cases verdict
      cases ended with
      | proceed => exact ih beside inside.2
      | stop status => exact ⟨rfl, beside⟩
      | fail fault => exact ⟨rfl, beside⟩
    | false =>
      have self := beside.known graph (List.mem_append_left _ inside.1)
      exact ih (beside.emit (.skipped graph.ref) (List.forall_mem_singleton.mpr self)) inside.2

theorem Witnessed.ids_known {status : Status}
    (witnessed : Witnessed pairing.first (.stop status) one)
    (beside : Beside pairing waiting one two) :
    ∀ id ∈ status.ids, id.Between pairing.start one.allocator.issued := by
  cases status with
  | covered graph index =>
    obtain ⟨witness, inside, rfl, _⟩ := witnessed graph index rfl
    exact List.forall_mem_singleton.mpr (beside.known witness
      (List.mem_append_right _ (List.mem_append_left _ inside)))
  | _ => exact nofun

/-- After a round the graphs that it has generated are waiting. -/
theorem Beside.turned (beside : Beside pairing waiting one two) (round : Nat) :
    Beside pairing one.next (one.turned pairing.first round) (two.turned pairing.second round) := by
  have finished := beside.emit (.roundFinished round one.next.length) nofun
  have same : (Event.roundFinished round one.next.length).raise pairing.offset =
      .roundFinished round two.next.length := by
    rw [beside.next, List.length_map]
    rfl
  rw [same] at finished
  refine { finished with
    next := rfl
    known := fun graph member => beside.known graph (List.mem_append_right _ ?_) }
  change graph ∈ one.next ++ (one.antichain.elements ++ []) at member
  rw [List.append_nil] at member
  exact (List.mem_append.mp member).elim (List.mem_append_right _) (List.mem_append_left _)

/-- Both searches have ended, after as many rounds. A status names a graph whose identity the first
search has issued. -/
structure Ends (pairing : Pairing τ υ) (first : Except Fault Status × Nat × Search τ)
    (second : Except Fault Status × Nat × Search υ) :
    Prop where
  answer : second.1 = first.1.map (Status.raise pairing.offset)
  rounds : second.2.1 = first.2.1
  status : ∀ status, first.1 = .ok status →
    ∀ id ∈ status.ids, id.Between pairing.start first.2.2.allocator.issued
  beside : Beside pairing [] first.2.2 second.2.2

private theorem names_none {status : Status} (none : status.ids = []) {low high : Nat} :
    ∀ other, (Except.ok status : Except Fault Status) = .ok other →
      ∀ id ∈ other.ids, id.Between low high := by
  intro other same id member
  cases same
  rw [none] at member
  cases member

theorem runRounds_ends (prepared : Prepared) (allowed round : Nat)
    (beside : Beside pairing waiting one two) :
    Option.Rel (Ends pairing) (runRounds pairing.first prepared allowed round waiting one)
      (runRounds pairing.second prepared allowed round
        (waiting.map (Identified.raise pairing.offset)) two) := by
  induction allowed generalizing waiting one two round with
  | zero =>
    cases waiting with
    | nil => exact .some ⟨rfl, rfl, names_none rfl, beside⟩
    | cons graph rest => exact .none
  | succ allowed ih =>
    cases waiting with
    | nil => exact .some ⟨rfl, rfl, names_none rfl, beside⟩
    | cons graph rest =>
      have started : Beside pairing (graph :: rest)
          (one.started pairing.first (round + 1) (graph :: rest))
          (two.started pairing.second (round + 1)
            ((graph :: rest).map (Identified.raise pairing.offset))) :=
        (beside.emit (.roundStarted (round + 1)) nofun).note _ _
      have witnessed := expandRound_witnessed pairing.first prepared (graph :: rest)
        (one.started pairing.first (round + 1) (graph :: rest))
      obtain ⟨verdict, beside⟩ :=
        expandRound_keeps prepared started
          fun (other : Identified) (member : other ∈ graph :: rest) => member
      rw [runRounds_cons, List.map_cons, runRounds_cons, ← List.map_cons]
      generalize expandRound pairing.first prepared (graph :: rest) _ =
        step at verdict beside witnessed
      generalize expandRound pairing.second prepared
        ((graph :: rest).map (Identified.raise pairing.offset)) _ = stepTwo at verdict beside
      obtain ⟨ended, middle⟩ := step
      obtain ⟨_, middleTwo⟩ := stepTwo
      cases verdict
      cases ended with
      | fail fault => exact .some ⟨rfl, rfl, nofun, beside.forget (List.nil_subset _)⟩
      | stop status =>
        refine .some ⟨rfl, rfl, fun other same => ?_, beside.forget (List.nil_subset _)⟩
        cases same
        exact witnessed.ids_known beside
      | proceed =>
        have next : middleTwo.next = middle.next.map (Identified.raise pairing.offset) := beside.next
        have turned := ih (round + 1) (beside.turned (round + 1))
        rwa [← next] at turned

/-- All error graphs that have been taken in are waiting, with the last one first. -/
theorem takeInErrors_beside (beside : Beside pairing waiting one two) (graphs : List Hypergraph) :
    (takeInErrors pairing.second graphs (waiting.map (Identified.raise pairing.offset)) two).1 =
        (takeInErrors pairing.first graphs waiting one).1.map (Identified.raise pairing.offset) ∧
      Beside pairing (takeInErrors pairing.first graphs waiting one).1
        (takeInErrors pairing.first graphs waiting one).2
        (takeInErrors pairing.second graphs
          (waiting.map (Identified.raise pairing.offset)) two).2 := by
  induction graphs generalizing waiting one two with
  | nil => exact ⟨rfl, beside⟩
  | cons found rest ih =>
    obtain ⟨same, identified⟩ := beside.identify found
    have self := identified.known (one.identify found).1 (List.mem_append_left _ List.mem_cons_self)
    have told :=
      identified.emit (.errorGraph (one.identify found).1.ref) (List.forall_mem_singleton.mpr self)
    rw [takeInErrors, takeInErrors]
    simp only [same]
    exact ih (told.insert List.mem_cons_self).2

theorem run_ends (prepared : Prepared) (errorGraphs : List Hypergraph) (allowed : Nat)
    (beside : Beside pairing [] one two) :
    Option.Rel (Ends pairing) (one.run pairing.first prepared errorGraphs allowed)
      (two.run pairing.second prepared errorGraphs allowed) := by
  obtain ⟨listed, beside⟩ := takeInErrors_beside beside errorGraphs
  rw [List.map_nil] at listed beside
  rw [run, run]
  generalize takeInErrors pairing.first errorGraphs [] one = step at listed beside
  generalize takeInErrors pairing.second errorGraphs [] two = stepTwo at listed beside
  obtain ⟨worklist, taken⟩ := step
  obtain ⟨_, takenTwo⟩ := stepTwo
  cases listed
  have covered := covered?_raise pairing worklist.reverse
  rw [List.map_reverse] at covered
  simp only [covered]
  cases found : pairing.first.covered? worklist.reverse with
  | some status =>
    have listed : ∀ graph ∈ worklist.reverse, graph.id.Between pairing.start taken.allocator.issued :=
      fun graph member => beside.known graph (List.mem_append_left _ (List.mem_reverse.mp member))
    refine .some ⟨rfl, rfl, fun other same => ?_, beside.forget (List.nil_subset _)⟩
    cases same
    exact covered?_known found listed
  | none =>
    obtain ⟨late, looked⟩ := isOutOfTime_beside beside
    simp only [Option.map_none]
    generalize taken.isOutOfTime pairing.first = look at late looked
    generalize takenTwo.isOutOfTime pairing.second = lookTwo at late looked
    obtain ⟨isLate, later⟩ := look
    obtain ⟨_, laterTwo⟩ := lookTwo
    cases late
    cases isLate with
    | true => exact .some ⟨rfl, rfl, names_none rfl, looked.forget (List.nil_subset _)⟩
    | false => exact runRounds_ends prepared allowed 0 looked

/-- The end is told of as an event like any other. Only the names of the graphs change. -/
theorem telling_conclude (setting : Setting τ) (search : Search τ) (status : Status) (rounds : Nat) :
    Telling setting.sink search [.finished status]
      { search.conclude setting status rounds with antichain := search.antichain } := by
  cases status <;> exact ⟨⟨rfl, rfl, rfl, rfl⟩, rfl, rfl⟩

theorem antichain_conclude (setting : Setting τ) (search : Search τ) (status : Status)
    (rounds : Nat) :
    (search.conclude setting status rounds).antichain = search.antichain.concluded status := by
  cases status <;> rfl

end Search

end Coverability
