import Coverability.Proofs.Driver

/-! The rounds of a backward search. Between two expansions every element of the antichain has been
expanded or is still to be, so after the last round all of them have been. -/

namespace Coverability.Search

variable {τ : Type} {setting : Setting τ} {good : Hypergraph → Prop} {search after : Search τ}

/-- The inquiries about an element, by its identity, exhaust the rules that there are for it. -/
def Expanded (prepared : Prepared) (done : List Inquiry) (element : Identified) : Prop :=
  Exhausts element (prepared.rulesFor element.graph)
    (done.filter fun inquiry => inquiry.origin.id = element.id)

/-- Between two expansions of a round, every element has been expanded or is still to be. Identities
are not used twice, so no graph that is still to be expanded has been inquired about. -/
structure Ledger (setting : Setting τ) (prepared : Prepared) (done : List Inquiry)
    (waiting : List Identified) (search : Search τ) : Prop where
  distinct : ((waiting ++ search.next).map Identified.id).Nodup
  issued : ∀ graph ∈ waiting ++ search.next, graph.id.number < search.allocator.issued
  past : ∀ inquiry ∈ done, inquiry.origin.id ∉ (waiting ++ search.next).map Identified.id ∧
    inquiry.origin.id.number < search.allocator.issued
  known : ∀ element ∈ search.antichain.elements,
    ∀ graph ∈ waiting ++ search.next, graph.id = element.id → graph = element
  settled : ∀ element ∈ search.antichain.elements, element ∈ waiting ++ search.next ∨
    Expanded prepared done element
  uncovered : setting.checkInitial = true →
    ∀ element ∈ search.antichain.elements, ∀ initial ∈ setting.initial,
    setting.order.le element.graph initial = false

private theorem Ledger.of_same {prepared : Prepared} {done : List Inquiry}
    {waiting later : List Identified} (ledger : Ledger setting prepared done waiting search)
    (antichain : after.antichain = search.antichain)
    (allocator : after.allocator = search.allocator)
    (queue : later ++ after.next = waiting ++ search.next) :
    Ledger setting prepared done later after := by
  obtain ⟨distinct, issued, past, known, settled, uncovered⟩ := ledger
  refine ⟨?_, ?_, ?_, ?_, ?_, ?_⟩
  · rwa [queue]
  · rwa [queue, allocator]
  · rwa [queue, allocator]
  · rwa [queue, antichain]
  · rwa [queue, antichain]
  · rwa [antichain]

private theorem Ledger.skip {prepared : Prepared} {done : List Inquiry} {graph : Identified}
    {waiting : List Identified} (ledger : Ledger setting prepared done (graph :: waiting) search)
    (alike : Alike search after) (gone : graph.id ∉ search.antichain.elements.map Identified.id) :
    Ledger setting prepared done waiting after := by
  obtain ⟨distinct, issued, past, known, settled, uncovered⟩ := ledger
  have fewer : ∀ other ∈ waiting ++ search.next, other ∈ graph :: waiting ++ search.next :=
    fun _ member => List.mem_cons_of_mem _ member
  refine ⟨?_, ?_, ?_, ?_, ?_, ?_⟩
  · rw [alike.next]
    exact (List.nodup_cons.mp distinct).2
  · rw [alike.next, alike.allocator]
    exact fun other member => issued other (fewer other member)
  · rw [alike.next, alike.allocator]
    exact fun inquiry member =>
      ⟨fun again => (past inquiry member).1 (List.mem_cons_of_mem _ again), (past inquiry member).2⟩
  · rw [alike.next, alike.antichain]
    exact fun element member other inside => known element member other (fewer other inside)
  · rw [alike.next, alike.antichain]
    intro element member
    refine (settled element member).imp_left fun inside => (List.mem_cons.mp inside).resolve_left ?_
    rintro rfl
    exact gone (List.mem_map_of_mem member)
  · rw [alike.antichain]
    exact uncovered

private theorem Expanded.append {prepared : Prepared} {done made : List Inquiry}
    {element graph : Identified} (expanded : Expanded prepared done element)
    (origin : ∀ inquiry ∈ made, inquiry.origin = graph) (other : graph.id ≠ element.id) :
    Expanded prepared (done ++ made) element := by
  have none : made.filter (fun inquiry => inquiry.origin.id = element.id) = [] := by
    rw [List.filter_eq_nil_iff]
    intro inquiry member
    rw [origin inquiry member]
    simpa using other
  rw [Expanded, List.filter_append, none, List.append_nil]
  exact expanded

private theorem Exhausts.expanded {prepared : Prepared} {done made : List Inquiry}
    {graph : Identified} (exhausts : Exhausts graph (prepared.rulesFor graph.graph) made)
    (first : ∀ inquiry ∈ done, inquiry.origin.id ≠ graph.id) :
    Expanded prepared (done ++ made) graph := by
  have none : done.filter (fun inquiry => inquiry.origin.id = graph.id) = [] := by
    rw [List.filter_eq_nil_iff]
    intro inquiry member
    simpa using first inquiry member
  have all : made.filter (fun inquiry => inquiry.origin.id = graph.id) = made := by
    rw [List.filter_eq_self]
    intro inquiry member
    rw [(exhausts.2 inquiry member).1]
    exact decide_eq_true rfl
  rw [Expanded, List.filter_append, none, all, List.nil_append]
  exact exhausts

private theorem Ledger.inquired {prepared : Prepared} {done made : List Inquiry}
    {graph : Identified} {waiting : List Identified}
    (ledger : Ledger setting prepared done (graph :: waiting) search)
    (exhausts : Exhausts graph (prepared.rulesFor graph.graph) made) :
    Ledger setting prepared (done ++ made) waiting search := by
  obtain ⟨distinct, issued, past, known, settled, uncovered⟩ := ledger
  obtain ⟨once, distinct⟩ := List.nodup_cons.mp distinct
  have self : graph ∈ graph :: waiting ++ search.next := List.mem_cons_self
  have fewer : ∀ other ∈ waiting ++ search.next, other ∈ graph :: waiting ++ search.next :=
    fun _ member => List.mem_cons_of_mem _ member
  refine ⟨distinct, fun other member => issued other (fewer other member), fun inquiry member => ?_,
    fun element member other inside => known element member other (fewer other inside),
      fun element member => ?_, uncovered⟩
  · rcases List.mem_append.mp member with early | late
    · exact ⟨fun again => (past inquiry early).1 (List.mem_cons_of_mem _ again),
        (past inquiry early).2⟩
    · rw [(exhausts.2 inquiry late).1]
      exact ⟨once, issued graph self⟩
  · by_cases same : graph.id = element.id
    · obtain rfl := known element member graph self same
      exact .inr (exhausts.expanded fun inquiry early again =>
        (past inquiry early).1 (again ▸ List.mem_map_of_mem self))
    · rcases settled element member with inside | expanded
      · refine .inl ((List.mem_cons.mp inside).resolve_left ?_)
        rintro rfl
        exact same rfl
      · exact .inr (expanded.append (fun inquiry late => (exhausts.2 inquiry late).1) same)

private theorem Ledger.grow {prepared : Prepared} {done : List Inquiry}
    {waiting added : List Identified} (ledger : Ledger setting prepared done waiting search)
    (below : ∀ element ∈ search.antichain.elements, element.id.number < search.allocator.issued)
    (grown : Grown setting search after added) : Ledger setting prepared done waiting after := by
  obtain ⟨distinct, issued, past, known, settled, uncovered⟩ := ledger
  have perm : (waiting ++ after.next).Perm (added ++ (waiting ++ search.next)) := by
    rw [grown.next, ← List.append_assoc, ← List.append_assoc]
    exact List.perm_append_comm.append_right _
  have mem_after : ∀ {other}, other ∈ waiting ++ after.next ↔
      other ∈ added ∨ other ∈ waiting ++ search.next :=
    perm.mem_iff.trans List.mem_append
  have apart (new : Identified) (atNew : new ∈ added) (old : GraphId)
      (before : old.number < search.allocator.issued) : new.id ≠ old := by
    intro same
    have above := (grown.fresh new atNew).1
    rw [same] at above
    omega
  refine ⟨?_, ?_, ?_, ?_, ?_, ?_⟩
  · rw [(perm.map _).nodup_iff, List.map_append, List.nodup_append]
    refine ⟨grown.distinct, distinct, fun id atNew other atOld same => ?_⟩
    obtain ⟨new, member, rfl⟩ := List.mem_map.mp atNew
    obtain ⟨old, memberOld, rfl⟩ := List.mem_map.mp atOld
    exact apart new member old.id (issued old memberOld) same
  · intro other member
    rcases mem_after.mp member with new | old
    · exact (grown.fresh other new).2
    · exact Nat.lt_of_lt_of_le (issued other old) grown.issued
  · intro inquiry member
    refine ⟨fun again => ?_, Nat.lt_of_lt_of_le (past inquiry member).2 grown.issued⟩
    obtain ⟨other, inside, same⟩ := List.mem_map.mp again
    rcases mem_after.mp inside with new | old
    · exact apart other new _ (past inquiry member).2 same
    · exact (past inquiry member).1 (same ▸ List.mem_map_of_mem old)
  · intro element member other inside same
    rcases grown.kept element member, mem_after.mp inside with ⟨old | new, newOther | oldOther⟩
    · exact absurd same (apart other newOther _ (below element old))
    · exact known element old other oldOther same
    · exact List.inj_on_of_nodup_map grown.distinct newOther new same
    · exact absurd same.symm (apart element new _ (issued other oldOther))
  · intro element member
    rcases grown.kept element member with old | new
    · exact (settled element old).imp_left fun inside => mem_after.mpr (.inr inside)
    · exact .inl (mem_after.mpr (.inl new))
  · intro checked element member
    rcases grown.kept element member with old | new
    · exact uncovered checked element old
    · exact grown.uncovered checked element new

theorem inquireAll_asked (setting : Setting τ) (graph : Identified)
    (rules : List (Except Fault Rule)) (search : Search τ) :
    ∀ inquiry ∈ inquireAll setting graph rules search, inquiry.origin = graph ∧
      .ok inquiry.rule ∈ rules := by
  induction rules generalizing search with
  | nil => exact nofun
  | cons first rest ih =>
    cases first with
    | error fault => exact nofun
    | ok rule =>
      intro inquiry member
      rw [inquireAll] at member
      rcases List.mem_append.mp member with now | later
      · rw [inquire] at now
        simp only at now
        split at now
        · rw [List.mem_singleton.mp now]
          exact ⟨rfl, List.mem_cons_self⟩
        · cases now
      · split at later
        · obtain ⟨origin, asked⟩ := ih _ inquiry later
          exact ⟨origin, List.mem_cons_of_mem _ asked⟩
        · cases later

theorem inquireRound_asked (setting : Setting τ) (prepared : Prepared) (waiting : List Identified)
    (search : Search τ) :
    ∀ inquiry ∈ inquireRound setting prepared waiting search,
      inquiry.origin ∈ waiting ∧ .ok inquiry.rule ∈ prepared.rulesFor inquiry.origin.graph := by
  induction waiting generalizing search with
  | nil => exact nofun
  | cons graph rest ih =>
    intro inquiry member
    have later : ∀ search, inquiry ∈ inquireRound setting prepared rest search →
        inquiry.origin ∈ graph :: rest ∧ .ok inquiry.rule ∈ prepared.rulesFor inquiry.origin.graph :=
      fun search member => (ih search inquiry member).imp_left (List.mem_cons_of_mem _)
    rw [inquireRound] at member
    split at member
    · rcases List.mem_append.mp member with now | rest
      · obtain ⟨origin, asked⟩ := inquireAll_asked setting graph _ search inquiry now
        rw [origin]
        exact ⟨List.mem_cons_self, asked⟩
      · split at rest
        · exact later _ rest
        · cases rest
    · exact later _ member

theorem expandRound_course (lawful : setting.order.LawfulOn good) (prepared : Prepared)
    (waiting : List Identified) (search : Search τ) :
    Course setting good search (inquireRound setting prepared waiting search)
      (expandRound setting prepared waiting search).1
      (expandRound setting prepared waiting search).2 := by
  induction waiting generalizing search with
  | nil => exact .of_alike (.refl search)
  | cons graph rest ih =>
    rw [expandRound, inquireRound]
    split
    · obtain ⟨course, _⟩ := expandAll_course lawful search graph (prepared.rulesFor graph.graph)
      generalize expandAll setting graph (prepared.rulesFor graph.graph) search = step at course
      obtain ⟨verdict, middle⟩ := step
      cases verdict with
      | stop status =>
        simp only [List.append_nil]
        exact course
      | fail fault =>
        simp only [List.append_nil]
        exact course
      | proceed => exact course.trans (ih middle)
    · exact (Course.of_alike (alike_emit setting search (.skipped graph.ref))).trans (ih _)

/-- A source that answers good graphs with good ones. -/
def Trusted (good : Hypergraph → Prop) (made : List Inquiry) : Prop :=
  ∀ inquiry ∈ made, good inquiry.origin.graph → ∀ graph ∈ inquiry.heard, good graph

private theorem Trusted.heard {made : List Inquiry} {waiting : List Identified}
    (trusted : Trusted good made) (origins : ∀ inquiry ∈ made, inquiry.origin ∈ waiting)
    (fit : ∀ graph ∈ waiting, good graph.graph) :
    ∀ graph ∈ made.flatMap Inquiry.heard, good graph := by
  intro graph member
  obtain ⟨inquiry, inside, heard⟩ := List.mem_flatMap.mp member
  exact trusted inquiry inside (fit _ (origins inquiry inside)) graph heard

theorem expandRound_ledger (lawful : setting.order.LawfulOn good) {prepared : Prepared}
    {heard : List Hypergraph} {done : List Inquiry} {waiting : List Identified}
    (sound : Sound setting good search heard) (fit : ∀ graph ∈ waiting, good graph.graph)
    (trusted : Trusted good (inquireRound setting prepared waiting search))
    (ledger : Ledger setting prepared done waiting search)
    (goesOn : (expandRound setting prepared waiting search).1 = .proceed) :
    Ledger setting prepared (done ++ inquireRound setting prepared waiting search) []
      (expandRound setting prepared waiting search).2 := by
  induction waiting generalizing search heard done with
  | nil =>
    rw [inquireRound, List.append_nil]
    exact ledger
  | cons graph rest ih =>
    rw [List.forall_mem_cons] at fit
    rw [expandRound] at goesOn ⊢
    rw [inquireRound] at trusted ⊢
    by_cases present : search.antichain.contains graph.id = true
    · simp only [present, if_true] at trusted goesOn ⊢
      have origins : ∀ inquiry ∈ inquireAll setting graph (prepared.rulesFor graph.graph) search,
          inquiry.origin = graph :=
        fun inquiry member =>
          (inquireAll_asked setting graph (prepared.rulesFor graph.graph) search inquiry member).1
      obtain ⟨course, exhausts⟩ :=
        expandAll_course lawful search graph (prepared.rulesFor graph.graph)
      generalize inquireAll setting graph (prepared.rulesFor graph.graph) search =
        made at trusted course exhausts origins ⊢
      generalize expandAll setting graph (prepared.rulesFor graph.graph) search =
        step at trusted course exhausts goesOn ⊢
      obtain ⟨verdict, middle⟩ := step
      cases verdict with
      | stop status => cases goesOn
      | fail fault => cases goesOn
      | proceed =>
        obtain ⟨added, grown, _⟩ := course.intake.grown rfl
        have now : Trusted good made :=
          fun inquiry member => trusted inquiry (List.mem_append_left _ member)
        have later : Trusted good (inquireRound setting prepared rest middle) := fun inquiry member =>
          trusted inquiry (List.mem_append_right _ member)
        have heardGood :=
          now.heard (fun inquiry member => List.mem_singleton.mpr (origins inquiry member))
            (List.forall_mem_singleton.mpr fit.1)
        have ledger :=
          ih (course.intake.sound heard heardGood sound) fit.2 later
            ((ledger.inquired (exhausts rfl)).grow sound.issued grown) goesOn
        rwa [List.append_assoc] at ledger
    · rw [if_neg present] at trusted goesOn ⊢
      rw [if_neg present]
      have gone : graph.id ∉ search.antichain.elements.map Identified.id := fun inside =>
        present ((Antichain.contains_iff sound.valid).mpr inside)
      have alike := alike_emit setting search (.skipped graph.ref)
      exact ih (sound.of_alike alike) fit.2 trusted (ledger.skip alike gone) goesOn

/-- What holds before a round. -/
structure Ready (setting : Setting τ) (good : Hypergraph → Prop) (prepared : Prepared)
    (heard : List Hypergraph) (done : List Inquiry) (waiting : List Identified)
    (search : Search τ) : Prop where
  sound : Sound setting good search heard
  ledger : Ledger setting prepared done waiting search
  idle : search.next = []
  fit : ∀ graph ∈ waiting, good graph.graph

private theorem Ready.round (lawful : setting.order.LawfulOn good) {prepared : Prepared}
    {heard : List Hypergraph} {done : List Inquiry} {waiting : List Identified} {started : Search τ}
    (ready : Ready setting good prepared heard done waiting search) (alike : Alike search started)
    (trusted : Trusted good (inquireRound setting prepared waiting started))
    (goesOn : (expandRound setting prepared waiting started).1 = .proceed) (round : Nat) :
    Ready setting good prepared
      (heard ++ (inquireRound setting prepared waiting started).flatMap Inquiry.heard)
        (done ++ inquireRound setting prepared waiting started)
          (expandRound setting prepared waiting started).2.next
        ((expandRound setting prepared waiting started).2.turned setting round) ∧
      (expandRound setting prepared waiting started).2.next.map Identified.graph ⊆
        (inquireRound setting prepared waiting started).flatMap Inquiry.heard := by
  obtain ⟨sound, ledger, idle, fit⟩ := ready
  have soundStarted := sound.of_alike alike
  have ledgerStarted : Ledger setting prepared done waiting started :=
    ledger.of_same alike.antichain alike.allocator (by rw [alike.next])
  have ledgerAfter := expandRound_ledger lawful soundStarted fit trusted ledgerStarted goesOn
  have heardGood := trusted.heard
    (fun inquiry member => (inquireRound_asked setting prepared _ _ inquiry member).1) fit
  have course := expandRound_course lawful prepared waiting started
  obtain ⟨added, ⟨next, _⟩, known⟩ := course.intake.grown goesOn
  rw [alike.next, idle, List.append_nil] at next
  have fromHeard : ∀ graph ∈ (expandRound setting prepared waiting started).2.next,
      graph.graph ∈ (inquireRound setting prepared waiting started).flatMap Inquiry.heard :=
        fun graph member => known graph (next ▸ member)
  refine ⟨⟨(course.intake.sound heard heardGood soundStarted).of_same rfl rfl,
    ledgerAfter.of_same rfl rfl (List.append_nil _), rfl,
    fun graph member => heardGood _ (fromHeard graph member)⟩, fun target member => ?_⟩
  obtain ⟨graph, inside, rfl⟩ := List.mem_map.mp member
  exact fromHeard graph inside

/-- In every round only graphs are inquired about that were known before, or heard in the round before. -/
inductive Linked : List Hypergraph → List (List Inquiry) → Prop
  | nil (known : List Hypergraph) : Linked known []
  | cons {known : List Hypergraph} {made : List Inquiry} {rest : List (List Inquiry)} :
    (∀ inquiry ∈ made, inquiry.origin.graph ∈ known) → Linked (made.flatMap Inquiry.heard) rest →
    Linked known (made :: rest)

theorem Linked.mono {known more : List Hypergraph} {rounds : List (List Inquiry)}
    (linked : Linked known rounds) (fewer : known ⊆ more) :
    Linked more rounds := by
  cases linked with
  | nil => exact .nil more
  | cons first rest => exact .cons (fun inquiry member => fewer (first inquiry member)) rest

/-- What holds of the graphs known at first, and goes from a graph to what is heard about it, holds
of all graphs that are inquired about or heard. -/
theorem Linked.all {known : List Hypergraph} {rounds : List (List Inquiry)}
    (linked : Linked known rounds) (holds : Hypergraph → Prop) (start : ∀ graph ∈ known, holds graph)
    (step : ∀ inquiry ∈ rounds.flatten, holds inquiry.origin.graph →
      ∀ graph ∈ inquiry.heard, holds graph) :
    ∀ inquiry ∈ rounds.flatten, holds inquiry.origin.graph ∧
      ∀ graph ∈ inquiry.heard, holds graph := by
  induction linked with
  | nil => exact nofun
  | @cons known made rest origins _ ih =>
    rw [List.flatten_cons, List.forall_mem_append] at step
    have now : ∀ inquiry ∈ made, holds inquiry.origin.graph ∧
        ∀ graph ∈ inquiry.heard, holds graph := by
      intro inquiry member
      have origin := start _ (origins inquiry member)
      exact ⟨origin, step.1 inquiry member origin⟩
    rw [List.flatten_cons, List.forall_mem_append]
    refine ⟨now, ih (fun graph member => ?_) step.2⟩
    obtain ⟨inquiry, inside, heard⟩ := List.mem_flatMap.mp member
    exact (now inquiry inside).2 graph heard

/-- What the rounds of a search come to. -/
structure Rounds (setting : Setting τ) (good : Hypergraph → Prop) (prepared : Prepared)
    (heard : List Hypergraph) (done : List Inquiry) (known : List Hypergraph)
    (rounds : List (List Inquiry)) (status : Status) (after : Search τ) : Prop where
  sound : Sound setting good after (heard ++ rounds.flatten.flatMap Inquiry.heard)
  complete : status = .converged → Ledger setting prepared (done ++ rounds.flatten) [] after ∧
    after.next = [] ∧
    Linked known rounds

private theorem Ready.rounds_nil {prepared : Prepared} {heard : List Hypergraph}
    {done : List Inquiry} {known : List Hypergraph}
    (ready : Ready setting good prepared heard done [] search) :
    Rounds setting good prepared heard done known [] .converged search where
  sound := (List.append_nil heard).symm ▸ ready.sound
  complete _ := ⟨(List.append_nil done).symm ▸ ready.ledger, ready.idle, .nil _⟩

private theorem Rounds.cons {prepared : Prepared} {heard known next : List Hypergraph}
    {done made : List Inquiry} {rounds : List (List Inquiry)} {status : Status}
    (later : Rounds setting good prepared (heard ++ made.flatMap Inquiry.heard) (done ++ made)
      next rounds status after)
    (origins : ∀ inquiry ∈ made, inquiry.origin.graph ∈ known)
    (fromHeard : next ⊆ made.flatMap Inquiry.heard) :
    Rounds setting good prepared heard done known (made :: rounds) status after := by
  obtain ⟨sound, complete⟩ := later
  refine ⟨?_, fun converged => ?_⟩
  · rwa [List.append_assoc, ← List.flatMap_append] at sound
  · obtain ⟨ledger, idle, linked⟩ := complete converged
    rw [List.append_assoc] at ledger
    exact ⟨ledger, idle, .cons origins (linked.mono fromHeard)⟩

theorem runRounds_cons (prepared : Prepared) (allowed round : Nat) (graph : Identified)
    (rest : List Identified) :
    runRounds setting prepared (allowed + 1) round (graph :: rest) search =
      match expandRound setting prepared (graph :: rest)
        (search.started setting (round + 1) (graph :: rest)) with
      | (.proceed, search) =>
        runRounds setting prepared allowed (round + 1) search.next (search.turned setting (round + 1))
      | (.stop status, search) => some (.ok status, round + 1, search)
      | (.fail fault, search) => some (.error fault, round + 1, search) := rfl

theorem inquireRounds_cons (prepared : Prepared) (allowed round : Nat) (graph : Identified)
    (rest : List Identified) :
    inquireRounds setting prepared (allowed + 1) round (graph :: rest) search =
      inquireRound setting prepared (graph :: rest)
        (search.started setting (round + 1) (graph :: rest)) ::
        match expandRound setting prepared (graph :: rest)
          (search.started setting (round + 1) (graph :: rest)) with
        | (.proceed, search) =>
          inquireRounds setting prepared allowed (round + 1) search.next
            (search.turned setting (round + 1))
        | _ => [] := rfl

/-- The inquiries of some rounds tell how the source has been reset, from the start to an end
without a fault. Nothing has been heard that it has not answered. -/
structure Inquired (search : Search τ) (made : List Inquiry)
    (ending : Option (Except Fault Status × Nat × Search τ)) : Prop where
  resets : ∃ last, search.source.Resets made last ∧
    ∀ status rounds after, ending = some (.ok status, rounds, after) → after.source = last
  heard : ∀ inquiry ∈ made, inquiry.heard ⊆ inquiry.answer.filterMap Yield.graph?

theorem Inquired.idle {answer : Except Fault Status} {rounds : Nat} (same : after.source = search.source) :
    Inquired search [] (some (answer, rounds, after)) where
  resets := by
    refine ⟨search.source, .nil _, fun _ _ _ ended => ?_⟩
    cases ended
    exact same
  heard := nofun

theorem inquireRounds_inquired (setting : Setting τ) (prepared : Prepared) (allowed round : Nat)
    (waiting : List Identified) (search : Search τ) :
    Inquired search (inquireRounds setting prepared allowed round waiting search).flatten
      (runRounds setting prepared allowed round waiting search) := by
  have lawless : setting.order.LawfulOn fun _ => False := ⟨nofun, nofun⟩
  induction allowed generalizing search waiting round with
  | zero =>
    cases waiting with
    | nil => exact .idle rfl
    | cons graph rest => exact ⟨⟨search.source, .nil _, nofun⟩, nofun⟩
  | succ allowed ih =>
    cases waiting with
    | nil => exact .idle rfl
    | cons graph rest =>
      have course :=
        expandRound_course lawless prepared (graph :: rest)
          (search.started setting (round + 1) (graph :: rest))
      rw [inquireRounds_cons, runRounds_cons]
      generalize expandRound setting prepared (graph :: rest)
        (search.started setting (round + 1) (graph :: rest)) = step at course
      obtain ⟨verdict, middle⟩ := step
      cases verdict with
      | proceed =>
        obtain ⟨⟨last, resets, ends⟩, heard⟩ :=
          ih (round + 1) middle.next (middle.turned setting (round + 1))
        exact ⟨⟨last, (course.resets_unfailing nofun).append resets, ends⟩,
          List.forall_mem_append.mpr ⟨course.heard, heard⟩⟩
      | stop status =>
        simp only [List.flatten_cons, List.flatten_nil, List.append_nil]
        refine ⟨⟨middle.source, course.resets_unfailing nofun, fun _ _ _ ended => ?_⟩, course.heard⟩
        cases ended
        rfl
      | fail fault =>
        simp only [List.flatten_cons, List.flatten_nil, List.append_nil]
        obtain ⟨last, resets, _⟩ := course.resets
        exact ⟨⟨last, resets, nofun⟩, course.heard⟩

/-- Every inquiry puts one of the rules for its graph to the source. -/
theorem inquireRounds_asked (setting : Setting τ) (prepared : Prepared) (allowed round : Nat)
    (waiting : List Identified) (search : Search τ) :
    ∀ inquiry ∈ (inquireRounds setting prepared allowed round waiting search).flatten,
      .ok inquiry.rule ∈ prepared.rulesFor inquiry.origin.graph := by
  induction allowed generalizing search waiting round with
  | zero => cases waiting <;> exact nofun
  | succ allowed ih =>
    cases waiting with
    | nil => exact nofun
    | cons graph rest =>
      intro inquiry member
      rw [inquireRounds_cons, List.flatten_cons, List.mem_append] at member
      rcases member with now | later
      · exact (inquireRound_asked setting prepared (graph :: rest) _ inquiry now).2
      · split at later
        · exact ih _ _ _ inquiry later
        · cases later

theorem inquiries_asked (setting : Setting τ) (prepared : Prepared) (errorGraphs : List Hypergraph)
    (allowed : Nat) (search : Search τ) :
    ∀ inquiry ∈ (search.inquiries setting prepared errorGraphs allowed).flatten,
      .ok inquiry.rule ∈ prepared.rulesFor inquiry.origin.graph := by
  rw [inquiries]
  dsimp only
  split
  · exact nofun
  · split
    · exact nofun
    · exact inquireRounds_asked setting prepared allowed 0 _ _

theorem runRounds_rounds (lawful : setting.order.LawfulOn good) {prepared : Prepared}
    {heard : List Hypergraph} {done : List Inquiry} {waiting : List Identified}
    {allowed round last : Nat} {status : Status}
    (ready : Ready setting good prepared heard done waiting search)
    (trusted : Trusted good (inquireRounds setting prepared allowed round waiting search).flatten)
    (finished : runRounds setting prepared allowed round waiting search =
      some (.ok status, last, after)) :
    Rounds setting good prepared heard done (waiting.map Identified.graph)
        (inquireRounds setting prepared allowed round waiting search) status after ∧
      last = round + (inquireRounds setting prepared allowed round waiting search).length := by
  induction allowed generalizing search heard done waiting round with
  | zero =>
    cases waiting with
    | cons graph rest => cases finished
    | nil =>
      cases finished
      exact ⟨ready.rounds_nil, rfl⟩
  | succ allowed ih =>
    cases waiting with
    | nil =>
      cases finished
      exact ⟨ready.rounds_nil, rfl⟩
    | cons graph rest =>
      have started := alike_started setting search (round + 1) (graph :: rest)
      rw [runRounds_cons] at finished
      rw [inquireRounds_cons] at trusted ⊢
      generalize search.started setting (round + 1) (graph :: rest) =
        opened at started finished trusted ⊢
      rw [List.flatten_cons] at trusted
      have now : Trusted good (inquireRound setting prepared (graph :: rest) opened) :=
        fun inquiry member => trusted inquiry (List.mem_append_left _ member)
      have origins : ∀ inquiry ∈ inquireRound setting prepared (graph :: rest) opened,
          inquiry.origin ∈ graph :: rest :=
        fun inquiry member => (inquireRound_asked setting prepared _ _ inquiry member).1
      have course := expandRound_course lawful prepared (graph :: rest) opened
      have sound :=
        course.intake.sound heard (now.heard origins ready.fit) (ready.sound.of_alike started)
      have goesOn := ready.round lawful started now
      have partly := course.intake.partly
      generalize expandRound setting prepared (graph :: rest) opened =
        step at finished goesOn sound partly trusted ⊢
      obtain ⟨verdict, middle⟩ := step
      cases verdict with
      | fail fault => cases finished
      | stop halt =>
        cases finished
        refine ⟨⟨?_, fun same => absurd (congrArg Verdict.stop same) partly⟩, rfl⟩
        simpa only [List.flatten_cons, List.flatten_nil, List.append_nil] using sound
      | proceed =>
        obtain ⟨readyNext, fromHeard⟩ := goesOn rfl (round + 1)
        obtain ⟨rounds, count⟩ := ih readyNext
          (fun inquiry member => trusted inquiry (List.mem_append_right _ member)) finished
        refine ⟨rounds.cons (fun inquiry member => List.mem_map_of_mem (origins inquiry member))
          fromHeard, ?_⟩
        rw [count]
        simp only [List.length_cons]
        omega

/-- All graphs that have been taken in are listed, and whatever is in the antichain is among them. -/
structure Listed (setting : Setting τ) (good : Hypergraph → Prop) (heard : List Hypergraph)
    (worklist : List Identified) (search : Search τ) : Prop where
  sound : Sound setting good search heard
  distinct : (worklist.map Identified.id).Nodup
  issued : ∀ graph ∈ worklist, graph.id.number < search.allocator.issued
  kept : ∀ element ∈ search.antichain.elements, element ∈ worklist
  heard : worklist.map Identified.graph = heard.reverse

theorem takeInErrors_listed (lawful : setting.order.LawfulOn good) {graphs : List Hypergraph}
    (fit : ∀ graph ∈ graphs, good graph) {heard : List Hypergraph} {worklist : List Identified}
    (search : Search τ) (listed : Listed setting good heard worklist search) :
    Listed setting good (heard ++ graphs) (takeInErrors setting graphs worklist search).1
      (takeInErrors setting graphs worklist search).2 ∧
      (takeInErrors setting graphs worklist search).2.next = search.next := by
  induction graphs generalizing heard worklist search with
  | nil =>
    rw [List.append_nil]
    exact ⟨listed, rfl⟩
  | cons found rest ih =>
    have told :=
      alike_emit setting (search.identify found).2 (.errorGraph (search.identify found).1.ref)
    obtain ⟨issued, next, sound, kept⟩ := insert_inserted lawful search found told
    rw [List.forall_mem_cons] at fit
    rw [takeInErrors]
    simp only
    have now : Listed setting good (heard ++ [found]) ((search.identify found).1 :: worklist)
        (((search.identify found).2.emit setting (.errorGraph (search.identify found).1.ref)).insert
          setting (search.identify found).1).2 := by
      refine ⟨sound heard fit.1 listed.sound, ?_, ?_, fun element member => ?_, ?_⟩
      · rw [List.map_cons, List.nodup_cons]
        refine ⟨fun again => ?_, listed.distinct⟩
        obtain ⟨graph, member, same⟩ := List.mem_map.mp again
        have below := listed.issued graph member
        rw [same] at below
        exact Nat.lt_irrefl _ below
      · rw [issued, List.forall_mem_cons]
        exact ⟨Nat.lt_succ_self _, fun graph member => Nat.lt_succ_of_lt (listed.issued graph member)⟩
      · rcases kept element member with old | new
        · exact List.mem_cons_of_mem _ (listed.kept element old)
        · rw [new.1]
          exact List.mem_cons_self
      · rw [List.map_cons, listed.heard, List.reverse_append]
        rfl
    obtain ⟨later, nextLater⟩ := ih fit.2 _ now
    rw [List.append_assoc] at later
    exact ⟨later, nextLater.trans next⟩

/-- Taking in graphs lists them, the last one first, and is no matter of the source. -/
theorem takeInErrors_kept (setting : Setting τ) (graphs : List Hypergraph)
    (worklist : List Identified) (search : Search τ) :
    (takeInErrors setting graphs worklist search).1.map Identified.graph =
      graphs.reverse ++ worklist.map Identified.graph ∧
      (takeInErrors setting graphs worklist search).2.source = search.source ∧
      (takeInErrors setting graphs worklist search).2.next = search.next := by
  induction graphs generalizing worklist search with
  | nil => exact ⟨rfl, rfl, rfl⟩
  | cons found rest ih =>
    have told :=
      alike_emit setting (search.identify found).2 (.errorGraph (search.identify found).1.ref)
    have inserted :=
      (insert_eq setting
        ((search.identify found).2.emit setting (.errorGraph (search.identify found).1.ref))
        (search.identify found).1).2
    obtain ⟨listed, source, next⟩ := ih ((search.identify found).1 :: worklist)
      (((search.identify found).2.emit setting (.errorGraph (search.identify found).1.ref)).insert
        setting (search.identify found).1).2
    rw [takeInErrors]
    refine ⟨listed.trans ?_, source.trans (inserted.source.trans told.source),
      next.trans (inserted.next.trans told.next)⟩
    rw [List.map_cons, List.reverse_cons, List.append_assoc]
    rfl

theorem listed_nil (fresh : search.antichain = {}) : Listed setting good [] [] search := by
  refine ⟨⟨?_, ?_, ?_⟩, .nil, nofun, ?_, rfl⟩
  all_goals rw [fresh]
  · exact Antichain.valid_empty
  · exact nofun
  · exact fun target _ => ⟨nofun, nofun⟩
  · exact nofun

private theorem Listed.ledger {heard : List Hypergraph} {worklist : List Identified}
    (listed : Listed setting good heard worklist search) (prepared : Prepared)
    (idle : search.next = []) (covered : setting.covered? worklist.reverse = none) :
    Ledger setting prepared [] worklist search := by
  refine ⟨?_, ?_, nofun, fun element member graph inside same => ?_, fun element member => ?_,
    fun checked element member => ?_⟩
  · rw [idle, List.append_nil]
    exact listed.distinct
  · rw [idle, List.append_nil]
    exact listed.issued
  · rw [idle, List.append_nil] at inside
    exact List.inj_on_of_nodup_map listed.distinct inside (listed.kept element member) same
  · exact .inl (List.mem_append_left _ (listed.kept element member))
  · exact not_covered covered checked element (List.mem_reverse.mpr (listed.kept element member))

/-- A whole search, from nothing. -/
theorem run_rounds (lawful : setting.order.LawfulOn good) {prepared : Prepared}
    {errorGraphs : List Hypergraph} {allowed last : Nat} {status : Status}
    (fit : ∀ graph ∈ errorGraphs, good graph)
    (trusted : Trusted good (search.inquiries setting prepared errorGraphs allowed).flatten)
    (fresh : search.antichain = {}) (idle : search.next = [])
    (finished : search.run setting prepared errorGraphs allowed = some (.ok status, last, after)) :
    Rounds setting good prepared errorGraphs [] errorGraphs
      (search.inquiries setting prepared errorGraphs allowed) status after ∧
      last = (search.inquiries setting prepared errorGraphs allowed).length := by
  obtain ⟨listed, next⟩ := takeInErrors_listed lawful fit search (listed_nil fresh)
  rw [List.nil_append] at listed
  rw [run] at finished
  rw [inquiries] at trusted ⊢
  generalize takeInErrors setting errorGraphs [] search = step at finished listed next trusted
  obtain ⟨worklist, taken⟩ := step
  have listed : Listed setting good errorGraphs worklist taken := listed
  have next : taken.next = search.next := next
  simp only at finished trusted ⊢
  cases covered : setting.covered? worklist.reverse with
  | some halt =>
    rw [covered] at finished
    cases finished
    exact ⟨⟨by simpa using listed.sound, fun same => absurd same (covered_partly covered)⟩, rfl⟩
  | none =>
    rw [covered] at finished trusted
    have looked := isOutOfTime_alike setting taken
    simp only at finished trusted ⊢
    generalize taken.isOutOfTime setting = look at finished looked trusted
    obtain ⟨late, later⟩ := look
    have sound : Sound setting good later errorGraphs := listed.sound.of_alike looked
    cases late with
    | true =>
      cases finished
      refine ⟨⟨by simpa using sound, ?_⟩, rfl⟩
      intro converged
      cases converged
    | false =>
      have looked : Alike taken later := looked
      have idleNow : taken.next = [] := next.trans idle
      have ledger : Ledger setting prepared [] worklist later :=
        (listed.ledger prepared idleNow covered).of_same looked.antichain looked.allocator
          (by rw [looked.next])
      have heard : ∀ graph, graph ∈ worklist.map Identified.graph ↔
          graph ∈ errorGraphs := fun graph => by
        rw [listed.heard, List.mem_reverse]
      have fitAll : ∀ graph ∈ worklist, good graph.graph := fun graph member =>
        fit _ ((heard _).mp (List.mem_map_of_mem member))
      obtain ⟨⟨soundLast, complete⟩, count⟩ :=
        runRounds_rounds lawful ⟨sound, ledger, looked.next.trans idleNow, fitAll⟩ trusted finished
      refine ⟨⟨soundLast, fun converged => ?_⟩, count.trans (Nat.zero_add _)⟩
      obtain ⟨ledgerLast, idleLast, linked⟩ := complete converged
      exact ⟨ledgerLast, idleLast, linked.mono fun graph member => (heard graph).mp member⟩

/-- Before the first round the source has not been used. -/
theorem run_inquired (setting : Setting τ) (prepared : Prepared)
    (errorGraphs : List Hypergraph) (allowed : Nat) (search : Search τ) :
    Inquired search (search.inquiries setting prepared errorGraphs allowed).flatten
      (search.run setting prepared errorGraphs allowed) := by
  have source := (takeInErrors_kept setting errorGraphs [] search).2.1
  rw [inquiries, run]
  generalize takeInErrors setting errorGraphs [] search = step at source
  obtain ⟨worklist, taken⟩ := step
  simp only
  cases setting.covered? worklist.reverse with
  | some status => exact .idle source
  | none =>
    have looked := isOutOfTime_alike setting taken
    simp only
    generalize taken.isOutOfTime setting = look at looked
    obtain ⟨late, later⟩ := look
    have same : later.source = search.source := looked.source.trans source
    cases late with
    | true => exact .idle same
    | false =>
      obtain ⟨resets, heard⟩ := inquireRounds_inquired setting prepared allowed 0 worklist later
      rw [same] at resets
      exact ⟨resets, heard⟩

end Coverability.Search
