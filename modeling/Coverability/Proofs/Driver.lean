import Coverability.Backward.Analysis
import Coverability.Proofs.Antichain

/-! The course of a backward search. An inquiry is one reset of the source with what the search took
in before it went on or stopped. The inquiries of a search are read off its own steps, and the source
that it leaves has been reset just as they say. Whatever stops it, the antichain stands for what has
been heard. -/

namespace Coverability

def Yield.graph? (answer : Yield) : Option Hypergraph :=
  match answer with
  | .graph found => some found
  | .skipped _ => none

/-- One reset of the source that succeeded: what it was asked, what it has to say, and the graphs that
were taken in before the search stopped. -/
structure Inquiry where
  origin : Identified
  rule : Rule
  answer : List Yield
  heard : List Hypergraph

def Inquiry.Drained (inquiry : Inquiry) : Prop :=
  inquiry.heard = inquiry.answer.filterMap Yield.graph?

namespace Search

variable {τ : Type} (setting : Setting τ)

/-- The graphs that are taken in, up to one that stops the search. -/
def heardFrom (origin : Identified) (rule : RuleId) : List Yield → Search τ → List Hypergraph
  | [], _ => []
  | .skipped line :: rest, search => heardFrom origin rule rest (search.note line)
  | .graph found :: rest, search =>
    found :: match search.takeIn setting origin rule found with
      | (.proceed, search) =>
        match search.isOutOfTime setting with
        | (true, _) => []
        | (false, search) => heardFrom origin rule rest search
      | _ => []

def inquire (search : Search τ) (graph : Identified) (rule : Rule) : List Inquiry :=
  let (lines, outcome, source) := search.source.reset rule graph.graph
  match outcome with
  | .ok yields =>
    [⟨graph, rule, yields,
      heardFrom setting graph rule.id yields { search.noteAll lines with source }⟩]
  | .error _ => []

def inquireAll (graph : Identified) : List (Except Fault Rule) → Search τ → List Inquiry
  | [], _ => []
  | .error _ :: _, _ => []
  | .ok rule :: rest, search =>
    search.inquire setting graph rule ++ match search.expand setting graph rule with
      | (.proceed, search) => inquireAll graph rest search
      | _ => []

def inquireRound (prepared : Prepared) : List Identified → Search τ → List Inquiry
  | [], _ => []
  | graph :: rest, search =>
    if search.antichain.contains graph.id then
      inquireAll setting graph (prepared.rulesFor graph.graph) search ++
        match expandAll setting graph (prepared.rulesFor graph.graph) search with
        | (.proceed, search) => inquireRound prepared rest search
        | _ => []
    else inquireRound prepared rest (search.emit setting (.skipped graph.ref))

/-- The search when a round starts. -/
def started (search : Search τ) (round : Nat) (worklist : List Identified) : Search τ :=
  let line : Line := ⟨.info, "backward round",
    [("round", toString round), ("worklist", toString worklist.length),
      ("antichain", toString search.antichain.size)]⟩
  (search.emit setting (.roundStarted round)).note line

/-- The search when a round is over. -/
def turned (search : Search τ) (round : Nat) : Search τ :=
  { search.emit setting (.roundFinished round search.next.length) with next := [] }

/-- The inquiries of every round. -/
def inquireRounds (prepared : Prepared) : Nat → Nat → List Identified → Search τ → List (List Inquiry)
  | _, _, [], _ => []
  | 0, _, _ :: _, _ => []
  | allowed + 1, round, worklist, search =>
    let search := search.started setting (round + 1) worklist
    inquireRound setting prepared worklist search ::
      match expandRound setting prepared worklist search with
      | (.proceed, search) =>
        inquireRounds prepared allowed (round + 1) search.next (search.turned setting (round + 1))
      | _ => []

def inquiries (prepared : Prepared) (errorGraphs : List Hypergraph) (allowed : Nat)
    (search : Search τ) : List (List Inquiry) :=
  let (worklist, search) := takeInErrors setting errorGraphs [] search
  match setting.covered? worklist.reverse with
  | some _ => []
  | none =>
    match search.isOutOfTime setting with
    | (true, _) => []
    | (false, search) => inquireRounds setting prepared allowed 0 worklist search

end Search

/-- The resets of some inquiries, one after the other, turn a source into another. Each was answered as
its inquiry says. -/
inductive Source.Resets : Source → List Inquiry → Source → Prop
  | nil (source : Source) : Resets source [] source
  | cons {source last : Source} {inquiry : Inquiry} {rest : List Inquiry}
    (answered : (source.reset inquiry.rule inquiry.origin.graph).2.1 = .ok inquiry.answer)
    (later : Resets (source.reset inquiry.rule inquiry.origin.graph).2.2 rest last) :
    Resets source (inquiry :: rest) last

theorem Source.Resets.append {source middle last : Source} {made later : List Inquiry}
    (first : source.Resets made middle) (second : middle.Resets later last) :
    source.Resets (made ++ later) last := by
  induction first with
  | nil => exact second
  | cons answered _ ih => exact .cons answered (ih second)

/-- Whatever a source answers, now and after any number of resets, is as required. -/
def Source.Answers (required : Rule → Hypergraph → List Yield → Prop) (source : Source) : Prop :=
  ∃ usual : source.State → Prop, usual source.state ∧ ∀ state, usual state → ∀ rule graph,
    usual (source.respond state rule graph).2.2 ∧
    ∀ yields, (source.respond state rule graph).2.1 = .ok yields → required rule graph yields

theorem Source.Answers.reset {required : Rule → Hypergraph → List Yield → Prop} {source : Source}
    (answers : source.Answers required) (rule : Rule) (graph : Hypergraph) :
    (source.reset rule graph).2.2.Answers required ∧
      ∀ yields, (source.reset rule graph).2.1 = .ok yields → required rule graph yields := by
  obtain ⟨usual, now, later⟩ := answers
  exact ⟨⟨usual, (later _ now rule graph).1, later⟩, (later _ now rule graph).2⟩

theorem Source.Resets.answers {required : Rule → Hypergraph → List Yield → Prop}
    {source last : Source} {made : List Inquiry} (resets : source.Resets made last)
    (answers : source.Answers required) :
    ∀ inquiry ∈ made, required inquiry.rule inquiry.origin.graph inquiry.answer := by
  induction resets with
  | nil => exact nofun
  | @cons source last inquiry rest answered _ ih =>
    obtain ⟨kept, now⟩ := answers.reset inquiry.rule inquiry.origin.graph
    exact List.forall_mem_cons.mpr ⟨now _ answered, ih kept⟩

/-- The source yields the complements of matches, and contracts edges just if it is said to. -/
def Source.Matching (contract : Bool) (source : Source) : Prop :=
  ∃ state : MatchSource, source = .ofMatches state ∧ state.contract = contract

/-- What such a source answers depends on nothing that has been asked before, or that has not been
yielded yet. It fails just if the rule is defective. -/
theorem Source.Matching.reset {contract : Bool} {source : Source}
    (matching : source.Matching contract) (rule : Rule) (graph : Hypergraph) :
    (source.reset rule graph).2.1 = (rule.validate.map fun _ =>
        (Matching.all ⟨rule, graph, contract⟩).map
          (LoadedMatches.yield ⟨rule, graph, Matching.all ⟨rule, graph, contract⟩⟩)) ∧
      (source.reset rule graph).2.2.Matching contract := by
  obtain ⟨state, rfl, rfl⟩ := matching
  refine ⟨?_, (state.reset rule graph).2.2, rfl, ?_⟩
  · change ((state.reset rule graph).2.1.map fun _ => (state.reset rule graph).2.2.yields) = _
    rw [MatchSource.reset]
    cases rule.validate <;> rfl
  · rw [MatchSource.reset]
    cases rule.validate <;> rfl

namespace Search

variable {τ : Type} {setting : Setting τ} {good : Hypergraph → Prop} {search after : Search τ}

/-- Diagnostics aside, two searches are the same. -/
structure Alike (search after : Search τ) : Prop where
  allocator : after.allocator = search.allocator
  source : after.source = search.source
  antichain : after.antichain = search.antichain
  next : after.next = search.next

theorem Alike.refl (search : Search τ) : Alike search search := ⟨rfl, rfl, rfl, rfl⟩

theorem Alike.trans {last : Search τ} (first : Alike search after) (second : Alike after last) :
    Alike search last :=
  ⟨second.allocator.trans first.allocator, second.source.trans first.source,
    second.antichain.trans first.antichain, second.next.trans first.next⟩

theorem alike_emit (setting : Setting τ) (search : Search τ) (event : Event) :
    Alike search (search.emit setting event) := ⟨rfl, rfl, rfl, rfl⟩

theorem alike_note (search : Search τ) (line : Line) : Alike search (search.note line) :=
  ⟨rfl, rfl, rfl, rfl⟩

theorem alike_started (setting : Setting τ) (search : Search τ) (round : Nat)
    (worklist : List Identified) :
    Alike search (search.started setting round worklist) :=
  ⟨rfl, rfl, rfl, rfl⟩

private theorem alike_report (steps : List (Line × Event)) :
    Alike search
      (steps.foldl (fun search (line, event) => (search.note line).emit setting event) search) := by
  induction steps generalizing search with
  | nil => exact .refl search
  | cons step rest ih =>
    exact (alike_note search step.1).trans ((alike_emit setting _ step.2).trans ih)

theorem insert_eq (setting : Setting τ) (search : Search τ) (graph : Identified) :
    (search.insert setting graph).1 = (search.antichain.insert setting.order graph).1.isAccepted ∧
    Alike { search with antichain := (search.antichain.insert setting.order graph).2 }
      (search.insert setting graph).2 :=
  ⟨rfl, alike_report _⟩

/-- The antichain stands for the graphs above what has been heard. -/
structure Sound (setting : Setting τ) (good : Hypergraph → Prop) (search : Search τ)
    (heard : List Hypergraph) : Prop where
  valid : search.antichain.Valid setting.order good
  issued : ∀ element ∈ search.antichain.elements, element.id.number < search.allocator.issued
  above_iff : ∀ target, good target →
    (search.antichain.Above setting.order target ↔
      ∃ graph ∈ heard, setting.order.le graph target = true)

theorem Sound.of_same {heard : List Hypergraph} (sound : Sound setting good search heard)
    (antichain : after.antichain = search.antichain)
    (allocator : after.allocator = search.allocator) : Sound setting good after heard := by
  obtain ⟨valid, issued, above⟩ := sound
  refine ⟨?_, ?_, ?_⟩
  · rwa [antichain]
  · rwa [antichain, allocator]
  · rwa [antichain]

theorem Sound.of_alike {heard : List Hypergraph} (sound : Sound setting good search heard)
    (alike : Alike search after) :
    Sound setting good after heard :=
  sound.of_same alike.antichain alike.allocator

/-- From one search to a later one, some graphs have been added that none of the initial graphs covers. -/
structure Grown (setting : Setting τ) (search after : Search τ) (added : List Identified) : Prop where
  next : after.next = added ++ search.next
  issued : search.allocator.issued ≤ after.allocator.issued
  fresh : ∀ graph ∈ added, search.allocator.issued ≤ graph.id.number ∧
    graph.id.number < after.allocator.issued
  distinct : (added.map Identified.id).Nodup
  kept : ∀ element ∈ after.antichain.elements, element ∈ search.antichain.elements ∨ element ∈ added
  uncovered : setting.checkInitial = true →
    ∀ graph ∈ added, ∀ initial ∈ setting.initial, setting.order.le graph.graph initial = false

theorem Grown.of_alike (alike : Alike search after) : Grown setting search after [] where
  next := alike.next
  issued := Nat.le_of_eq (by rw [alike.allocator])
  fresh := nofun
  distinct := .nil
  kept element member := .inl (alike.antichain ▸ member)
  uncovered := nofun

theorem Grown.trans {last : Search τ} {added later : List Identified}
    (first : Grown setting search after added) (second : Grown setting after last later) :
    Grown setting search last (later ++ added) where
  next := by rw [second.next, first.next, List.append_assoc]
  issued := Nat.le_trans first.issued second.issued
  fresh graph member := by
    rcases List.mem_append.mp member with new | old
    · exact ⟨Nat.le_trans first.issued (second.fresh graph new).1, (second.fresh graph new).2⟩
    · exact ⟨(first.fresh graph old).1, Nat.lt_of_lt_of_le (first.fresh graph old).2 second.issued⟩
  distinct := by
    rw [List.map_append, List.nodup_append]
    refine ⟨second.distinct, first.distinct, fun id atLater other atEarlier same => ?_⟩
    obtain ⟨graph, member, rfl⟩ := List.mem_map.mp atLater
    obtain ⟨earlier, memberEarlier, rfl⟩ := List.mem_map.mp atEarlier
    have above := (second.fresh graph member).1
    have below := (first.fresh earlier memberEarlier).2
    rw [same] at above
    omega
  kept element member := by
    rcases second.kept element member with old | new
    · exact (first.kept element old).imp_right (List.mem_append_right _)
    · exact .inr (List.mem_append_left _ new)
  uncovered checked graph member := by
    rcases List.mem_append.mp member with new | old
    · exact second.uncovered checked graph new
    · exact first.uncovered checked graph old

/-- What inserting a graph with a new identity comes to. -/
structure Inserted (setting : Setting τ) (good : Hypergraph → Prop) (search : Search τ)
    (found : Hypergraph) (accepted : Bool) (after : Search τ) : Prop where
  issued : after.allocator.issued = search.allocator.issued + 1
  next : after.next = search.next
  sound : ∀ heard, good found → Sound setting good search heard →
    Sound setting good after (heard ++ [found])
  kept : ∀ element ∈ after.antichain.elements, element ∈ search.antichain.elements ∨
    element = (search.identify found).1 ∧ accepted = true

theorem insert_inserted (lawful : setting.order.LawfulOn good) (search : Search τ)
    (found : Hypergraph) {middle : Search τ} (told : Alike (search.identify found).2 middle) :
    Inserted setting good search found (middle.insert setting (search.identify found).1).1
      (middle.insert setting (search.identify found).1).2 := by
  obtain ⟨accepts, alike⟩ := insert_eq setting middle (search.identify found).1
  have antichain : (middle.insert setting (search.identify found).1).2.antichain =
      (search.antichain.insert setting.order (search.identify found).1).2 := by
    rw [alike.antichain, told.antichain]
    rfl
  have issued : (middle.insert setting (search.identify found).1).2.allocator.issued =
      search.allocator.issued + 1 := by
    rw [alike.allocator]
    exact congrArg Allocator.issued told.allocator
  refine ⟨issued, alike.next.trans told.next, fun heard fit sound => ?_, fun element member => ?_⟩
  · have fresh : (search.identify found).1.id ∉ search.antichain.elements.map Identified.id := by
      intro member
      obtain ⟨element, inside, same⟩ := List.mem_map.mp member
      have below := sound.issued element inside
      rw [same] at below
      exact Nat.lt_irrefl _ below
    refine ⟨?_, fun element member => ?_, fun target fitTarget => ?_⟩
    · rw [antichain]
      exact Antichain.insert_valid lawful sound.valid fresh fit rfl
    · rw [antichain] at member
      rw [issued]
      rcases Antichain.mem_insert rfl member with old | new
      · exact Nat.lt_succ_of_lt (sound.issued element old)
      · rw [new.1]
        exact Nat.lt_succ_self _
    · have inserted := Antichain.above_insert lawful sound.valid.good fit
        (rfl : search.antichain.insert setting.order (search.identify found).1 = (_, _)) fitTarget
      rw [antichain]
      refine inserted.trans ?_
      rw [sound.above_iff target fitTarget]
      simp only [List.mem_append, List.mem_singleton, or_and_right, exists_or, exists_eq_left]
      rfl
  · rw [antichain] at member
    rw [accepts, told.antichain]
    exact Antichain.mem_insert rfl member

/-- What taking in some graphs comes to. Only a step that goes on has added all it has to. -/
structure Intake (setting : Setting τ) (good : Hypergraph → Prop) (search : Search τ)
    (new : List Hypergraph) (verdict : Verdict) (after : Search τ) : Prop where
  sound : ∀ heard, (∀ graph ∈ new, good graph) → Sound setting good search heard →
    Sound setting good after (heard ++ new)
  partly : verdict ≠ .stop .converged
  grown : verdict = .proceed → ∃ added, Grown setting search after added ∧
    ∀ graph ∈ added, graph.graph ∈ new

theorem Intake.of_alike (alike : Alike search after) :
    Intake setting good search [] .proceed after where
  sound heard _ sound := by
    rw [List.append_nil]
    exact sound.of_alike alike
  partly := nofun
  grown _ := ⟨[], .of_alike alike, nofun⟩

theorem Intake.trans {last : Search τ} {new later : List Hypergraph} {verdict : Verdict}
    (first : Intake setting good search new .proceed after)
    (second : Intake setting good after later verdict last) :
    Intake setting good search (new ++ later) verdict last where
  sound heard fit sound := by
    rw [← List.append_assoc]
    rw [List.forall_mem_append] at fit
    exact second.sound _ fit.2 (first.sound heard fit.1 sound)
  partly := second.partly
  grown goesOn := by
    obtain ⟨added, grown, known⟩ := first.grown rfl
    obtain ⟨more, grownMore, knownMore⟩ := second.grown goesOn
    refine ⟨more ++ added, grown.trans grownMore, fun graph member => ?_⟩
    rcases List.mem_append.mp member with late | early
    · exact List.mem_append_right _ (knownMore graph late)
    · exact List.mem_append_left _ (known graph early)

/-- Nothing is added by a step after which the search stops, so only its soundness matters. -/
theorem Intake.halted {new : List Hypergraph} {verdict other : Verdict}
    (intake : Intake setting good search new verdict after) {last : Search τ}
    (alike : Alike after last) (partly : other ≠ .stop .converged) (halts : other ≠ .proceed) :
    Intake setting good search new other last where
  sound heard fit sound := (intake.sound heard fit sound).of_alike alike
  partly := partly
  grown goesOn := absurd goesOn halts

theorem not_covered {graphs : List Identified} (clear : setting.covered? graphs = none)
    (checked : setting.checkInitial = true) :
    ∀ graph ∈ graphs, ∀ initial ∈ setting.initial, setting.order.le graph.graph initial = false := by
  intro graph member initial start
  rw [Setting.covered?, if_pos checked, List.findSome?_eq_none_iff] at clear
  have none := Option.map_eq_none_iff.mp (clear graph member)
  rw [List.findIdx?_eq_none_iff] at none
  exact none initial start

theorem covered_partly {graphs : List Identified} {status : Status}
    (found : setting.covered? graphs = some status) :
    status ≠ .converged := by
  intro same
  rw [Setting.covered?] at found
  split at found
  · obtain ⟨graph, _, covered⟩ := List.exists_of_findSome?_eq_some found
    obtain ⟨index, _, rfl⟩ := Option.map_eq_some_iff.mp covered
    cases same
  · cases found

theorem takeIn_intake (lawful : setting.order.LawfulOn good) (search : Search τ)
    (origin : Identified) (rule : RuleId) (found : Hypergraph) :
    Intake setting good search [found] (search.takeIn setting origin rule found).1
      (search.takeIn setting origin rule found).2 := by
  have inserts := insert_inserted lawful search found (.refl (search.identify found).2)
  rw [takeIn]
  simp only
  generalize (search.identify found).2.insert setting (search.identify found).1 = step at inserts
  obtain ⟨accepted, inserted⟩ := step
  have inserts : Inserted setting good search found accepted inserted := inserts
  obtain ⟨issued, next, sound, kept⟩ := inserts
  have sound heard (fit : ∀ graph ∈ [found], good graph) :=
    sound heard (fit found (List.mem_singleton_self found))
  cases accepted with
  | false =>
    refine ⟨sound, nofun,
      fun _ => ⟨[], ⟨next, ?_, nofun, .nil, fun element member => ?_, nofun⟩, nofun⟩⟩
    · simp only [issued, Nat.le_succ]
    · exact (kept element member).imp_right fun new => absurd new.2 nofun
  | true =>
    simp only
    have reported line event : Alike inserted ((inserted.note line).emit setting event) :=
      (alike_note _ line).trans (alike_emit setting _ event)
    split
    next status covered =>
      refine ⟨fun heard fit before => (sound heard fit before).of_alike (reported _ _),
        fun same => ?_, nofun⟩
      cases same
      exact covered_partly covered rfl
    next clear =>
      refine ⟨fun heard fit before => ?_, nofun, fun _ => ⟨[(search.identify found).1], ?_, ?_⟩⟩
      · refine (sound heard fit before).of_same ?_ ?_
        · simp only [(reported _ _).antichain]
        · simp only [(reported _ _).allocator]
      · refine ⟨?_, ?_, ?_, List.nodup_singleton _, fun element member => ?_,
          fun checked => not_covered clear checked⟩
        · simp only [(reported _ _).next, next, List.singleton_append]
        · simp only [(reported _ _).allocator, issued, Nat.le_succ]
        · simp only [List.mem_singleton, forall_eq, (reported _ _).allocator, issued]
          exact ⟨Nat.le_refl _, Nat.lt_succ_self _⟩
        · simp only [(reported _ _).antichain] at member
          exact (kept element member).imp_right fun new => List.mem_singleton.mpr new.1
      · simp only [List.mem_singleton, forall_eq]
        rfl

theorem isOutOfTime_alike (setting : Setting τ) (search : Search τ) :
    Alike search (search.isOutOfTime setting).2 := ⟨rfl, rfl, rfl, rfl⟩

/-- What has been yielded is taken in without the source, and without a fault. -/
theorem takeIn_kept (setting : Setting τ) (search : Search τ) (origin : Identified) (rule : RuleId)
    (found : Hypergraph) :
    (search.takeIn setting origin rule found).2.source = search.source ∧
      ∀ fault, (search.takeIn setting origin rule found).1 ≠ .fail fault := by
  have inserted := (insert_eq setting (search.identify found).2 (search.identify found).1).2.source
  rw [takeIn]
  simp only
  generalize (search.identify found).2.insert setting (search.identify found).1 = step at inserted ⊢
  obtain ⟨accepted, middle⟩ := step
  cases accepted with
  | false => exact ⟨inserted, nofun⟩
  | true =>
    simp only
    split <;> exact ⟨inserted, nofun⟩

theorem takeInAll_kept (setting : Setting τ) (search : Search τ) (origin : Identified) (rule : RuleId)
    (answer : List Yield) : (takeInAll setting origin rule answer search).2.source = search.source ∧
      ∀ fault, (takeInAll setting origin rule answer search).1 ≠ .fail fault := by
  induction answer generalizing search with
  | nil => exact ⟨rfl, nofun⟩
  | cons first rest ih =>
    cases first with
    | skipped line => exact ih (search.note line)
    | graph found =>
      have kept := takeIn_kept setting search origin rule found
      rw [takeInAll]
      generalize search.takeIn setting origin rule found = step at kept ⊢
      obtain ⟨verdict, middle⟩ := step
      cases verdict with
      | stop status => exact kept
      | fail fault => exact kept
      | proceed =>
        have looked := (isOutOfTime_alike setting middle).source
        simp only
        generalize middle.isOutOfTime setting = look at looked ⊢
        obtain ⟨late, later⟩ := look
        have same : later.source = search.source := looked.trans kept.1
        cases late with
        | true => exact ⟨same, nofun⟩
        | false => exact (ih later).imp_left fun keptLater => keptLater.trans same

theorem takeInAll_intake (lawful : setting.order.LawfulOn good) (search : Search τ)
    (origin : Identified) (rule : RuleId) (answer : List Yield) :
    Intake setting good search (heardFrom setting origin rule answer search)
      (takeInAll setting origin rule answer search).1
        (takeInAll setting origin rule answer search).2 ∧
      ((takeInAll setting origin rule answer search).1 = .proceed →
        heardFrom setting origin rule answer search = answer.filterMap Yield.graph?) := by
  induction answer generalizing search with
  | nil => exact ⟨.of_alike (.refl search), fun _ => rfl⟩
  | cons first rest ih =>
    cases first with
    | skipped line =>
      rw [takeInAll, heardFrom]
      obtain ⟨intake, drained⟩ := ih (search.note line)
      exact ⟨(Intake.of_alike (alike_note search line)).trans intake, drained⟩
    | graph found =>
      have first := takeIn_intake lawful search origin rule found
      rw [takeInAll, heardFrom]
      generalize search.takeIn setting origin rule found = step at first
      obtain ⟨verdict, middle⟩ := step
      cases verdict with
      | stop status => exact ⟨first, nofun⟩
      | fail fault => exact ⟨first, nofun⟩
      | proceed =>
        have looked := isOutOfTime_alike setting middle
        simp only
        generalize middle.isOutOfTime setting = look at looked
        obtain ⟨late, later⟩ := look
        cases late with
        | true => exact ⟨first.halted looked nofun nofun, nofun⟩
        | false =>
          obtain ⟨intake, drained⟩ := ih later
          exact ⟨first.trans ((Intake.of_alike looked).trans intake),
            fun goesOn => congrArg (List.cons found) (drained goesOn)⟩

private theorem heardFrom_subset (origin : Identified) (rule : RuleId) (answer : List Yield)
    (search : Search τ) :
    heardFrom setting origin rule answer search ⊆ answer.filterMap Yield.graph? := by
  induction answer generalizing search with
  | nil => exact List.nil_subset _
  | cons first rest ih =>
    cases first with
    | skipped line => exact ih (search.note line)
    | graph found =>
      rw [heardFrom]
      refine List.cons_subset_cons found ?_
      split
      · split
        · exact List.nil_subset _
        · exact ih _
      · exact List.nil_subset _

/-- What some inquiries come to. The source has been reset as they say, and once more if
this has failed. -/
structure Course (setting : Setting τ) (good : Hypergraph → Prop) (search : Search τ)
    (made : List Inquiry) (verdict : Verdict) (after : Search τ) : Prop where
  intake : Intake setting good search (made.flatMap Inquiry.heard) verdict after
  resets : ∃ last, search.source.Resets made last ∧
    (after.source = last ∨ ∃ fault, verdict = .fail fault)
  heard : ∀ inquiry ∈ made, inquiry.heard ⊆ inquiry.answer.filterMap Yield.graph?

theorem Course.of_alike (alike : Alike search after) :
    Course setting good search [] .proceed after where
  intake := .of_alike alike
  resets := ⟨search.source, .nil _, .inl alike.source⟩
  heard := nofun

theorem Course.resets_unfailing {made : List Inquiry} {verdict : Verdict}
    (course : Course setting good search made verdict after)
    (unfailing : ∀ fault, verdict ≠ .fail fault) :
    search.source.Resets made after.source := by
  obtain ⟨last, resets, same | failed⟩ := course.resets
  · rwa [same]
  · obtain ⟨fault, failed⟩ := failed
    exact absurd failed (unfailing fault)

theorem Course.trans {last : Search τ} {made later : List Inquiry} {verdict : Verdict}
    (first : Course setting good search made .proceed after)
    (second : Course setting good after later verdict last) :
    Course setting good search (made ++ later) verdict last where
  intake := by
    rw [List.flatMap_append]
    exact first.intake.trans second.intake
  resets := by
    obtain ⟨last, resets, ends⟩ := second.resets
    exact ⟨last, (first.resets_unfailing nofun).append resets, ends⟩
  heard inquiry member := by
    rcases List.mem_append.mp member with early | late
    · exact first.heard inquiry early
    · exact second.heard inquiry late

/-- The inquiries about a graph that put some rules to the source and drained it each time. -/
def Exhausts (graph : Identified) (rules : List (Except Fault Rule)) (made : List Inquiry) : Prop :=
  made.map (fun inquiry => .ok inquiry.rule) = rules ∧
  ∀ inquiry ∈ made, inquiry.origin = graph ∧ inquiry.Drained

theorem expand_course (lawful : setting.order.LawfulOn good) (search : Search τ)
    (graph : Identified) (rule : Rule) :
    Course setting good search (search.inquire setting graph rule)
      (search.expand setting graph rule).1 (search.expand setting graph rule).2 ∧
      ((search.expand setting graph rule).1 = .proceed →
        Exhausts graph [.ok rule] (search.inquire setting graph rule)) := by
  rw [expand, inquire]
  generalize step : search.source.reset rule graph.graph = reset
  obtain ⟨lines, outcome, source⟩ := reset
  cases outcome with
  | error fault =>
    refine ⟨⟨⟨fun heard _ sound => ?_, nofun, nofun⟩, ⟨_, .nil _, .inr ⟨fault, rfl⟩⟩, nofun⟩, nofun⟩
    exact (List.append_nil heard).symm ▸ sound.of_same rfl rfl
  | ok yields =>
    obtain ⟨intake, drained⟩ :=
      takeInAll_intake lawful { search.noteAll lines with source } graph rule.id yields
    have left := takeInAll_kept setting { search.noteAll lines with source } graph rule.id yields
    simp only
    refine ⟨⟨⟨fun heard fit sound => ?_, intake.partly, fun goesOn => ?_⟩, ⟨source, ?_, .inl left.1⟩,
      fun inquiry member => ?_⟩, fun goesOn => ⟨rfl, fun inquiry member => ?_⟩⟩
    · rw [List.flatMap_singleton] at fit ⊢
      exact intake.sound heard fit (sound.of_same rfl rfl)
    · rw [List.flatMap_singleton]
      obtain ⟨added, ⟨next, issued, fresh, distinct, kept, uncovered⟩, known⟩ := intake.grown goesOn
      exact ⟨added, ⟨next, issued, fresh, distinct, kept, uncovered⟩, known⟩
    · have answered : (search.source.reset rule graph.graph).2.1 = .ok yields := by rw [step]
      have last : (search.source.reset rule graph.graph).2.2 = source := by rw [step]
      exact .cons answered (last ▸ .nil _)
    · rw [List.mem_singleton.mp member]
      exact heardFrom_subset graph rule.id yields _
    · rw [List.mem_singleton.mp member]
      exact ⟨rfl, drained goesOn⟩

theorem expandAll_course (lawful : setting.order.LawfulOn good) (search : Search τ)
    (graph : Identified) (rules : List (Except Fault Rule)) :
    Course setting good search (inquireAll setting graph rules search)
      (expandAll setting graph rules search).1
        (expandAll setting graph rules search).2 ∧
      ((expandAll setting graph rules search).1 = .proceed →
        Exhausts graph rules (inquireAll setting graph rules search)) := by
  induction rules generalizing search with
  | nil => exact ⟨.of_alike (.refl search), fun _ => ⟨rfl, nofun⟩⟩
  | cons first rest ih =>
    cases first with
    | error fault =>
      refine ⟨⟨⟨fun heard _ sound => ?_, nofun, nofun⟩, ⟨_, .nil _, .inr ⟨fault, rfl⟩⟩, nofun⟩, nofun⟩
      exact (List.append_nil heard).symm ▸ sound
    | ok rule =>
      obtain ⟨course, exhausts⟩ := expand_course lawful search graph rule
      rw [expandAll, inquireAll]
      generalize search.expand setting graph rule = step at course exhausts
      obtain ⟨verdict, middle⟩ := step
      cases verdict with
      | stop status =>
        simp only [List.append_nil]
        exact ⟨course, nofun⟩
      | fail fault =>
        simp only [List.append_nil]
        exact ⟨course, nofun⟩
      | proceed =>
        obtain ⟨later, exhaustsLater⟩ := ih middle
        refine ⟨course.trans later, fun goesOn => ?_⟩
        obtain ⟨asked, drained⟩ := exhausts rfl
        obtain ⟨askedLater, drainedLater⟩ := exhaustsLater goesOn
        refine ⟨?_, fun inquiry member => ?_⟩
        · rw [List.map_append, asked]
          exact congrArg (List.cons _) askedLater
        · exact (List.mem_append.mp member).elim (drained inquiry) (drainedLater inquiry)

end Search

end Coverability
