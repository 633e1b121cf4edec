import Coverability.Proofs.Fixpoint
import Coverability.Proofs.Instances

/-! Faults surface only while rules are prepared. Once all rules have passed validation, so has
every rule that a graph calls for, plain or instantiated; a source of matches fails only on a rule
that does not pass. So no step of a search fails. -/

namespace Coverability

namespace TransformationSystem

variable {system : TransformationSystem} {fault : Fault}

/-- A rule of the system, plain or quantified, does not pass validation. -/
def Rejects (system : TransformationSystem) (fault : Fault) : Prop :=
  (∃ rule ∈ system.rules.values, rule.validate = .error fault) ∨
    ∃ rule ∈ system.quantifiedRules.values, rule.validate = .error fault

/-- Every rule of the system passes validation. -/
structure Accepted (system : TransformationSystem) : Prop where
  plain : ∀ rule ∈ system.rules.values, rule.validate = .ok ()
  quantified : ∀ rule ∈ system.quantifiedRules.values, rule.validate = .ok ()

private theorem forM_cases {α : Type} (check : α → Except Fault Unit) (items : List α) :
    (items.forM check = .ok () ∧ ∀ item ∈ items, check item = .ok ()) ∨
      ∃ fault, items.forM check = .error fault ∧ ∃ item ∈ items, check item = .error fault := by
  induction items with
  | nil => exact .inl ⟨rfl, nofun⟩
  | cons first rest ih =>
    rw [List.forM_eq_forM, List.forM_cons, List.forall_mem_cons]
    cases checked : check first with
    | error fault => exact .inr ⟨fault, rfl, first, List.mem_cons_self, checked⟩
    | ok =>
      rcases ih with ⟨passed, all⟩ | ⟨fault, failed, item, member, blamed⟩
      · exact .inl ⟨passed, rfl, all⟩
      · exact .inr ⟨fault, failed, item, List.mem_cons_of_mem _ member, blamed⟩

theorem validate_cases (system : TransformationSystem) :
    (system.validate = .ok () ∧ system.Accepted) ∨
    ∃ fault, system.validate = .error fault ∧ system.Rejects fault := by
  rw [validate]
  rcases forM_cases Rule.validate system.rules.values with ⟨passed, plain⟩ | ⟨fault, failed, blamed⟩
  · rw [passed]
    rcases forM_cases QuantifiedRule.validate
      system.quantifiedRules.values with ⟨passed, quantified⟩ | ⟨fault, failed, blamed⟩
    · exact .inl ⟨passed, plain, quantified⟩
    · exact .inr ⟨fault, failed, .inr blamed⟩
  · rw [failed]
    exact .inr ⟨fault, rfl, .inl blamed⟩

theorem Accepted.not_rejects (accepted : system.Accepted) : ¬system.Rejects fault := by
  rintro (⟨rule, member, failed⟩ | ⟨rule, member, failed⟩)
  · rw [accepted.plain rule member] at failed
    cases failed
  · rw [accepted.quantified rule member] at failed
    cases failed

end TransformationSystem

/-- The largest instance worth trying against a graph. -/
def Hypergraph.copyBound (graph : Hypergraph) (cap : Nat) : Nat :=
  if cap = 0 then graph.edgeCount else min graph.edgeCount cap

namespace Prepared

variable {prepared : Prepared} {graph : Hypergraph}

/-- What a graph calls for is at hand: no lookup and no instantiation fails, and no reset of a
source of matches does, whatever the source has been used for. -/
structure Serves (prepared : Prepared) (graph : Hypergraph) : Prop where
  found : ∀ id ∈ prepared.quantifiedRules.keys,
    ∃ instances, prepared.instances id graph = .ok instances
  valid : ∀ attempt ∈ prepared.rulesFor graph, ∃ rule, attempt = .ok rule ∧ rule.validate = .ok ()
  answered : ∀ attempt ∈ prepared.rulesFor graph, ∀ rule, attempt = .ok rule → ∀ source : MatchSource,
    (source.reset rule graph).2.1 = .ok ()

theorem instances_eq {id : RuleId} {rule : QuantifiedRule}
    (known : prepared.quantifiedRules.get? id = some rule) :
    prepared.instances id graph = .ok ⟨rule, 0, graph.copyBound prepared.maxInstances⟩ := by
  rw [instances, known]
  rfl

/-- A rule to try is a plain one or an instance within the bound. -/
theorem rulesFor_cases {attempt : Except Fault Rule} (member : attempt ∈ prepared.rulesFor graph) :
    (∃ rule ∈ prepared.rules.values, attempt = .ok rule) ∨
      ∃ rule ∈ prepared.quantifiedRules.values,
        ∃ copies ≤ graph.copyBound prepared.maxInstances, attempt = rule.instantiate copies := by
  rcases List.mem_append.mp member with plain | quantified
  · obtain ⟨rule, listed, rfl⟩ := List.mem_map.mp plain
    exact .inl ⟨rule, listed, rfl⟩
  · obtain ⟨id, key, listed⟩ := List.mem_flatMap.mp quantified
    obtain ⟨rule, known⟩ := Table.mem_keys_iff.mp key
    rw [instances_eq known] at listed
    obtain ⟨copies, range, rfl⟩ := List.mem_map.mp listed
    obtain ⟨_, below⟩ := List.mem_range'_1.mp range
    refine .inr ⟨rule, Table.mem_values_iff.mpr ⟨id, known⟩, copies, ?_, rfl⟩
    simp only [Instances.remaining, Nat.sub_zero, Nat.zero_add] at below
    exact Nat.le_of_lt_succ below

end Prepared

theorem MatchSource.reset_of_valid {rule : Rule} (accepted : rule.validate = .ok ())
    (source : MatchSource) (graph : Hypergraph) :
    (source.reset rule graph).2.1 = .ok () := by
  rw [reset, accepted]

/-- The rules of an accepted system serve every graph that leaves room for their instances. -/
theorem TransformationSystem.Accepted.serves {system : TransformationSystem}
    (accepted : system.Accepted) (formed : ∀ rule ∈ system.quantifiedRules.values, rule.Formed)
    {cap : Nat} {graph : Hypergraph}
    (room : ∀ rule ∈ system.quantifiedRules.values, rule.HasRoomFor (graph.copyBound cap)) :
    Prepared.Serves ⟨system.name, system.rules, system.quantifiedRules, cap⟩ graph := by
  have valid :
      ∀ attempt ∈ Prepared.rulesFor ⟨system.name, system.rules, system.quantifiedRules, cap⟩ graph,
      ∃ rule, attempt = .ok rule ∧ rule.validate = .ok () := by
    intro attempt member
    rcases Prepared.rulesFor_cases member with ⟨rule, listed, rfl⟩ | ⟨rule, listed, copies, fits, rfl⟩
    · exact ⟨rule, rfl, accepted.plain rule listed⟩
    · exact QuantifiedRule.instantiate_valid (accepted.quantified rule listed) (formed rule listed)
        ((room rule listed).mono fits)
  refine ⟨fun id key => ?_, valid, fun attempt member rule same source => ?_⟩
  · obtain ⟨rule, known⟩ := Table.mem_keys_iff.mp key
    exact ⟨_, Prepared.instances_eq known⟩
  · obtain ⟨_, again, passed⟩ := valid attempt member
    cases same.symm.trans again
    exact source.reset_of_valid passed graph

namespace Search

variable {τ : Type} {setting : Setting τ} {contract : Bool} {search after : Search τ}

/-- A step that has not failed, with a source of matches left. -/
structure Steady (contract : Bool) (step : Verdict × Search τ) : Prop where
  source : step.2.source.Matching contract
  unfailing : ∀ fault, step.1 ≠ .fail fault

theorem Steady.proceed (matching : search.source.Matching contract) :
    Steady contract (.proceed, search) where
  source := matching
  unfailing _ same := by cases same

theorem expand_steady (setting : Setting τ) (graph : Identified) {rule : Rule}
    (accepted : rule.validate = .ok ()) (matching : search.source.Matching contract) :
    Steady contract (search.expand setting graph rule) := by
  obtain ⟨answer, kept⟩ := matching.reset rule graph.graph
  rw [accepted] at answer
  rw [expand]
  generalize search.source.reset rule graph.graph = step at answer kept
  obtain ⟨lines, outcome, source⟩ := step
  have answer : outcome = .ok _ := answer
  subst answer
  obtain ⟨same, unfailing⟩ :=
    takeInAll_kept setting { search.noteAll lines with source } graph rule.id _
  refine ⟨?_, unfailing⟩
  rw [same]
  exact kept

theorem expandAll_steady (setting : Setting τ) (graph : Identified) {rules : List (Except Fault Rule)}
    (valid : ∀ attempt ∈ rules, ∃ rule, attempt = .ok rule ∧ rule.validate = .ok ())
    (matching : search.source.Matching contract) :
    Steady contract (expandAll setting graph rules search) := by
  induction rules generalizing search with
  | nil => exact .proceed matching
  | cons first rest ih =>
    rw [List.forall_mem_cons] at valid
    obtain ⟨rule, rfl, accepted⟩ := valid.1
    have steady := expand_steady setting graph accepted matching
    rw [expandAll]
    generalize search.expand setting graph rule = step at steady
    obtain ⟨verdict, middle⟩ := step
    cases verdict with
    | proceed => exact ih valid.2 steady.source
    | stop status => exact steady
    | fail fault => exact steady

theorem expandRound_steady (setting : Setting τ) {prepared : Prepared} {waiting : List Identified}
    (served : ∀ graph ∈ waiting, prepared.Serves graph.graph)
    (matching : search.source.Matching contract) :
    Steady contract (expandRound setting prepared waiting search) := by
  induction waiting generalizing search with
  | nil => exact .proceed matching
  | cons graph rest ih =>
    rw [List.forall_mem_cons] at served
    rw [expandRound]
    split
    · have steady := expandAll_steady setting graph served.1.valid matching
      generalize expandAll setting graph (prepared.rulesFor graph.graph) search = step at steady
      obtain ⟨verdict, middle⟩ := step
      cases verdict with
      | proceed => exact ih served.2 steady.source
      | stop status => exact steady
      | fail fault => exact steady
    · have told : (search.emit setting (.skipped graph.ref)).source.Matching contract := matching
      exact ih served.2 told

private theorem expandRound_next (setting : Setting τ) (prepared : Prepared)
    (waiting : List Identified) (search : Search τ) (idle : search.next = [])
    (goesOn : (expandRound setting prepared waiting search).1 = .proceed) :
    ∀ graph ∈ (expandRound setting prepared waiting search).2.next,
      graph.graph ∈ (inquireRound setting prepared waiting search).flatMap Inquiry.heard := by
  have lawless : setting.order.LawfulOn fun _ => False := ⟨nofun, nofun⟩
  obtain ⟨added, grown, known⟩ :=
    (expandRound_course lawless prepared waiting search).intake.grown goesOn
  rw [grown.next, idle, List.append_nil]
  exact known

/-- By induction on the rounds that are allowed. -/
theorem runRounds_unfailing {prepared : Prepared} {allowed round last : Nat}
    {waiting : List Identified} {answer : Except Fault Status}
    (served : ∀ graph ∈ waiting.map Identified.graph ++
      (inquireRounds setting prepared allowed round waiting search).flatten.flatMap Inquiry.heard,
      prepared.Serves graph)
    (matching : search.source.Matching contract) (idle : search.next = [])
    (ended : runRounds setting prepared allowed round waiting search = some (answer, last, after)) :
    ∃ status, answer = .ok status := by
  induction allowed generalizing search waiting round with
  | zero =>
    cases waiting with
    | nil =>
      cases ended
      exact ⟨.converged, rfl⟩
    | cons graph rest => cases ended
  | succ allowed ih =>
    cases waiting with
    | nil =>
      cases ended
      exact ⟨.converged, rfl⟩
    | cons graph rest =>
      rw [inquireRounds_cons, List.forall_mem_append, List.forall_mem_map, List.flatten_cons,
        List.flatMap_append, List.forall_mem_append] at served
      obtain ⟨now, heard, later⟩ := served
      have started : (search.started setting (round + 1) (graph :: rest)).source.Matching
        contract := matching
      have steady := expandRound_steady setting now started
      have next :=
        expandRound_next setting prepared (graph :: rest)
          (search.started setting (round + 1) (graph :: rest)) idle
      rw [runRounds_cons] at ended
      generalize expandRound setting prepared (graph :: rest)
        (search.started setting (round + 1) (graph :: rest)) = step
        at steady next later ended
      obtain ⟨verdict, middle⟩ := step
      cases verdict with
      | fail fault => exact absurd rfl (steady.unfailing fault)
      | stop status =>
        cases ended
        exact ⟨status, rfl⟩
      | proceed =>
        refine ih (List.forall_mem_append.mpr ⟨List.forall_mem_map.mpr fun one member => ?_, later⟩)
          steady.source rfl ended
        exact heard _ (next rfl one member)

theorem run_unfailing {prepared : Prepared} {errorGraphs : List Hypergraph} {allowed last : Nat}
    {answer : Except Fault Status}
    (served : ∀ graph ∈ errorGraphs ++
        (search.inquiries setting prepared errorGraphs allowed).flatten.flatMap Inquiry.heard,
      prepared.Serves graph)
    (matching : search.source.Matching contract) (idle : search.next = [])
    (ended : search.run setting prepared errorGraphs allowed = some (answer, last, after)) :
    ∃ status, answer = .ok status := by
  obtain ⟨listed, source, next⟩ := takeInErrors_kept setting errorGraphs [] search
  rw [run] at ended
  rw [inquiries] at served
  generalize takeInErrors setting errorGraphs [] search = step at ended served listed source next
  obtain ⟨worklist, taken⟩ := step
  have listed : worklist.map Identified.graph = errorGraphs.reverse :=
    listed.trans (List.append_nil _)
  have source : taken.source = search.source := source
  have next : taken.next = search.next := next
  simp only at ended served
  split at ended
  next status covered =>
    cases ended
    exact ⟨status, rfl⟩
  next clear =>
    simp only [clear] at served
    have looked := isOutOfTime_alike setting taken
    generalize taken.isOutOfTime setting = look at ended served looked
    obtain ⟨late, later⟩ := look
    cases late with
    | true =>
      cases ended
      exact ⟨.timedOut, rfl⟩
    | false =>
      have looked : Alike taken later := looked
      have kept : later.source.Matching contract := by rwa [looked.source, source]
      refine runRounds_unfailing ?_ kept ((looked.next.trans next).trans idle) ended
      rw [listed]
      simpa only [List.forall_mem_append, List.mem_reverse] using served

end Search

namespace Analysis

variable {τ : Type} {analysis : Analysis τ} {clock : Nat → Nat} {allowed cap : Nat} {contract : Bool}

/-- The graphs that a search comes to: those to be covered, and all that it has heard. -/
def reached (analysis : Analysis τ) (clock : Nat → Nat) (allowed : Nat) : List Hypergraph :=
  analysis.errorGraphs ++ (analysis.inquiries clock allowed).flatten.flatMap Inquiry.heard

/-- No instance of a quantified rule runs out of identifiers on a graph that the search comes to. -/
def InstancesLast (analysis : Analysis τ) (clock : Nat → Nat) (allowed cap : Nat) : Prop :=
  ∀ graph ∈ analysis.reached clock allowed,
    ∀ rule ∈ analysis.system.quantifiedRules.values, rule.HasRoomFor (graph.copyBound cap)

private theorem validating_accepted (validates : analysis.preparer = .validating cap)
    (passed : analysis.system.validate = .ok ()) :
    ∃ lines, analysis.preparer analysis.system analysis.order =
      (lines, .ok ⟨analysis.system.name, analysis.system.rules,
        analysis.system.quantifiedRules, cap⟩) := by
  rw [validates, Preparer.validating, passed]
  exact ⟨_, rfl⟩

private theorem validating_rejected {fault : Fault} (validates : analysis.preparer = .validating cap)
    (failed : analysis.system.validate = .error fault) :
    analysis.preparer analysis.system analysis.order = ([], .error fault) := by
  rw [validates, Preparer.validating, failed]

private theorem perform_unfailing {run : Run τ} {lines : List Line} {prepared : Prepared}
    (ready : analysis.preparer analysis.system analysis.order = (lines, .ok prepared))
    (matching : analysis.source.Matching contract)
    (served : ∀ graph ∈ analysis.reached clock allowed, prepared.Serves graph)
    (performed : analysis.perform clock allowed = some run) :
    ∃ outcome, run.result = .ok outcome := by
  rw [perform_prepared ready] at performed
  obtain ⟨⟨answer, last, after⟩, ran, rfl⟩ := Option.map_eq_some_iff.mp performed
  rw [reached, inquiries, ready] at served
  have opened : (analysis.opening clock lines prepared).source.Matching contract := matching
  obtain ⟨status, rfl⟩ := Search.run_unfailing served opened rfl ran
  exact ⟨_, rfl⟩

/-- An analysis of validated rules that takes predecessors from matches fails just if a rule does not
pass validation. Then nothing has been told, no identity has been issued and the source has not been
used. Otherwise every graph that the search comes to is served, however long the search takes. -/
theorem perform_faults (validates : analysis.preparer = .validating cap)
    (matching : analysis.source.Matching contract)
    (formed : ∀ rule ∈ analysis.system.quantifiedRules.values, rule.Formed)
    (lasts : analysis.InstancesLast clock allowed cap) :
    ((∃ run fault, analysis.perform clock allowed = some run ∧ run.result = .error fault) ↔
      ∃ fault, analysis.system.Rejects fault) ∧
    ((∃ fault, analysis.system.Rejects fault) → ∃ fault, analysis.system.Rejects fault ∧
      analysis.perform clock allowed = some ⟨.error fault, #[], analysis⟩) ∧
    ((¬∃ fault, analysis.system.Rejects fault) → ∃ prepared,
      (analysis.preparer analysis.system analysis.order).2 = .ok prepared ∧
        ∀ graph ∈ analysis.reached clock allowed, prepared.Serves graph) := by
  rcases analysis.system.validate_cases with ⟨passed, accepted⟩ | ⟨fault, failed, blamed⟩
  · obtain ⟨lines, ready⟩ := validating_accepted validates passed
    have served : ∀ graph ∈ analysis.reached clock allowed,
        Prepared.Serves ⟨analysis.system.name, analysis.system.rules,
          analysis.system.quantifiedRules, cap⟩ graph :=
      fun graph member => accepted.serves formed (lasts graph member)
    have sound : ¬∃ fault, analysis.system.Rejects fault :=
      fun ⟨_, blamed⟩ => accepted.not_rejects blamed
    refine ⟨⟨fun ⟨run, fault, performed, broken⟩ => ?_, fun blamed => absurd blamed sound⟩,
      fun blamed => absurd blamed sound, fun _ => ⟨_, by rw [ready], served⟩⟩
    obtain ⟨outcome, finished⟩ := perform_unfailing ready matching served performed
    cases broken.symm.trans finished
  · have performed : analysis.perform clock allowed = some ⟨.error fault, #[], analysis⟩ :=
      perform_unprepared (validating_rejected validates failed)
    exact ⟨⟨fun _ => ⟨fault, blamed⟩, fun _ => ⟨_, fault, performed, rfl⟩⟩,
      fun _ => ⟨fault, blamed, performed⟩, fun sound => absurd ⟨fault, blamed⟩ sound⟩

/-- The edges between a centre and its neighbours are relabelled. The part for one neighbour has two
vertices for the centre, and the second is anchored at a vertex of choice. -/
def relabelling (anchor : VertexId) : QuantifiedRule where
  id := "relabel"
  name := "relabel"
  base := ⟨"", "", .ofEdges 1 [], .ofEdges 1 [], Table.insert ∅ ⟨0⟩ ⟨0⟩, ∅⟩
  quantified := ⟨"", "", .ofEdges 3 [("old", [0, 2])], .ofEdges 3 [("new", [1, 2])],
    Table.insertAll ∅ [(⟨0⟩, ⟨0⟩), (⟨1⟩, ⟨1⟩), (⟨2⟩, ⟨2⟩)], ∅⟩
  anchors := Table.insertAll ∅ [(⟨0⟩, ⟨0⟩), (⟨1⟩, anchor)]

/-- Graphs are compared by how many edges have the new label. -/
def starSearch (anchor : VertexId) : Analysis EventLog where
  system := { quantifiedRules := Table.insert ∅ "relabel" (relabelling anchor) }
  errorGraphs := [.ofEdges 3 [("new", [0, 1]), ("new", [0, 2])]]
  order := ⟨"new", false, fun smaller bigger =>
    smaller.shapeCount ("new", 2) ≤ bigger.shapeCount ("new", 2)⟩
  preparer := .validating 0
  source := .ofMatches {}
  sink := .log
  sinkState := {}
  config := {}

theorem starSearch_faults :
    ((starSearch ⟨0⟩).inquiries (fun _ => 0) 4).map
      (fun made => made.map fun inquiry => inquiry.answer.length) = [[0, 2, 10], [0, 0, 0]] ∧
    (∃ run outcome, (starSearch ⟨0⟩).perform (fun _ => 0) 4 = some run ∧ run.result = .ok outcome) ∧
    (∃ prepared,
      (Preparer.validating 0 (starSearch ⟨0⟩).system (starSearch ⟨0⟩).order).2 = .ok prepared ∧
      ∀ graph ∈ (starSearch ⟨0⟩).reached (fun _ => 0) 4, prepared.Serves graph) ∧
    (starSearch ⟨7⟩).perform (fun _ => 0) 4 =
      some ⟨.error (.looseAnchor "relabel" ⟨1⟩ ⟨7⟩), #[], starSearch ⟨7⟩⟩ := by
  have single (anchor : VertexId) {fault : Fault}
      (blamed : (starSearch anchor).system.Rejects fault) :
      (relabelling anchor).validate = .error fault := by
    rcases blamed with ⟨_, member, _⟩ | ⟨rule, member, failed⟩
    · cases member
    · have same : rule = relabelling anchor := List.mem_singleton.mp member
      rwa [same] at failed
  have accepted : (relabelling ⟨0⟩).validate = .ok () := by decide +kernel
  have rejected : (relabelling ⟨7⟩).validate =
    .error (.looseAnchor "relabel" ⟨1⟩ ⟨7⟩) := by decide +kernel
  have formed : ∀ rule ∈ (starSearch ⟨0⟩).system.quantifiedRules.values,
    rule.Formed := by decide +kernel
  have formedLoose : ∀ rule ∈ (starSearch ⟨7⟩).system.quantifiedRules.values,
    rule.Formed := by decide +kernel
  have lasts : (starSearch ⟨0⟩).InstancesLast (fun _ => 0) 4 0 := by
    rw [InstancesLast]
    decide +kernel
  have lastsLoose : (starSearch ⟨7⟩).InstancesLast (fun _ => 0) 4 0 := by
    rw [InstancesLast]
    decide +kernel
  have ends : ((starSearch ⟨0⟩).perform (fun _ => 0) 4).isSome = true := by decide +kernel
  obtain ⟨fails, _, serves⟩ := perform_faults rfl ⟨{}, rfl, rfl⟩ formed lasts
  obtain ⟨_, stops, _⟩ := perform_faults rfl ⟨{}, rfl, rfl⟩ formedLoose lastsLoose
  have sound : ¬∃ fault, (starSearch ⟨0⟩).system.Rejects fault := by
    rintro ⟨fault, blamed⟩
    cases (single ⟨0⟩ blamed).symm.trans accepted
  refine ⟨by decide +kernel, ?_, serves sound, ?_⟩
  · obtain ⟨run, performed⟩ := Option.isSome_iff_exists.mp ends
    cases finished : run.result with
    | ok outcome => exact ⟨run, outcome, performed, finished⟩
    | error fault => exact absurd (fails.mp ⟨run, fault, performed, finished⟩) sound
  · obtain ⟨fault, blamed, performed⟩ := stops ⟨_, .inr ⟨_, List.mem_singleton_self _, rejected⟩⟩
    cases (single ⟨7⟩ blamed).symm.trans rejected
    exact performed

end Analysis

end Coverability
