import Coverability.Proofs.BackwardStep
import Coverability.Proofs.Fixpoint
import Coverability.Proofs.Orders

/-! What a converged search has found when its source yields the complements of matches. Everything
it has heard is coverable, since each step back is one that a rule can take forward. Conversely, a
step that ends above an element starts above the element or above something that was heard about it,
so all that is coverable lies above the antichain, unless a rule can make use of contractions
outside itself. -/

namespace Coverability

namespace Rule

variable {rule : Rule} {graph next : Hypergraph}

/-- Steps do not depend on what a rule is called. -/
theorem Rewrites.renamed (rewrites : rule.Rewrites graph next) (id : RuleId) (name : String) :
    Rule.Rewrites { rule with id, name } graph next := by
  obtain ⟨found, same⟩ := rewrites
  exact ⟨⟨found.vertex, found.edge, found.vertex_inside, found.vertex_injective, found.edge_kept,
    found.edge_injective, found.dangling⟩, same⟩

/-- A rule whose steps contractions elsewhere in the graph cannot help: it creates nothing, or only
one vertex connects what it creates to the rest. -/
def Narrow (rule : Rule) : Prop := ¬rule.Creates ∨ rule.vertexMap.size ≤ 1

end Rule

/-- More errors and more rules, whatever they are called, make more graphs coverable. -/
theorem Coverable.mono {order : Order} {rules others : List Rule} {errors more : List Hypergraph}
    {graph : Hypergraph} (coverable : Coverable order rules errors graph)
    (fewer : ∀ rule ∈ rules, ∃ id name, { rule with id, name } ∈ others) (within : errors ⊆ more) :
    Coverable order others more graph := by
  induction coverable with
  | error listed => exact .error (within listed)
  | above _ formed below ih => exact .above ih formed below
  | step available formed formedNext rewrites _ ih =>
    obtain ⟨id, name, listed⟩ := fewer _ available
    exact .step listed formed formedNext (rewrites.renamed id name) ih

/-- Whatever it is asked, a source of matches takes valid rules only and yields the complements of
all their matches. -/
theorem MatchSource.answers (source : MatchSource) :
    (Source.ofMatches source).Answers fun rule graph answer =>
    rule.validate = .ok () ∧ ∀ before, before ∈ answer.filterMap Yield.graph? ↔
      ∃ found ∈ Matching.all ⟨rule, graph, source.contract⟩,
        complement rule graph found = .ok before := by
  refine ⟨fun state => MatchSource.contract state = source.contract, rfl,
    fun (state : MatchSource) mode rule graph => ?_⟩
  have mode : state.contract = source.contract := mode
  have yields : ∀ (known : List PartialMatch) (found : PartialMatch) (before : Hypergraph),
      (LoadedMatches.yield ⟨rule, graph, known⟩ found).graph? = some before ↔
      complement rule graph found = .ok before := by
    intro known found before
    rw [LoadedMatches.yield]
    cases complement rule graph found with
    | ok other => simp [Yield.graph?]
    | error fault => simp [Yield.graph?]
  cases accepted : rule.validate with
  | error fault =>
    simp only [Source.ofMatches, MatchSource.reset, accepted]
    refine ⟨mode, ?_⟩
    intro answer same
    cases same
  | ok =>
    simp only [Source.ofMatches, MatchSource.reset, accepted]
    refine ⟨mode, fun answer same => ⟨trivial, fun before => ?_⟩⟩
    cases same
    simp only [MatchSource.yields, List.filterMap_map, List.mem_filterMap,
      Function.comp_apply, yields, mode]

namespace Analysis

variable {τ : Type} {analysis : Analysis τ} {kind : OrderKind} {outcome : Outcome}
  {clock : Nat → Nat} {allowed : Nat}

/-- An analysis of plain rules with the parts that go with an order. All its graphs are well-formed,
and no rule creates an edge without vertices. -/
structure Suited (analysis : Analysis τ) (kind : OrderKind) : Prop where
  order : analysis.order = kind.order
  preparer : ∃ cap, analysis.preparer = .validating cap
  source : ∃ source : MatchSource, analysis.source = .ofMatches source ∧
    source.contract = kind.order.contracts
  plain : analysis.system.quantifiedRules = ∅
  sides : ∀ rule ∈ analysis.system.rules.values, rule.left.WellFormed ∧
    rule.right.WellFormed ∧ rule.Ended
  errors : ∀ error ∈ analysis.errorGraphs, error.WellFormed ∧ error.Numbered

/-- No graph that is expanded runs out of identifiers. -/
def Lasts (analysis : Analysis τ) (clock : Nat → Nat) (allowed : Nat) : Prop :=
  ∀ inquiry ∈ (analysis.inquiries clock allowed).flatten, inquiry.origin.graph.HasRoomFor inquiry.rule

/-- The analysis has been performed until it converged. -/
structure Exhausted (analysis : Analysis τ) (kind : OrderKind) (outcome : Outcome) :
    Prop extends analysis.Suited kind where
  converged : outcome.status = .converged
  performed : ∃ clock allowed run, analysis.perform clock allowed = some run ∧
    run.result = .ok outcome ∧ analysis.Lasts clock allowed

/-- The graphs of an analysis from which its rules lead to one of its errors. -/
abbrev Covers (analysis : Analysis τ) : Hypergraph → Prop :=
  Coverable analysis.order analysis.system.rules.values analysis.errorGraphs

namespace Suited

variable {inquiry : Inquiry} {graph : Hypergraph}

theorem rulesFor (suited : analysis.Suited kind) {prepared : Prepared}
    (ready : (analysis.preparer analysis.system analysis.order).2 = .ok prepared)
    (graph : Hypergraph) :
    prepared.rulesFor graph = analysis.system.rules.values.map .ok := by
  obtain ⟨cap, same⟩ := suited.preparer
  rw [same, Preparer.validating] at ready
  split at ready
  · cases ready
  · cases ready
    rw [Prepared.rulesFor, suited.plain]
    exact List.append_nil _

/-- What there is to say about an inquiry. -/
structure Asked (analysis : Analysis τ) (inquiry : Inquiry) : Prop where
  available : inquiry.rule ∈ analysis.system.rules.values
  sane : inquiry.rule.Sane
  ended : inquiry.rule.Ended
  answer : ∀ before, before ∈ inquiry.answer.filterMap Yield.graph? ↔
    ∃ found ∈ Matching.all ⟨inquiry.rule, inquiry.origin.graph, analysis.order.contracts⟩,
      complement inquiry.rule inquiry.origin.graph found = .ok before
  heard : inquiry.heard ⊆ inquiry.answer.filterMap Yield.graph?

theorem asked (suited : analysis.Suited kind) {prepared : Prepared}
    (ready : (analysis.preparer analysis.system analysis.order).2 = .ok prepared)
    (member : inquiry ∈ (analysis.inquiries clock allowed).flatten) : Asked analysis inquiry := by
  have listed := inquiries_asked ready inquiry member
  rw [suited.rulesFor ready, List.mem_map] at listed
  obtain ⟨rule, available, same⟩ := listed
  cases same
  obtain ⟨source, isSource, mode⟩ := suited.source
  have answers := MatchSource.answers source
  rw [← isSource, mode, ← suited.order] at answers
  obtain ⟨⟨accepted, answer⟩, heard⟩ := inquiries_answers answers inquiry member
  obtain ⟨left, right, ended⟩ := suited.sides _ available
  exact ⟨available, ⟨Rule.valid_of_validate accepted, left, right⟩, ended, answer, heard⟩

theorem decides (suited : analysis.Suited kind) : analysis.order.Decides := by
  rw [suited.order]
  exact kind.order_decides

theorem lawful (suited : analysis.Suited kind) : analysis.order.LawfulOn Hypergraph.WellFormed := by
  have decides : analysis.order.Decides := suited.decides
  exact decides.lawful

end Suited

section Steps

variable {inquiry : Inquiry} {graph : Hypergraph}

/-- What is heard about a graph is well-formed, and coverable if the graph is. -/
theorem Suited.Asked.heard_covers (asked : Suited.Asked analysis inquiry)
    (decides : analysis.order.Decides) (formed : inquiry.origin.graph.WellFormed)
    (numbered : inquiry.origin.graph.Numbered) (room : inquiry.origin.graph.HasRoomFor inquiry.rule)
    (heard : graph ∈ inquiry.heard) :
    graph.WellFormed ∧ graph.Numbered ∧
    (analysis.Covers inquiry.origin.graph → analysis.Covers graph) := by
  obtain ⟨found, member, complemented⟩ := (asked.answer graph).mp (asked.heard heard)
  obtain ⟨result, yielded, formedResult, numberedResult, occurrence, below⟩ :=
    Matching.sound_of_mem_all asked.sane formed numbered room member
  cases complemented.symm.trans yielded
  refine ⟨formedResult, numberedResult, fun coverable => ?_⟩
  exact Coverable.of_match decides asked.sane asked.available formedResult formed
    occurrence below coverable

/-- A step that ends above a graph starts above the graph or above something that was heard about it. -/
theorem Suited.Asked.above_heard (asked : Suited.Asked analysis inquiry)
    (decides : analysis.order.Decides) (formed : inquiry.origin.graph.WellFormed)
    (numbered : inquiry.origin.graph.Numbered) (room : inquiry.origin.graph.HasRoomFor inquiry.rule)
    (drained : inquiry.Drained) (direct : analysis.order.contracts = true → inquiry.rule.Narrow)
    {next : Hypergraph} (formedGraph : graph.WellFormed) (formedNext : next.WellFormed)
    (rewrites : inquiry.rule.Rewrites graph next)
    (below : analysis.order.le inquiry.origin.graph next = true) :
    analysis.order.le inquiry.origin.graph graph = true ∨
      ∃ heard ∈ inquiry.heard, heard.WellFormed ∧ analysis.order.le heard graph = true := by
  obtain ⟨occurrence, iso⟩ := rewrites
  obtain ⟨toNext⟩ := iso
  have closed := occurrence.result_closed asked.sane formedGraph
  have belowResult : Skeleton.Below analysis.order.contracts inquiry.origin.graph.skeleton
      occurrence.result :=
    ((decides formed formedNext).mp below).trans ((toNext.symm closed).below (toNext.closed closed) _)
  obtain ⟨model, rigid⟩ := belowResult
  have rigidBefore : analysis.order.contracts = false →
      (occurrence.contextModel formedGraph asked.sane model).Single :=
    fun fixed => occurrence.contextModel_single formedGraph asked.sane (rigid fixed)
  have connected : inquiry.rule.Creates →
      Splitting.Connected (occurrence.contextModel formedGraph asked.sane model) := by
    intro creates
    cases mode : analysis.order.contracts with
    | false => exact Splitting.connected_of_single (rigidBefore mode)
    | true => exact Splitting.connected_of_few ((direct mode).resolve_left (not_not_intro creates))
  let matching : Matching := ⟨inquiry.rule, inquiry.origin.graph, analysis.order.contracts⟩
  have sane : matching.rule.Sane := asked.sane
  have ended : matching.rule.Ended := asked.ended
  have formedOrigin : matching.graph.WellFormed := formed
  rcases Matching.complete_of_match sane ended formedOrigin numbered room formedGraph occurrence
      _ rigidBefore connected with
    already | ⟨found, member, before, complemented, under⟩
  · exact .inl ((decides formed formedGraph).mpr already)
  · have heard : before ∈ inquiry.heard := by
      rw [drained]
      exact (asked.answer before).mpr ⟨found, member, complemented⟩
    have formedBefore := (asked.heard_covers decides formed numbered room heard).1
    exact .inr ⟨before, heard, formedBefore, (decides formedBefore formedGraph).mpr under⟩

end Steps

/-- Incomparable graphs that are coverable. All that is coverable lies above them, as far as the
rules cannot make use of contractions elsewhere. -/
structure Basis (analysis : Analysis τ) (elements : List Identified) : Prop where
  formed : ∀ element ∈ elements, element.graph.WellFormed
  incomparable : elements.Pairwise fun first second =>
    analysis.order.le first.graph second.graph = false ∧
    analysis.order.le second.graph first.graph = false
  coverable : ∀ element ∈ elements, analysis.Covers element.graph
  complete : (∀ rule ∈ analysis.system.rules.values, analysis.order.contracts = true → rule.Narrow) →
    ∀ {graph}, analysis.Covers graph → ∃ element ∈ elements,
      analysis.order.le element.graph graph = true

private theorem Basis.named {elements : List Identified} (basis : analysis.Basis elements)
    (decides : analysis.order.Decides) (errors : ∀ error ∈ analysis.errorGraphs, error.WellFormed) :
    analysis.Basis (elements.map Identified.withDefaultName) where
  formed named member := by
    obtain ⟨element, inside, rfl⟩ := List.mem_map.mp member
    exact (basis.formed element inside).named _
  incomparable := by
    rw [List.pairwise_map]
    refine basis.incomparable.imp_of_mem fun {first second} atFirst atSecond apart => ?_
    have formedFirst := basis.formed first atFirst
    have formedSecond := basis.formed second atSecond
    have left :=
      decides.le_congr (formedFirst.named first.defaultName) (formedSecond.named second.defaultName)
        formedFirst formedSecond rfl rfl
    have right :=
      decides.le_congr (formedSecond.named second.defaultName) (formedFirst.named first.defaultName)
        formedSecond formedFirst rfl rfl
    exact ⟨left.trans apart.1, right.trans apart.2⟩
  coverable named member := by
    obtain ⟨element, inside, rfl⟩ := List.mem_map.mp member
    have formed := basis.formed element inside
    have same := decides.le_congr formed (formed.named element.defaultName) formed formed rfl rfl
    exact .above (basis.coverable element inside) (formed.named _)
      (same.trans (decides.lawful.refl formed))
  complete narrow graph coverable := by
    obtain ⟨element, inside, below⟩ := basis.complete narrow coverable
    have formed := basis.formed element inside
    have formedGraph := coverable.formed errors
    have same :=
      decides.le_congr (formed.named element.defaultName) formedGraph formed formedGraph rfl rfl
    exact ⟨element.withDefaultName, List.mem_map_of_mem inside, same.trans below⟩

/-- What can be asked about. -/
private abbrev Fit (graph : Hypergraph) : Prop := graph.WellFormed ∧ graph.Numbered

/-- A search that has converged, with the graphs it has found. -/
private structure Settled (analysis : Analysis τ) (kind : OrderKind) (clock : Nat → Nat)
    (allowed : Nat) (outcome : Outcome) (prepared : Prepared) (found : List Identified) : Prop where
  suited : analysis.Suited kind
  ready : (analysis.preparer analysis.system analysis.order).2 = .ok prepared
  lasts : analysis.Lasts clock allowed
  converged : outcome.status = .converged
  known : Found analysis Fit prepared (analysis.inquiries clock allowed) outcome found

private theorem Suited.lawful_fit (suited : analysis.Suited kind) : analysis.order.LawfulOn Fit where
  refl fit := suited.lawful.refl fit.1
  trans first second third := suited.lawful.trans first.1 second.1 third.1

private theorem Exhausted.settled (exhausted : analysis.Exhausted kind outcome) :
    ∃ clock allowed prepared found,
    analysis.Settled kind clock allowed outcome prepared found := by
  obtain ⟨clock, allowed, run, performed, finished, lasts⟩ := exhausted.performed
  have suited := exhausted.toSuited
  obtain ⟨lines, prepared, _, prepares, _⟩ := perform_run performed finished
  have ready : (analysis.preparer analysis.system analysis.order).2 = .ok prepared := by rw [prepares]
  have trusted : Search.Trusted Fit (analysis.inquiries clock allowed).flatten := by
    intro inquiry member fit graph heard
    have step :=
      (suited.asked ready member).heard_covers suited.decides fit.1 fit.2 (lasts inquiry member) heard
    exact ⟨step.1, step.2.1⟩
  obtain ⟨prepared', found, ready', _, known⟩ :=
    perform_found suited.lawful_fit suited.errors trusted performed finished
  cases Except.ok.inj (ready.symm.trans ready')
  exact ⟨clock, allowed, prepared, found, suited, ready, lasts, exhausted.converged, known⟩

namespace Settled

variable {prepared : Prepared} {found : List Identified}

private theorem asked_covers (settled : analysis.Settled kind clock allowed outcome prepared found) :
    ∀ inquiry ∈ (analysis.inquiries clock allowed).flatten,
      (Fit inquiry.origin.graph ∧ analysis.Covers inquiry.origin.graph) ∧
      ∀ graph ∈ inquiry.heard, Fit graph ∧ analysis.Covers graph := by
  refine (settled.known.linked settled.converged).all (fun graph => Fit graph ∧ analysis.Covers graph)
    (fun error listed => ⟨settled.suited.errors error listed, .error listed⟩)
      fun inquiry member origin graph heard => ?_
  have asked := settled.suited.asked settled.ready member
  have step :=
    asked.heard_covers settled.suited.decides origin.1.1 origin.1.2
      (settled.lasts inquiry member) heard
  exact ⟨⟨step.1, step.2.1⟩, step.2.2 origin.2⟩

private theorem covers (settled : analysis.Settled kind clock allowed outcome prepared found) :
    ∀ element ∈ found, analysis.Covers element.graph := by
  intro element member
  have fit := settled.known.fit element member
  obtain ⟨graph, listed, below⟩ :=
    (settled.known.minimal.above_iff element.graph fit).mp
      ⟨element, member, settled.suited.lawful_fit.refl fit⟩
  rcases List.mem_append.mp listed with error | heard
  · exact .above (.error error) fit.1 below
  · obtain ⟨inquiry, asked, heard⟩ := List.mem_flatMap.mp heard
    exact .above ((settled.asked_covers inquiry asked).2 graph heard).2 fit.1 below

private theorem above_of_step (settled : analysis.Settled kind clock allowed outcome prepared found)
    {rule : Rule} (available : rule ∈ analysis.system.rules.values)
    (narrow : analysis.order.contracts = true → rule.Narrow) {graph next : Hypergraph}
    (formed : graph.WellFormed) (formedNext : next.WellFormed) (rewrites : rule.Rewrites graph next)
    (above : ∃ element ∈ found, analysis.order.le element.graph next = true) :
    ∃ element ∈ found, analysis.order.le element.graph graph = true := by
  obtain ⟨element, member, under⟩ := above
  -- The rule has been put to the source for this element, and everything yielded has been heard.
  obtain ⟨rules, made⟩ := settled.known.expanded settled.converged element member
  have listed : Except.ok rule ∈ prepared.rulesFor element.graph := by
    rw [settled.suited.rulesFor settled.ready]
    exact List.mem_map_of_mem available
  rw [← rules] at listed
  obtain ⟨inquiry, about, same⟩ := List.mem_map.mp listed
  cases same
  obtain ⟨rfl, drained⟩ := made inquiry about
  have asked := List.mem_of_mem_filter about
  obtain ⟨⟨⟨formedOrigin, numbered⟩, _⟩, heardFit⟩ := settled.asked_covers inquiry asked
  rcases (settled.suited.asked settled.ready asked).above_heard settled.suited.decides formedOrigin
    numbered (settled.lasts inquiry asked) drained
    narrow formed formedNext rewrites under with above | ⟨before, heard, formedBefore, above⟩
  · exact ⟨inquiry.origin, member, above⟩
  · have fit := (heardFit before heard).1
    obtain ⟨other, inside, below⟩ := (settled.known.minimal.above_iff before fit).mpr
      ⟨before, List.mem_append_right _ (List.mem_flatMap.mpr ⟨inquiry, asked, heard⟩),
        settled.suited.lawful_fit.refl fit⟩
    exact ⟨other, inside,
      settled.suited.lawful.trans (settled.known.fit other inside).1 formedBefore formed below above⟩

private theorem above_of_covers (settled : analysis.Settled kind clock allowed outcome prepared found)
    (narrow : ∀ rule ∈ analysis.system.rules.values, analysis.order.contracts = true → rule.Narrow)
    {graph : Hypergraph} (coverable : analysis.Covers graph) :
    ∃ element ∈ found, analysis.order.le element.graph graph = true := by
  induction coverable with
  | @error graph listed =>
    have fit := settled.suited.errors graph listed
    exact (settled.known.minimal.above_iff graph fit).mpr
      ⟨graph, List.mem_append_left _ listed, settled.suited.lawful_fit.refl fit⟩
  | above coverable formed below ih =>
    obtain ⟨element, member, under⟩ := ih
    have formedSmaller := coverable.formed fun error listed => (settled.suited.errors error listed).1
    have formedElement := (settled.known.fit element member).1
    exact ⟨element, member,
      settled.suited.lawful.trans formedElement formedSmaller formed under below⟩
  | @step rule _ _ available formed formedNext rewrites _ ih =>
    exact settled.above_of_step available (narrow rule available) formed formedNext rewrites ih

end Settled

/-- The antichain of a search that has converged is such a basis. -/
theorem Exhausted.basis (exhausted : analysis.Exhausted kind outcome) :
    analysis.Basis outcome.antichain.elements := by
  obtain ⟨clock, allowed, prepared, found, settled⟩ := exhausted.settled
  have basis : analysis.Basis found :=
    ⟨fun element member => (settled.known.fit element member).1, settled.known.minimal.incomparable,
      settled.covers, fun narrow graph coverable => settled.above_of_covers narrow coverable⟩
  rw [settled.known.returned, if_pos exhausted.converged]
  exact basis.named settled.suited.decides fun error listed => (settled.suited.errors error listed).1

private theorem exhausted_of_returns {β : Type} {value : β} (summary : List Identified → β)
    (suited : analysis.Suited kind) (lasts : analysis.Lasts clock allowed)
    (returned : (analysis.returns clock allowed).map (fun found => (found.1, summary found.2)) =
      some (.converged, value)) :
    ∃ outcome, analysis.Exhausted kind outcome ∧ summary outcome.antichain.elements = value := by
  obtain ⟨⟨status, elements⟩, returned, same⟩ := Option.map_eq_some_iff.mp returned
  obtain ⟨converged, summarized⟩ := Prod.mk.inj same
  obtain ⟨run, outcome, performed, finished, rfl, rfl⟩ := perform_of_returns returned
  exact ⟨outcome, ⟨suited, converged, clock, allowed, run, performed, finished, lasts⟩, summarized⟩

/-- Rules that are the same but for what they are called. -/
def SameRules (rules others : List Rule) : Prop :=
  (∀ rule ∈ rules, ∃ id name, { rule with id, name } ∈ others) ∧
  ∀ rule ∈ others, ∃ id name, { rule with id, name } ∈ rules

private theorem Exhausted.agree {υ : Type} {other : Analysis υ} {result : Outcome}
    (exhausted : analysis.Exhausted kind outcome) (again : other.Exhausted kind result)
    (rigid : kind.order.contracts = false)
    (errors : ∀ error, error ∈ other.errorGraphs ↔ error ∈ analysis.errorGraphs)
    (rules : SameRules analysis.system.rules.values other.system.rules.values) :
    ∃ matched : List Identified, matched.Perm result.antichain.elements ∧
      List.Forall₂ (fun one other => areIsomorphic one.graph other.graph = true)
        outcome.antichain.elements matched := by
  have decides : analysis.order.Decides := exhausted.toSuited.decides
  have sameOrder : other.order = analysis.order := again.order.trans exhausted.order.symm
  have first := exhausted.basis
  have second := again.basis
  have narrow : ∀ {rules : List Rule}, ∀ rule ∈ rules, analysis.order.contracts = true →
      rule.Narrow := by
    intro rules rule _ contracts
    rw [exhausted.order, rigid] at contracts
    cases contracts
  have covered : ∀ element ∈ outcome.antichain.elements, ∃ below ∈ result.antichain.elements,
      analysis.order.le below.graph element.graph = true := by
    intro element member
    have coverable :=
      (first.coverable element member).mono rules.1 fun error listed => (errors error).mpr listed
    rw [← sameOrder] at coverable narrow ⊢
    exact second.complete narrow coverable
  have covers : ∀ element ∈ result.antichain.elements, ∃ below ∈ outcome.antichain.elements,
      analysis.order.le below.graph element.graph = true := by
    intro element member
    have coverable :=
      (second.coverable element member).mono rules.2 fun error listed => (errors error).mp listed
    rw [sameOrder] at coverable
    exact first.complete narrow coverable
  have apart := second.incomparable
  rw [sameOrder] at apart
  obtain ⟨matched, perm, along⟩ :=
    Antichain.exists_matching decides.lawful first.formed second.formed first.incomparable
      apart covered covers
  refine ⟨matched, perm, along.imp fun one other paired => ?_⟩
  have formedOne := first.formed one paired.1.1
  have formedOther := second.formed other paired.1.2
  exact (areIsomorphic_iff formedOne formedOther).mpr
    ((decides.antisymmetric formedOne formedOther).mp paired.2)

/-- A rule that marks a vertex. -/
def marking : Rule where
  id := "mark"
  name := ""
  left := .ofEdges 1 [("A", [0])]
  right := .ofEdges 1 [("A", [0]), ("P", [0])]
  vertexMap := .ofList [(⟨0⟩, ⟨0⟩)]
  edgeMap := .ofList [(⟨1⟩, ⟨1⟩)]

/-- A search for the graphs that can come to have a marked vertex. -/
def markedSearch (kind : OrderKind) : Analysis Unit where
  system := { rules := Table.insert ∅ "mark" marking }
  errorGraphs := [.ofEdges 1 [("P", [0])]]
  order := kind.order
  preparer := .validating 0
  source := .ofMatches (.forOrder kind.order)
  sink := .null
  sinkState := ()
  config := { order := kind }

private theorem markedSearch_exhausted (kind : OrderKind) :
    ∃ outcome, (markedSearch kind).Exhausted kind outcome ∧
    outcome.antichain.elements.map
      (fun element => (kind.order.le element.graph (.ofEdges 2 [("B", [0, 1]), ("A", [1])]),
      kind.order.le element.graph (.ofEdges 2 [("B", [0, 1])]))) =
        [(false, false), (true, false)] := by
  have sides : ∀ rule ∈ [marking], rule.left.WellFormed ∧ rule.right.WellFormed ∧
    rule.Ended := by decide +kernel
  have errors : ∀ error ∈ [Hypergraph.ofEdges 1 [("P", [0])]], error.WellFormed ∧
    error.Numbered := by decide +kernel
  have lasts : (markedSearch kind).Lasts (fun _ => 0) 3 := by
    rw [Lasts]
    cases kind <;> decide +kernel
  have suited : (markedSearch kind).Suited kind :=
    ⟨rfl, ⟨0, rfl⟩, ⟨.forOrder kind.order, rfl, rfl⟩, rfl, sides, errors⟩
  apply exhausted_of_returns (List.map _) suited lasts
  cases kind <;> decide +kernel

/-- In the subgraph order an exhausted search has found a basis of just the coverable graphs. So the
order in which errors and rules are listed makes no difference, up to isomorphism. -/
theorem exhausted_exact (exhausted : analysis.Exhausted .subgraph outcome) :
    (∀ graph : Hypergraph, graph.WellFormed →
      ((∃ element ∈ outcome.antichain.elements, Order.subgraph.le element.graph graph = true) ↔
      Coverable .subgraph analysis.system.rules.values analysis.errorGraphs graph)) ∧
    ∀ {υ : Type} (other : Analysis υ) (result : Outcome), other.Exhausted .subgraph result →
      (∀ error, error ∈ other.errorGraphs ↔ error ∈ analysis.errorGraphs) →
      SameRules analysis.system.rules.values other.system.rules.values →
        ∃ matched : List Identified, matched.Perm result.antichain.elements ∧
          List.Forall₂ (fun one other => areIsomorphic one.graph other.graph = true)
            outcome.antichain.elements matched := by
  have order : analysis.order = .subgraph := exhausted.order
  have basis := exhausted.basis
  refine ⟨fun graph formed => ?_, fun other result again errors rules =>
    exhausted.agree again rfl errors rules⟩
  rw [← order]
  constructor
  · intro above
    obtain ⟨element, member, below⟩ := above
    exact .above (basis.coverable element member) formed below
  · apply basis.complete
    intro rule _ contracts
    rw [order] at contracts
    cases contracts

/-- A vertex with the right label can be marked. -/
theorem markedSearch_reaches :
    Coverable .subgraph [marking] [.ofEdges 1 [("P", [0])]]
      (.ofEdges 2 [("B", [0, 1]), ("A", [1])]) := by
  obtain ⟨outcome, exhausted, compared⟩ := markedSearch_exhausted .subgraph
  have known : (true, false) ∈ [(false, false), (true, false)] := by decide
  rw [← compared] at known
  obtain ⟨element, member, below⟩ := List.mem_map.mp known
  exact ((exhausted_exact exhausted).1 _ (by decide +kernel)).mp
    ⟨element, member, (Prod.mk.inj below).1⟩

/-- In the minor order, whatever lies above the antichain of an exhausted search is coverable. Conversely,
all that is coverable lies above the antichain if no rule can make use of contractions elsewhere. -/
theorem exhausted_minor (exhausted : analysis.Exhausted .minor outcome) :
    (∀ graph : Hypergraph, graph.WellFormed →
      (∃ element ∈ outcome.antichain.elements, Order.minor.le element.graph graph = true) →
      Coverable .minor analysis.system.rules.values analysis.errorGraphs graph) ∧
    ((∀ rule ∈ analysis.system.rules.values, rule.Narrow) → ∀ graph,
      Coverable .minor analysis.system.rules.values analysis.errorGraphs graph →
        ∃ element ∈ outcome.antichain.elements, Order.minor.le element.graph graph = true) := by
  have order : analysis.order = .minor := exhausted.order
  have basis := exhausted.basis
  rw [← order]
  refine ⟨fun graph formed above => ?_, fun narrow graph coverable => ?_⟩
  · obtain ⟨element, member, below⟩ := above
    exact .above (basis.coverable element member) formed below
  · exact basis.complete (fun rule available _ => narrow rule available) coverable

/-- A graph without the right label does not come to have a mark, even if edges are contracted. -/
theorem markedSearch_misses :
    ¬Coverable .minor [marking] [.ofEdges 1 [("P", [0])]] (.ofEdges 2 [("B", [0, 1])]) := by
  obtain ⟨outcome, exhausted, compared⟩ := markedSearch_exhausted .minor
  have narrow : ∀ rule ∈ (markedSearch .minor).system.rules.values, rule.Narrow := by
    intro rule available
    obtain rfl : rule = marking := List.mem_singleton.mp available
    exact .inr (by decide)
  intro coverable
  obtain ⟨element, member, below⟩ := (exhausted_minor exhausted).2 narrow _ coverable
  have known : (Order.minor.le element.graph (.ofEdges 2 [("B", [0, 1]), ("A", [1])]),
      Order.minor.le element.graph (.ofEdges 2 [("B", [0, 1])])) ∈
      [(false, false), (true, false)] := compared ▸ List.mem_map_of_mem member
  rw [below] at known
  simp at known

/-- A rule that marks a vertex beside another one. -/
def sideMarking : Rule where
  id := "mark"
  name := ""
  left := .ofEdges 2 [("Q", [1])]
  right := .ofEdges 2 [("Q", [1]), ("P", [0])]
  vertexMap := .ofList [(⟨0⟩, ⟨0⟩), (⟨1⟩, ⟨1⟩)]
  edgeMap := .ofList [(⟨2⟩, ⟨2⟩)]

/-- A search for the graphs in which both marks can come together. -/
def sideSearch : Analysis Unit where
  system := { rules := Table.insert ∅ "mark" sideMarking }
  errorGraphs := [.ofEdges 1 [("P", [0]), ("Q", [0])]]
  order := .minor
  preparer := .validating 0
  source := .ofMatches (.forOrder .minor)
  sink := .null
  sinkState := ()
  config := {}

/-- After the step an edge that the rule does not know can be contracted to bring the marks
together. The graph before the step is coverable, but the search converges without it. -/
theorem sideSearch_misses : ∃ outcome, sideSearch.Exhausted .minor outcome ∧
    Coverable .minor [sideMarking] [.ofEdges 1 [("P", [0]), ("Q", [0])]]
      (.ofEdges 2 [("Q", [1]), ("F", [0, 1])]) ∧
    ∀ element ∈ outcome.antichain.elements,
      Order.minor.le element.graph (.ofEdges 2 [("Q", [1]), ("F", [0, 1])]) = false := by
  have sides : ∀ rule ∈ [sideMarking], rule.left.WellFormed ∧ rule.right.WellFormed ∧
    rule.Ended := by decide +kernel
  have errors : ∀ error ∈ [Hypergraph.ofEdges 1 [("P", [0]), ("Q", [0])]], error.WellFormed ∧
    error.Numbered := by decide +kernel
  have lasts : sideSearch.Lasts (fun _ => 0) 4 := by
    rw [Lasts]
    decide +kernel
  have suited : sideSearch.Suited .minor :=
    ⟨rfl, ⟨0, rfl⟩, ⟨.forOrder .minor, rfl, rfl⟩, rfl, sides, errors⟩
  obtain ⟨outcome, exhausted, missed⟩ : ∃ outcome, sideSearch.Exhausted .minor outcome ∧
      (outcome.antichain.elements.all fun element =>
      !Order.minor.le element.graph (.ofEdges 2 [("Q", [1]), ("F", [0, 1])])) = true := by
    apply exhausted_of_returns (List.all · _) suited lasts
    decide +kernel
  refine ⟨outcome, exhausted, ?_, fun element member => ?_⟩
  · -- The graph after the step is asked about; one of the answers lies below the graph before it.
    let matching : Matching :=
      ⟨sideMarking, Hypergraph.ofEdges 2 [("Q", [1]), ("F", [0, 1]), ("P", [0])], true⟩
    have formed : matching.graph.WellFormed := by decide +kernel
    have sane : matching.rule.Sane := by
      obtain ⟨left, right, _⟩ := sides sideMarking List.mem_cons_self
      exact ⟨Rule.valid_of_validate (by decide +kernel), left, right⟩
    have answered :
        (matching.all.any fun found =>
          ((complement matching.rule matching.graph found).toOption.any fun before =>
        Order.minor.le before (.ofEdges 2 [("Q", [1]), ("F", [0, 1])]))) = true := by decide +kernel
    obtain ⟨found, member, answered⟩ := List.any_eq_true.mp answered
    obtain ⟨before, yielded, complemented, _, occurrence, below⟩ :=
      Matching.sound_of_mem_all sane formed (by decide +kernel)
        (by decide +kernel) member
    rw [yielded] at answered
    have above : Coverable .minor [sideMarking] [.ofEdges 1 [("P", [0]), ("Q", [0])]]
        matching.graph :=
      .above (.error List.mem_cons_self) formed (by decide +kernel)
    have coverable :=
      Coverable.of_match Order.minor_decides sane List.mem_cons_self complemented formed
        occurrence below above
    exact .above coverable (by decide +kernel) answered
  · have apart := List.all_eq_true.mp missed element member
    exact Bool.eq_false_of_not_eq_true (by simpa using apart)

end Analysis

end Coverability
