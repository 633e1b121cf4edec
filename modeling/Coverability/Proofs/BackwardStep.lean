import Coverability.Predecessor.Source
import Coverability.Proofs.Predecessors

/-! The answers of a source of matches, one after the other. Each of them is a graph that the rule
turns into one above the graph that was asked about: above in the subgraph order, or in the minor
order if the source contracts edges. -/

namespace Coverability

namespace MatchSource

/-- The order that a source of matches works for. -/
def order (source : MatchSource) : Order := if source.contract then .minor else .subgraph

/-- The graphs that a source yields when it is asked again and again. -/
inductive Gives : MatchSource → Hypergraph → Prop where
  | next {source : MatchSource} {graph : Hypergraph} (answer : source.next.2.1 = some graph) :
    Gives source graph
  | later {source : MatchSource} {graph : Hypergraph} (given : Gives source.next.2.2 graph) :
    Gives source graph

variable {source : MatchSource} {rule : Rule} {graph before : Hypergraph}

theorem order_decides (source : MatchSource) : source.order.Decides := by
  rw [order]
  split
  · exact Order.minor_decides
  · exact Order.subgraph_decides

theorem order_contracts (source : MatchSource) : source.order.contracts = source.contract := by
  rw [order]
  cases source.contract <;> rfl

private theorem nextAmong_subset (loaded : LoadedMatches) (pending : List PartialMatch) :
    (nextAmong loaded pending).2.2 ⊆ pending := by
  induction pending with
  | nil => exact List.Subset.refl _
  | cons found later ih =>
    rw [nextAmong]
    split
    · exact List.subset_cons_self _ _
    · exact List.subset_cons_of_subset _ ih

private theorem yield_graph {loaded : LoadedMatches} {found : PartialMatch}
    (yielded : loaded.yield found = .graph graph) :
    complement loaded.rule loaded.graph found = .ok graph := by
  rw [LoadedMatches.yield] at yielded
  split at yielded
  next complemented =>
    cases yielded
    exact complemented
  · cases yielded

private theorem nextAmong_some {loaded : LoadedMatches} {pending : List PartialMatch}
    (answer : (nextAmong loaded pending).2.1 = some graph) :
    ∃ found ∈ pending, complement loaded.rule loaded.graph found = .ok graph := by
  induction pending with
  | nil => cases answer
  | cons found later ih =>
    rw [nextAmong] at answer
    split at answer
    next yielded =>
      cases answer
      exact ⟨found, List.mem_cons_self, yield_graph yielded⟩
    · obtain ⟨other, member, complemented⟩ := ih answer
      exact ⟨other, List.mem_cons_of_mem _ member, complemented⟩

/-- What a source gives is the complement of a match that was still pending. -/
theorem Gives.complement_ok {loaded : LoadedMatches} (gives : source.Gives graph)
    (ready : source.loaded = some loaded) :
    ∃ found ∈ source.pending, complement loaded.rule loaded.graph found = .ok graph := by
  induction gives with
  | @next source graph answer =>
    rw [MatchSource.next, ready] at answer
    exact nextAmong_some answer
  | @later source graph _ ih =>
    rw [MatchSource.next, ready] at ih
    obtain ⟨found, member, complemented⟩ := ih rfl
    exact ⟨found, nextAmong_subset loaded source.pending member, complemented⟩

/-- A match that has a complement is answered with it. -/
theorem next_complement {loaded : LoadedMatches} {found : PartialMatch} {rest : List PartialMatch}
    (ready : source.loaded = some loaded) (ahead : source.pending = found :: rest)
    (made : complement loaded.rule loaded.graph found = .ok before) :
    source.next = ([], some before, { source with pending := rest }) := by
  have yielded : loaded.yield found = .graph before := by rw [LoadedMatches.yield, made]
  rw [next, ready, ahead]
  simp only [nextAmong, yielded]

/-- The complement of a match that is pending is given sooner or later. By induction on the matches:
the first one is answered, or it is skipped and the answer is the one that the others have. -/
theorem Gives.of_pending {loaded : LoadedMatches} {pending : List PartialMatch}
    {found : PartialMatch} (ready : source.loaded = some loaded) (ahead : source.pending = pending)
    (made : complement loaded.rule loaded.graph found = .ok graph) (member : found ∈ pending) :
    source.Gives graph := by
  induction pending generalizing source with
  | nil => cases member
  | cons first later ih =>
    have rest : ({ source with pending := later } : MatchSource).loaded = some loaded := ready
    have yielded : found = first → loaded.yield first = .graph graph := by
      rintro rfl
      rw [LoadedMatches.yield, made]
    cases answer : loaded.yield first with
    | graph given =>
      have next := next_complement ready ahead (yield_graph answer)
      rcases List.mem_cons.mp member with same | inside
      · rw [yielded same, Yield.graph.injEq] at answer
        exact .next (by rw [next, answer])
      · refine .later ?_
        rw [next]
        exact ih rest rfl inside
    | skipped line =>
      have skips : source.next.2 = ({ source with pending := later } : MatchSource).next.2 := by
        rw [MatchSource.next, MatchSource.next, ready, ahead]
        simp only [nextAmong, answer]
      have inside : found ∈ later := by
        refine (List.mem_cons.mp member).resolve_left fun same => ?_
        rw [yielded same] at answer
        cases answer
      cases ih rest rfl inside with
      | next answered => exact .next (by rw [skips, answered])
      | later given =>
        refine .later ?_
        rw [skips]
        exact given

theorem reset_ok (loads : (source.reset rule graph).2.1 = .ok ()) : rule.validate = .ok () ∧
    (source.reset rule graph).2.2.loaded =
      some ⟨rule, graph, Matching.all ⟨rule, graph, source.contract⟩⟩ ∧
      (source.reset rule graph).2.2.pending = Matching.all ⟨rule, graph, source.contract⟩ := by
  cases accepted : rule.validate with
  | error fault =>
    rw [reset, accepted] at loads
    cases loads
  | ok =>
    rw [reset, accepted]
    exact ⟨rfl, rfl, rfl⟩

/-- A graph that a source gives after it has been asked about a rule and a graph: the rule turns it
into one above the graph. -/
theorem rewrites_of_gives (left : rule.left.WellFormed) (right : rule.right.WellFormed)
    (formed : graph.WellFormed) (numbered : graph.Numbered) (room : graph.HasRoomFor rule)
    (loads : (source.reset rule graph).2.1 = .ok ())
    (gives : (source.reset rule graph).2.2.Gives before) :
    ∃ after : Hypergraph, after.WellFormed ∧ rule.Rewrites before after ∧
      source.order.le graph after = true := by
  obtain ⟨accepted, ready, pending⟩ := reset_ok loads
  obtain ⟨found, member, complemented⟩ := gives.complement_ok ready
  rw [pending] at member
  have sane : rule.Sane := ⟨Rule.valid_of_validate accepted, left, right⟩
  obtain ⟨result, yielded, formedResult, _, occurrence, below⟩ :=
    Matching.sound_of_mem_all sane formed numbered room member
  rw [complemented, Except.ok.injEq] at yielded
  subst yielded
  obtain ⟨after, formedAfter, iso⟩ := occurrence.exists_next sane formedResult
  obtain ⟨toAfter⟩ := id iso
  have belowAfter := below.trans (toAfter.below (occurrence.result_closed sane formedResult) _)
  refine ⟨after, formedAfter, ⟨occurrence, iso⟩, (source.order_decides formed formedAfter).mpr ?_⟩
  rw [source.order_contracts]
  exact belowAfter

/-- A rule that adds an edge along another one. -/
def connecting : Rule where
  id := "connect"
  name := ""
  left := .ofEdges 2 [("E", [0, 1])]
  right := .ofEdges 2 [("E", [0, 1]), ("C", [0, 1])]
  vertexMap := .ofList [(⟨0⟩, ⟨0⟩), (⟨1⟩, ⟨1⟩)]
  edgeMap := .ofList [(⟨2⟩, ⟨2⟩)]

/-- A loop is split where the new edge can be contracted: the fifth answer is the left side of the
rule. -/
theorem connecting_gives_left :
    ∃ before after : Hypergraph, before.vertexCount = 2 ∧ before.edgeCount = 1 ∧
    connecting.Rewrites before after ∧ Order.minor.le (.ofEdges 1 [("E", [0, 0])]) after = true := by
  have loads : ((forOrder .minor).reset connecting (.ofEdges 1 [("E", [0, 0])])).2.1 =
    .ok () := by decide +kernel
  have answered :
      (((forOrder .minor).reset connecting
        (.ofEdges 1 [("E", [0, 0])])).2.2.next.2.2.next.2.2.next.2.2.next.2.2.next.2.1.map
      fun before => (before.vertexCount, before.edgeCount)) = some (2, 1) := by decide +kernel
  obtain ⟨before, answer, counts⟩ := Option.map_eq_some_iff.mp answered
  have gives : ((forOrder .minor).reset connecting (.ofEdges 1 [("E", [0, 0])])).2.2.Gives before :=
    .later (.later (.later (.later (.next answer))))
  obtain ⟨after, _, rewrites, below⟩ :=
    rewrites_of_gives (by decide +kernel) (by decide +kernel) (by decide +kernel) (by decide +kernel)
      (by decide +kernel) loads gives
  rw [Prod.mk.injEq] at counts
  exact ⟨before, after, counts.1, counts.2, rewrites, below⟩

end MatchSource

end Coverability
