import Coverability.Proofs.BackwardStep
import Coverability.Proofs.Remnant

/-! All replies of a source of matches. A source that has been reset replies with one graph for each
match, the complement of the match, without a warning, and with nothing from then on. -/

namespace Coverability.MatchSource

variable {source : MatchSource} {rule : Rule} {graph : Hypergraph} {loaded : LoadedMatches}

/-- What a source replies when it is asked a number of times. -/
def replies (source : MatchSource) : Nat → List (List Line × Option Hypergraph)
  | 0 => []
  | count + 1 => (source.next.1, source.next.2.1) :: source.next.2.2.replies count

private theorem replies_exhausted (ready : source.loaded = some loaded)
    (done : source.pending = []) (count : Nat) :
    source.replies count = List.replicate count ([], none) := by
  have answer : source.next = ([], none, { source with pending := [] }) := by
    rw [next, ready, done]; rfl
  have same : { source with pending := [] } = source := by rw [← done]
  rw [same] at answer
  induction count with
  | zero => rfl
  | succ count ih => rw [replies, answer, ih, List.replicate_succ]

private theorem replies_pending {found : List PartialMatch} {graphs : List Hypergraph}
    (ready : source.loaded = some loaded) (ahead : source.pending = found)
    (made : List.Forall₂
      (fun found before => complement loaded.rule loaded.graph found = .ok before) found graphs)
    (extra : Nat) : source.replies (graphs.length + extra) =
      graphs.map (fun before => ([], some before)) ++ List.replicate extra ([], none) := by
  induction made generalizing source with
  | nil =>
    rw [List.length_nil, Nat.zero_add]
    exact replies_exhausted ready ahead extra
  | @cons first before rest graphs made _ ih =>
    have answer := next_complement ready ahead made
    rw [List.length_cons, Nat.add_right_comm, replies, answer]
    exact congrArg (([], some before) :: ·)
      (ih (show ({ source with pending := rest } : MatchSource).loaded = some loaded from ready) rfl)

/-- After a reset every match is answered with a graph that is made up of what the match leaves, and
then there is nothing more to answer. -/
theorem reset_replies (accepted : rule.validate = .ok ()) (left : rule.left.WellFormed)
    (right : rule.right.WellFormed) (formed : graph.WellFormed) (numbered : graph.Numbered)
    (room : graph.HasRoomFor rule) :
    ∃ graphs : List Hypergraph, (source.reset rule graph).2.1 = .ok () ∧
      (source.reset rule graph).2.2.matchCount = graphs.length ∧
      (∀ extra, (source.reset rule graph).2.2.replies (graphs.length + extra) =
        graphs.map (fun before => ([], some before)) ++ List.replicate extra ([], none)) ∧
      List.Forall₂
        (fun found before => ∃ place name,
          PartialMatch.Complements rule graph found before place name)
        (Matching.all ⟨rule, graph, source.contract⟩) graphs := by
  have loads : (source.reset rule graph).2.1 = .ok () := by rw [reset, accepted]
  obtain ⟨_, ready, pending⟩ := reset_ok loads
  have made : ∀ found ∈ Matching.all ⟨rule, graph, source.contract⟩,
      ∃ before, complement rule graph found = .ok before ∧
      ∃ place name, PartialMatch.Complements rule graph found before place name := by
    intro found member
    have overlap := Matching.overlap_of_mem_all formed right member
    obtain ⟨before, place, name, made, complements⟩ :=
      PartialMatch.exists_complements (Rule.valid_of_validate accepted) left overlap
        formed numbered room
    exact ⟨before, made, place, name, complements⟩
  obtain ⟨graphs, along⟩ := Listing.exists_along made
  refine ⟨graphs, loads, ?_, fun extra =>
    replies_pending ready pending (along.imp fun _ _ known => known.1) extra,
    along.imp fun _ _ known => known.2⟩
  rw [matchCount, ready]
  exact along.length_eq

/-- With contraction a loop has five matches in the right side of a rule that adds an edge along
another one; the last of them splits the vertex that the loop is at. -/
theorem connecting_replies : ∃ graphs : List Hypergraph,
    ((forOrder .minor).reset connecting (.ofEdges 1 [("E", [0, 0])])).2.1 = .ok () ∧
      ((forOrder .minor).reset connecting (.ofEdges 1 [("E", [0, 0])])).2.2.matchCount =
        graphs.length ∧
      (∀ extra, ((forOrder .minor).reset connecting (.ofEdges 1 [("E", [0, 0])])).2.2.replies
        (graphs.length + extra) =
        graphs.map (fun before => ([], some before)) ++ List.replicate extra ([], none)) ∧
      List.Forall₂
        (fun found before => ∃ place name,
          PartialMatch.Complements connecting (.ofEdges 1 [("E", [0, 0])]) found before place name)
        (Matching.all ⟨connecting, .ofEdges 1 [("E", [0, 0])], true⟩) graphs ∧ graphs.length = 5 := by
  obtain ⟨graphs, loads, count, asked, along⟩ :=
    @reset_replies (forOrder .minor) connecting (.ofEdges 1 [("E", [0, 0])]) (by decide +kernel)
      (by decide +kernel) (by decide +kernel) (by decide +kernel) (by decide +kernel)
        (by decide +kernel)
  refine ⟨graphs, loads, count, asked, along, count.symm.trans ?_⟩
  decide +kernel

end Coverability.MatchSource
