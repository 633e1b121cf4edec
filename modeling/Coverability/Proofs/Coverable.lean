import Coverability.Proofs.Comparison
import Coverability.Proofs.Realisation
import Coverability.Proofs.Rewriting

/-! Coverable graphs: those from which rewriting, with drops to smaller graphs in between, leads to an
error graph. -/

namespace Coverability

namespace Rule

variable {rule : Rule} {graph : Hypergraph}

/-- A step from one graph to another, whatever names the new graph uses. -/
def Rewrites (rule : Rule) (graph next : Hypergraph) : Prop :=
  ∃ found : rule.Match graph, Skeleton.Isomorphic found.result next.skeleton

/-- Rules whose sides are graphs and whose maps fit the sides. -/
structure Sane (rule : Rule) : Prop where
  valid : rule.Valid
  left : rule.left.WellFormed
  right : rule.right.WellFormed

/-- No edge of the right side is without vertices. -/
def Ended (rule : Rule) : Prop :=
  ∀ {edge label ends}, rule.right.skeleton.edge? edge = some (label, ends) → ends ≠ []

instance (rule : Rule) : Decidable rule.Ended :=
  decidable_of_iff (∀ edge ∈ rule.right.edgeList, edge.vertices ≠ [])
    ⟨fun ended {id label ends} stored => by
    obtain ⟨edge, found, rfl, rfl⟩ := Hypergraph.skeleton_edge_iff.mp stored
    exact ended edge (Table.mem_values_iff.mpr ⟨id, found⟩), fun ended edge member => by
    obtain ⟨id, found⟩ := Table.mem_values_iff.mp member
    exact ended (Hypergraph.skeleton_edge found)⟩

/-- Whether there is anything on the right side that does not come from the left. -/
def Creates (rule : Rule) : Prop := rule.createdVertices ≠ [] ∨ rule.createdEdges ≠ []

namespace Match

theorem result_closed (found : rule.Match graph) (sane : rule.Sane) (formed : graph.WellFormed) :
    found.result.Closed :=
  ((found.context_fits formed sane.valid).resultIso sane.valid).closed
    (Context.after_closed sane.valid sane.right)

private theorem result_listed (found : rule.Match graph) :
    found.result.Listed (graph.vertexIds.map .inl ++ rule.createdVertices.map .inr)
      (graph.edgeIds.map .inl ++ rule.createdEdges.map .inr) where
  vertex {one} inside := by
    cases one with
    | inl kept =>
      exact List.mem_append_left _ (List.mem_map_of_mem (Hypergraph.mem_vertexIds.mpr inside.1))
    | inr created => exact List.mem_append_right _ (List.mem_map_of_mem inside)
  edge {one} present := by
    obtain ⟨label, ends, stored⟩ := present
    cases one with
    | inl kept =>
      simp only [result] at stored
      split at stored
      · cases stored
      · obtain ⟨⟨_, vertices⟩, known, _⟩ := Option.map_eq_some_iff.mp stored
        obtain ⟨edge, there, _⟩ := Hypergraph.skeleton_edge_iff.mp known
        exact List.mem_append_left _ (List.mem_map_of_mem (Hypergraph.mem_edgeIds.mpr ⟨edge, there⟩))
    | inr created =>
      simp only [result] at stored
      split at stored
      next new => exact List.mem_append_right _ (List.mem_map_of_mem new)
      · cases stored

/-- Every match leads to a well-formed graph. -/
theorem exists_next (found : rule.Match graph) (sane : rule.Sane) (formed : graph.WellFormed) :
    ∃ next : Hypergraph, next.WellFormed ∧ Skeleton.Isomorphic found.result next.skeleton :=
  Skeleton.exists_graph (found.result_closed sane formed) found.result_listed

end Match

end Rule

/-- The least set of graphs that contains the error graphs, with each of its graphs all well-formed
ones above it, and with each also those that a rule turns into it. -/
inductive Coverable (order : Order) (rules : List Rule) (errors : List Hypergraph) :
    Hypergraph → Prop where
  | error {graph : Hypergraph} (listed : graph ∈ errors) : Coverable order rules errors graph
  | above {smaller bigger : Hypergraph} (coverable : Coverable order rules errors smaller)
      (formed : bigger.WellFormed)
      (below : order.le smaller bigger = true) : Coverable order rules errors bigger
  | step {rule : Rule} {graph next : Hypergraph} (available : rule ∈ rules)
      (formed : graph.WellFormed) (formedNext : next.WellFormed)
      (rewrites : rule.Rewrites graph next) (coverable : Coverable order rules errors next) :
        Coverable order rules errors graph

namespace Coverable

variable {order : Order} {rules : List Rule} {errors : List Hypergraph} {graph : Hypergraph}

theorem formed (formedErrors : ∀ error ∈ errors, error.WellFormed)
    (coverable : Coverable order rules errors graph) : graph.WellFormed := by
  cases coverable with
  | error listed => exact formedErrors _ listed
  | above _ formed _ => exact formed
  | step _ formed _ _ _ => exact formed

/-- A match is enough for a step if a coverable graph lies below what the match leads to. -/
theorem of_match (decides : order.Decides) {rule : Rule} (sane : rule.Sane)
    (available : rule ∈ rules) (formed : graph.WellFormed) {smaller : Hypergraph}
    (formedSmaller : smaller.WellFormed) (found : rule.Match graph)
    (below : Skeleton.Below order.contracts smaller.skeleton found.result)
    (coverable : Coverable order rules errors smaller) :
    Coverable order rules errors graph := by
  obtain ⟨next, formedNext, iso⟩ := found.exists_next sane formed
  obtain ⟨toNext⟩ := id iso
  have belowNext := below.trans (toNext.below (found.result_closed sane formed) _)
  exact .step available formed formedNext ⟨found, iso⟩
    (.above coverable formedNext ((decides formedSmaller formedNext).mpr belowNext))

end Coverable

end Coverability
