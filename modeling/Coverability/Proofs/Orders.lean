import Coverability.Proofs.Isomorphism
import Coverability.Proofs.PathSearch

/-! The orders that a configuration can name. Each of them decides whether there is a model, of
single vertices for the subgraph order, so each is a partial order up to isomorphism, and a graph
that grows stays above what it was above. -/

namespace Coverability

open Skeleton

theorem OrderKind.order_decides (kind : OrderKind) : kind.order.Decides := by
  cases kind with
  | subgraph => exact Order.subgraph_decides
  | minor => exact Order.minor_decides
  | pathMinor => exact Order.pathMinor_decides

/-- A graph lies below every skeleton that has all its vertices and edges. -/
theorem Skeleton.below_of_kept {α β : Type} {graph larger : Skeleton α β} (closed : graph.Closed)
    (vertices : ∀ vertex, graph.vertex vertex → larger.vertex vertex)
    (edges : ∀ edge label ends, graph.edge? edge = some (label, ends) →
      larger.edge? edge = some (label, ends)) (contract : Bool) :
    Below contract graph larger := by
  let inclusion : Inclusion graph larger :=
    { vertex := id
      edge := id
      vertex_inside := fun {vertex} inside => vertices vertex inside
      vertex_injective := fun _ _ same => same
      edge_kept :=
        fun {edge label ends} stored => by rw [List.map_id]; exact edges edge label ends stored
      edge_injective := fun _ _ same => same }
  exact inclusion.below closed contract

namespace Hypergraph

variable {graph larger : Hypergraph}

/-- What a graph can become when vertices and edges are added, as long as identifiers last. -/
inductive Grows (graph : Hypergraph) : Hypergraph → Prop where
  | refl : Grows graph graph
  | addVertex {larger : Hypergraph} (grown : Grows graph larger) (room : larger.HasRoom) :
    Grows graph larger.addVertex.2
  | addEdge {larger result : Hypergraph} {label : String} {ends : List VertexId} {fresh : EdgeId}
      (grown : Grows graph larger)
      (room : larger.HasRoom) (added : larger.addEdge label ends = .ok (fresh, result)) :
        Grows graph result

theorem Grows.formed (grown : graph.Grows larger) (formed : graph.WellFormed)
    (numbered : graph.Numbered) :
    larger.WellFormed ∧ larger.Numbered := by
  induction grown with
  | refl => exact ⟨formed, numbered⟩
  | addVertex _ room ih => exact ⟨addVertex_wellFormed ih.1 ih.2, addVertex_numbered ih.2 room⟩
  | addEdge _ room added ih =>
    exact ⟨addEdge_wellFormed added ih.1 ih.2, addEdge_numbered added ih.2 room⟩

theorem Grows.kept (grown : graph.Grows larger) (formed : graph.WellFormed)
    (numbered : graph.Numbered) :
    (∀ vertex, graph.hasVertex vertex = true → larger.hasVertex vertex = true) ∧
      ∀ id edge, graph.edge? id = some edge → larger.edge? id = some edge := by
  induction grown with
  | refl => exact ⟨fun _ => id, fun _ _ => id⟩
  | addVertex _ _ ih =>
    refine ⟨fun vertex present => ?_, ih.2⟩
    rw [hasVertex_addVertex, ih.1 vertex present, Bool.or_true]
  | addEdge grown _ added ih =>
    refine ⟨fun vertex present => ?_, fun id edge stored => ?_⟩
    · rw [hasVertex_addEdge added, ih.1 vertex present]
    · have fresh := (grown.formed formed numbered).2.fresh_edge
      rw [edge?_addEdge added, if_neg, ih.2 id edge stored]
      intro same
      rw [← same, ih.2 id edge stored] at fresh
      cases fresh

theorem Grows.stays_below (grown : graph.Grows larger) (formed : graph.WellFormed)
    (numbered : graph.Numbered) (contract : Bool) :
    Below contract graph.skeleton larger.skeleton := by
  obtain ⟨vertices, edges⟩ := grown.kept formed numbered
  have present : ∀ vertex, graph.skeleton.vertex vertex → larger.skeleton.vertex vertex := vertices
  refine Skeleton.below_of_kept formed.closed present (fun id label ends stored => ?_) contract
  obtain ⟨edge, found, rfl, rfl⟩ := skeleton_edge_iff.mp stored
  exact skeleton_edge (edges id edge found)

end Hypergraph

variable {first second third larger smaller bigger : Hypergraph}

/-- The subgraph order is the strictest. -/
theorem OrderKind.le_of_subgraph (kind : OrderKind) (formedFirst : first.WellFormed)
    (formedSecond : second.WellFormed) (embeds : Order.subgraph.le first second = true) :
    kind.order.le first second = true := by
  apply (kind.order_decides formedFirst formedSecond).mpr
  obtain ⟨model, single⟩ := (Order.subgraph_decides formedFirst formedSecond).mp embeds
  exact ⟨model, fun _ => single rfl⟩

/-- The search over paths by itself, whatever arity the edges have. -/
def PathMinor.finds (smaller bigger : Hypergraph) : Bool :=
  mayFit smaller bigger &&
    assign smaller bigger
      (smaller.edgeList.map fun edge => (edge.id, bigger.edgesOfShape edge.shape)) ∅ []

private theorem PathMinor.isPathMinor_small (few : smaller.maxArity ≤ 2)
    (fewBigger : bigger.maxArity ≤ 2) :
    isPathMinor smaller bigger = finds smaller bigger := by
  have small : (decide (2 < smaller.maxArity) || decide (2 < bigger.maxArity)) = false := by
    simp only [Bool.or_eq_false_iff, decide_eq_false_iff_not]
    omega
  simp only [isPathMinor, finds, small, Bool.false_eq_true, if_false]
  cases mayFit smaller bigger <;> rfl

/-- Both minor orders give the same answers. Where no edge has more than two vertices, the answer on
one side is that of the search over paths. -/
theorem Order.pathMinor_agrees (formedSmaller : smaller.WellFormed) (formed : bigger.WellFormed) :
    Order.pathMinor.le smaller bigger = Order.minor.le smaller bigger ∧
      (smaller.maxArity ≤ 2 → bigger.maxArity ≤ 2 →
        PathMinor.finds smaller bigger = Order.minor.le smaller bigger) := by
  have agree : Order.pathMinor.le smaller bigger = Order.minor.le smaller bigger := by
    apply Bool.eq_iff_iff.mpr
    have paths := Order.pathMinor_decides formedSmaller formed
    have partitions := Order.minor_decides formedSmaller formed
    exact paths.trans partitions.symm
  refine ⟨agree, ?_⟩
  intro few fewBigger
  rw [← agree]
  exact (PathMinor.isPathMinor_small few fewBigger).symm

/-- A loop at one vertex lies below a triangle, whose other two edges are contracted, and both
searches find it. -/
theorem PathMinor.triangle_agrees :
    PathMinor.finds (.ofEdges 1 [("E", [0, 0])])
      (.ofEdges 3 [("E", [0, 1]), ("E", [1, 2]), ("E", [2, 0])]) = true ∧
      PathMinor.finds (.ofEdges 1 [("E", [0, 0])])
        (.ofEdges 3 [("E", [0, 1]), ("E", [1, 2]), ("E", [2, 0])]) =
        Order.minor.le (.ofEdges 1 [("E", [0, 0])])
          (.ofEdges 3 [("E", [0, 1]), ("E", [1, 2]), ("E", [2, 0])]) := by
  have loop : Hypergraph.WellFormed (.ofEdges 1 [("E", [0, 0])]) := by decide +kernel
  have triangle :
      Hypergraph.WellFormed (.ofEdges 3 [("E", [0, 1]), ("E", [1, 2]), ("E", [2, 0])]) := by
    decide +kernel
  have agree := Order.pathMinor_agrees loop triangle
  exact ⟨by decide +kernel, agree.2 (by decide +kernel) (by decide +kernel)⟩

/-- Each order is reflexive and transitive, and graphs below each other are those that the search
for an isomorphism accepts. Whatever lies below a graph lies below everything the graph embeds
into or grows to. -/
theorem OrderKind.partial_order (kind : OrderKind) (formedFirst : first.WellFormed)
    (formedSecond : second.WellFormed) (formedThird : third.WellFormed) :
    kind.order.le first first = true ∧
      (kind.order.le first second = true → kind.order.le second third = true →
        kind.order.le first third = true) ∧
      (kind.order.le first second = true ∧ kind.order.le second first = true ↔
        areIsomorphic first second = true) ∧
      (Order.subgraph.le first second = true → Order.minor.le first second = true) ∧
      (kind.order.le first second = true → Order.subgraph.le second third = true →
        kind.order.le first third = true) ∧
      ∀ larger, second.Numbered → second.Grows larger → kind.order.le first second = true →
        kind.order.le first larger = true := by
  have lawful := Order.Decides.lawful kind.order_decides
  refine ⟨lawful.refl formedFirst, lawful.trans formedFirst formedSecond formedThird, ?_,
    OrderKind.minor.le_of_subgraph formedFirst formedSecond,
    fun below embeds => ?_, fun larger numbered grown below => ?_⟩
  · rw [areIsomorphic_iff formedFirst formedSecond]
    exact Order.Decides.antisymmetric kind.order_decides formedFirst formedSecond
  · exact lawful.trans formedFirst formedSecond formedThird below
      (kind.le_of_subgraph formedSecond formedThird embeds)
  · have formed := (grown.formed formedSecond numbered).1
    apply lawful.trans formedFirst formedSecond formed below
    exact (kind.order_decides formedSecond formed).mpr (grown.stays_below formedSecond numbered _)

/-- Two marks that a path can bring together stay so when another vertex is added. -/
theorem OrderKind.pathMinor_grown : OrderKind.pathMinor.order.le (.ofEdges 1 [("P", [0]), ("Q", [0])])
    (Hypergraph.ofEdges 3 [("P", [0]), ("F", [0, 1]), ("F", [1, 2]), ("Q", [2])]).addVertex.2 =
      true := by
  have joined : Hypergraph.WellFormed (.ofEdges 1 [("P", [0]), ("Q", [0])]) := by decide +kernel
  have apart :
      Hypergraph.WellFormed
        (.ofEdges 3 [("P", [0]), ("F", [0, 1]), ("F", [1, 2]), ("Q", [2])]) := by
    decide +kernel
  have laws := OrderKind.pathMinor.partial_order joined apart apart
  exact laws.2.2.2.2.2 _ (by decide +kernel) (.addVertex .refl (by decide +kernel))
    (by decide +kernel)

end Coverability
