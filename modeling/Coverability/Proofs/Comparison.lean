import Coverability.Proofs.Antichain
import Coverability.Proofs.Embedding
import Coverability.Proofs.Reduction

/-! Orders that decide whether one graph lies below another. On graphs whose tables agree, such an
order is reflexive and transitive, and two graphs below each other are isomorphic: a model takes up at
least as many vertices and edges as it shows, so two models facing each other leave nothing over. -/

namespace Coverability

open Skeleton

/-- An order that decides on well-formed graphs whether one lies below another. -/
def Order.Decides (order : Order) : Prop :=
  ∀ {smaller bigger : Hypergraph}, smaller.WellFormed → bigger.WellFormed →
    (order.le smaller bigger = true ↔ Below order.contracts smaller.skeleton bigger.skeleton)

theorem Skeleton.below_contracting {α β γ δ : Type} {smaller : Skeleton α β} {bigger : Skeleton γ δ} :
    Below true smaller bigger ↔ Nonempty (Model smaller bigger) := by
  constructor
  · intro below
    obtain ⟨model, _⟩ := below
    exact ⟨model⟩
  · intro minor
    obtain ⟨model⟩ := minor
    exact ⟨model, nofun⟩

theorem Order.subgraph_decides : Order.subgraph.Decides := Embedding.subgraph_iff

theorem Order.minor_decides : Order.minor.Decides := by
  intro smaller bigger formedSmaller formed
  exact (Minor.isMinor_iff formedSmaller formed).trans Skeleton.below_contracting.symm

section Antisymmetry

variable {smaller bigger : Hypergraph}

/-- As many edges leave none of them free. -/
theorem tight_of_count (model : Model smaller.skeleton bigger.skeleton)
    (count : bigger.edgeCount ≤ smaller.edgeCount) :
    ∀ edge, bigger.skeleton.HasEdge edge → ¬model.Free edge := by
  intro edge present free
  have injective : ∀ one ∈ smaller.edgeIds,
      ∀ other ∈ smaller.edgeIds, model.image one = model.image other → one = other :=
    fun one first other second =>
      model.image_injective (Hypergraph.mem_edgeIds_iff.mp first)
        (Hypergraph.mem_edgeIds_iff.mp second)
  have inside : ∀ one ∈ smaller.edgeIds, model.image one ∈ bigger.edgeIds := fun one known =>
    Hypergraph.mem_edgeIds_iff.mpr (model.hasEdge (Hypergraph.mem_edgeIds_iff.mp known))
  rw [← Hypergraph.length_edgeIds, ← Hypergraph.length_edgeIds] at count
  obtain ⟨source, known, same⟩ :=
    Listing.exists_of_length_le model.image Hypergraph.nodup_edgeIds injective inside count
      (Hypergraph.mem_edgeIds_iff.mpr present)
  exact free source (Hypergraph.mem_edgeIds_iff.mp known) same

/-- As many vertices put each of them into a branch. -/
theorem full_of_count (model : Model smaller.skeleton bigger.skeleton)
    (count : bigger.vertexCount ≤ smaller.vertexCount) :
    ∀ member, bigger.skeleton.vertex member → ∃ vertex, model.branch vertex member := by
  intro member present
  obtain ⟨hub, atHub, injective⟩ := model.exists_hub
  have apart : ∀ one ∈ smaller.vertexIds,
      ∀ other ∈ smaller.vertexIds, hub one = hub other → one = other :=
    fun one first other second =>
      injective (Hypergraph.mem_vertexIds.mp first) (Hypergraph.mem_vertexIds.mp second)
  have inside : ∀ one ∈ smaller.vertexIds, hub one ∈ bigger.vertexIds := fun one known =>
    Hypergraph.mem_vertexIds.mpr (model.branch_inside (atHub (Hypergraph.mem_vertexIds.mp known))).2
  rw [← Hypergraph.length_vertexIds, ← Hypergraph.length_vertexIds] at count
  obtain ⟨vertex, known, rfl⟩ :=
    Listing.exists_of_length_le hub Hypergraph.nodup_vertexIds apart inside count
      (Hypergraph.mem_vertexIds.mpr present)
  exact ⟨vertex, atHub (Hypergraph.mem_vertexIds.mp known)⟩

/-- Two graphs below each other have as many vertices and edges, so nothing is left to contract
or to delete. -/
theorem isomorphic_of_models (formedSmaller : smaller.WellFormed) (formed : bigger.WellFormed)
    (model : Model smaller.skeleton bigger.skeleton)
    (back : Model bigger.skeleton smaller.skeleton) :
    Isomorphic smaller.skeleton bigger.skeleton := by
  have fits := Minor.mayFit_of_model formed formedSmaller back
  rw [mayFit, Bool.and_eq_true, Bool.and_eq_true, decide_eq_true_iff, decide_eq_true_iff] at fits
  exact model.isomorphic_of_tight (tight_of_count model fits.1.2) (full_of_count model fits.1.1)

/-- An isomorphism is a model, whether or not edges may be contracted. -/
theorem below_of_isomorphic (formed : smaller.WellFormed) (contract : Bool)
    (same : Isomorphic smaller.skeleton bigger.skeleton) :
    Below contract smaller.skeleton bigger.skeleton := by
  obtain ⟨iso⟩ := same
  exact iso.below formed.closed contract

theorem Hypergraph.isomorphic_symm (formed : smaller.WellFormed)
    (same : Isomorphic smaller.skeleton bigger.skeleton) :
    Isomorphic bigger.skeleton smaller.skeleton := by
  obtain ⟨iso⟩ := same
  exact ⟨iso.symm formed.closed⟩

end Antisymmetry

/-- The name of a graph says nothing about its tables. -/
theorem Hypergraph.WellFormed.named {graph : Hypergraph} (formed : graph.WellFormed)
    (name : String) : WellFormed { graph with name } :=
  ⟨formed.vertex_keyed, formed.edge_keyed, formed.attached, formed.indexed, formed.listed⟩

namespace Order.Decides

variable {order : Order} {smaller bigger : Hypergraph}

theorem lawful (decides : order.Decides) : order.LawfulOn Hypergraph.WellFormed where
  refl formed := (decides formed formed).mpr (Below.refl formed.closed)
  trans formedFirst formedSecond formedThird first second :=
    (decides formedFirst formedThird).mpr
      (((decides formedFirst formedSecond).mp first).trans
        ((decides formedSecond formedThird).mp second))

/-- Nothing but the vertices and edges of graphs counts. -/
theorem le_congr (decides : order.Decides) {other larger : Hypergraph}
    (formedSmaller : smaller.WellFormed) (formed : bigger.WellFormed)
    (formedOther : other.WellFormed) (formedLarger : larger.WellFormed)
    (same : smaller.skeleton = other.skeleton) (same' : bigger.skeleton = larger.skeleton) :
    order.le smaller bigger = order.le other larger := by
  rw [Bool.eq_iff_iff, decides formedSmaller formed, decides formedOther formedLarger, same, same']

/-- Graphs lie below each other just if they are isomorphic. -/
theorem antisymmetric (decides : order.Decides) (formedSmaller : smaller.WellFormed)
    (formed : bigger.WellFormed) :
    order.le smaller bigger = true ∧ order.le bigger smaller = true ↔
    Isomorphic smaller.skeleton bigger.skeleton := by
  rw [decides formedSmaller formed, decides formed formedSmaller]
  constructor
  · intro both
    obtain ⟨⟨model, _⟩, ⟨back, _⟩⟩ := both
    exact isomorphic_of_models formedSmaller formed model back
  · intro same
    exact ⟨below_of_isomorphic formedSmaller _ same,
      below_of_isomorphic formed _ (Hypergraph.isomorphic_symm formedSmaller same)⟩

end Order.Decides

end Coverability
