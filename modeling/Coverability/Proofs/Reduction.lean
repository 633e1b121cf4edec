import Coverability.Proofs.MinorSearch
import Coverability.Proofs.Operations

/-! Minors by operations. Deleting edges and isolated vertices and contracting edges leaves a minor,
and every model says how to get there: contract each free edge along the branches, then delete what
is in no branch. -/

namespace Coverability

namespace Skeleton

variable {α β γ δ : Type}

/-- A partition of the ends of an edge, given by a representative of every block. -/
structure Identifies (ends : List α) (block : α → α) : Prop where
  outside : ∀ vertex, vertex ∉ ends → block vertex = vertex
  inside : ∀ vertex ∈ ends, block vertex ∈ ends
  idempotent : ∀ vertex ∈ ends, block (block vertex) = block vertex

section Representatives

variable {graph : Skeleton α β} {smaller : Skeleton γ δ} (model : Model smaller graph)

open Classical in
/-- The first end of an edge in the same branch, and the vertex itself off the edge. Ends in no branch
count as one branch here. -/
private noncomputable def representative (ends : List α) (vertex : α) : α :=
  if vertex ∈ ends then
    (ends.find? fun other => (model.branch · vertex) = (model.branch · other)).getD vertex
  else vertex

private theorem representative_of_mem {ends : List α} {vertex : α} (member : vertex ∈ ends) :
    representative model ends vertex ∈ ends ∧
    (model.branch · vertex) = (model.branch · (representative model ends vertex)) := by
  classical
  rw [representative, if_pos member]
  cases found : ends.find? fun other => (model.branch · vertex) = (model.branch · other) with
  | none => exact absurd (List.find?_eq_none.mp found vertex member) (by simp)
  | some other => exact ⟨List.mem_of_find?_eq_some found, by simpa using List.find?_some found⟩

private theorem branch_representative (ends : List α) (vertex : α) :
    (model.branch · (representative model ends vertex)) = (model.branch · vertex) := by
  by_cases member : vertex ∈ ends
  · exact (representative_of_mem model member).2.symm
  · rw [representative, if_neg member]

private theorem representative_eq {ends : List α} {first second : α} (atFirst : first ∈ ends)
    (atSecond : second ∈ ends) (same : (model.branch · first) = (model.branch · second)) :
    representative model ends first = representative model ends second := by
  classical
  have found : ∃ other,
      (ends.find? fun other => (model.branch · second) = (model.branch · other)) = some other :=
    Option.isSome_iff_exists.mp (List.find?_isSome.mpr ⟨second, atSecond, by simp⟩)
  obtain ⟨other, found⟩ := found
  rw [representative, representative, if_pos atFirst, if_pos atSecond]
  simp only [same, found, Option.getD_some]

private theorem identifies_representative {ends : List α} :
    Identifies ends (representative model ends) where
  outside vertex apart := by rw [representative, if_neg apart]
  inside vertex member := (representative_of_mem model member).1
  idempotent vertex member :=
    representative_eq model (representative_of_mem model member).1 member
      (branch_representative model ends vertex)

end Representatives

section Operations

variable [DecidableEq β]

def withoutEdge (graph : Skeleton α β) (edge : β) : Skeleton α β :=
  { graph with edge? := fun other => if other = edge then none else graph.edge? other }

/-- Removes an edge and lets every vertex go to its representative. -/
def contracted (graph : Skeleton α β) (edge : β) (block : α → α) : Skeleton α β where
  vertex vertex := graph.vertex vertex ∧ block vertex = vertex
  edge? other :=
    if other = edge then none else (graph.edge? other).map fun (label, ends) =>
      (label, ends.map block)

def withoutVertex (graph : Skeleton α β) (vertex : α) : Skeleton α β :=
  { graph with vertex := fun other => graph.vertex other ∧ other ≠ vertex }

inductive Step (graph : Skeleton α β) : Skeleton α β → Prop where
  | deleteEdge (edge : β) (found : graph.HasEdge edge) : Step graph (graph.withoutEdge edge)
  | contractEdge (edge : β) (label : String) (ends : List α) (block : α → α)
      (found : graph.edge? edge = some (label, ends))
      (identifies : Identifies ends block) : Step graph (graph.contracted edge block)
  | deleteVertex (vertex : α) (inside : graph.vertex vertex)
      (isolated : ∀ edge label ends, graph.edge? edge = some (label, ends) → vertex ∉ ends) :
        Step graph (graph.withoutVertex vertex)

def Steps : Skeleton α β → Skeleton α β → Prop := Relation.ReflTransGen Step

variable {graph result : Skeleton α β} {smaller : Skeleton γ δ} {edge other : β} {block : α → α}

private theorem withoutEdge_some {label : String} {ends : List α} :
    (graph.withoutEdge edge).edge? other = some (label, ends) ↔
    other ≠ edge ∧ graph.edge? other = some (label, ends) := by
  by_cases same : other = edge <;> simp [withoutEdge, same]

private theorem contracted_some {label : String} {ends : List α} :
    (graph.contracted edge block).edge? other = some (label, ends) ↔
      other ≠ edge ∧ ∃ earlier, graph.edge? other = some (label, earlier) ∧
        earlier.map block = ends := by
  by_cases same : other = edge <;> simp [contracted, same]

private theorem block_idempotent {ends : List α} (identifies : Identifies ends block) (vertex : α) :
    block (block vertex) = block vertex := by
  by_cases member : vertex ∈ ends
  · exact identifies.idempotent vertex member
  · rw [identifies.outside vertex member, identifies.outside vertex member]

theorem Step.closed (step : Step graph result) (closed : graph.Closed) : result.Closed := by
  cases step with
  | deleteEdge edge found =>
    intro other label ends kept vertex member
    exact closed other label ends (withoutEdge_some.mp kept).2 vertex member
  | contractEdge edge label ends block found identifies =>
    intro other label' ends' kept vertex member
    obtain ⟨_, earlier, stored, rfl⟩ := contracted_some.mp kept
    obtain ⟨source, inside, rfl⟩ := List.mem_map.mp member
    refine ⟨?_, block_idempotent identifies source⟩
    by_cases there : source ∈ ends
    · exact closed _ _ _ found _ (identifies.inside source there)
    · rw [identifies.outside source there]
      exact closed _ _ _ stored source inside
  | deleteVertex vertex inside isolated =>
    intro other label ends kept member within
    exact ⟨closed other label ends kept member within,
      fun same => isolated other label ends kept (same ▸ within)⟩

/-- The branch of a representative is its block, which the contracted edge holds together. -/
private def contractionModel {label : String} {ends : List α} (closed : graph.Closed)
    (found : graph.edge? edge = some (label, ends)) (identifies : Identifies ends block) :
    Model (graph.contracted edge block) graph where
  image := id
  branch vertex member := graph.vertex member ∧ block member = vertex
  branch_inside := by
    rintro vertex member ⟨inside, rfl⟩
    refine ⟨⟨?_, block_idempotent identifies member⟩, inside⟩
    by_cases there : member ∈ ends
    · exact closed _ _ _ found _ (identifies.inside member there)
    · rwa [identifies.outside member there]
  branch_apart one other := one.2.symm.trans other.2
  branch_nonempty {vertex} inside := ⟨vertex, inside⟩
  branch_joined := by
    rintro vertex first second ⟨atFirst, rfl⟩ ⟨atSecond, same⟩
    have free : ∀ other, (graph.contracted edge block).HasEdge other → id other ≠ edge :=
      fun other ⟨_, _, kept⟩ => (contracted_some.mp kept).1
    by_cases left : first ∈ ends <;> by_cases right : second ∈ ends
    · exact .single ⟨⟨atFirst, rfl⟩, ⟨atSecond, same⟩, edge, label, ends, free, found, left, right⟩
    · rw [identifies.outside second right] at same
      exact absurd (same ▸ identifies.inside first left) right
    · rw [identifies.outside first left] at same
      exact absurd (same ▸ identifies.inside second right) left
    · rw [identifies.outside first left, identifies.outside second right] at same
      rw [same]
      exact .refl
  image_injective _ _ same := same
  image_kept := by
    intro other label ends kept
    obtain ⟨_, earlier, stored, rfl⟩ := contracted_some.mp kept
    refine ⟨earlier, stored,
      List.forall₂_map_left_iff.mpr (List.forall₂_same.mpr fun vertex member => ?_)⟩
    exact ⟨closed _ _ _ stored vertex member, rfl⟩

theorem Step.model (step : Step graph result) (closed : graph.Closed) :
    Nonempty (Model result graph) := by
  have alone :
      ∀ {inside : α → Prop} (kept : ∀ vertex, inside vertex → graph.vertex vertex)
        (edges : β → Option (String × List α)),
      (∀ edge label ends, edges edge = some (label, ends) → graph.edge? edge = some (label, ends)) →
      (∀ edge label ends, edges edge = some (label, ends) → ∀ vertex ∈ ends, inside vertex) →
      Nonempty (Model ⟨inside, edges⟩ graph) := by
    intro inside kept edges stored attached
    refine ⟨⟨id, fun vertex member => inside vertex ∧ member = vertex, ?_, ?_,
      fun {vertex} present => ⟨vertex, present, rfl⟩, ?_,
      fun _ _ same => same, fun {edge label ends} found => ⟨ends, stored edge label ends found, ?_⟩⟩⟩
    · rintro vertex _ ⟨present, rfl⟩
      exact ⟨present, kept _ present⟩
    · rintro one two member ⟨_, same⟩ ⟨_, other⟩
      exact same.symm.trans other
    · rintro vertex _ _ ⟨_, rfl⟩ ⟨_, rfl⟩
      exact .refl
    · exact List.forall₂_same.mpr fun vertex member =>
        ⟨attached edge label ends found vertex member, rfl⟩
  cases step with
  | deleteEdge edge found =>
    refine alone (fun _ => id) _ (fun other label ends kept => (withoutEdge_some.mp kept).2)
      fun other label ends kept => ?_
    exact closed other label ends (withoutEdge_some.mp kept).2
  | contractEdge edge label ends block found identifies =>
    exact ⟨contractionModel closed found identifies⟩
  | deleteVertex vertex inside isolated =>
    refine alone (fun _ => And.left) _ (fun _ _ _ => id) fun other label ends kept member within => ?_
    exact ⟨closed other label ends kept member within,
      fun same => isolated other label ends kept (same ▸ within)⟩

theorem Steps.model (steps : Steps graph result) (closed : graph.Closed) :
    result.Closed ∧ Nonempty (Model result graph) := by
  induction steps with
  | refl => exact ⟨closed, ⟨(Iso.refl graph).model closed⟩⟩
  | tail _ step ih =>
    obtain ⟨closedBetween, ⟨model⟩⟩ := ih
    obtain ⟨last⟩ := step.model closedBetween
    exact ⟨step.closed closedBetween, ⟨last.trans model⟩⟩

section Contracting

variable (model : Model smaller graph)

/-- Contracting a free edge along the branches leaves a model. -/
private noncomputable def afterContraction {label : String} {ends : List α}
    (found : graph.edge? edge = some (label, ends)) (free : model.Free edge) :
    Model smaller (graph.contracted edge (representative model ends)) where
  image := model.image
  branch vertex member := model.branch vertex member ∧ representative model ends member = member
  branch_inside inside :=
    ⟨(model.branch_inside inside.1).1, (model.branch_inside inside.1).2, inside.2⟩
  branch_apart one other := model.branch_apart one.1 other.1
  branch_nonempty {vertex} inside := by
    obtain ⟨member, atMember⟩ := model.branch_nonempty inside
    have moved := congrFun (branch_representative model ends member) vertex
    exact ⟨_, moved.symm ▸ atMember, block_idempotent (identifies_representative model) member⟩
  branch_joined := by
    rintro vertex first second ⟨atFirst, fixedFirst⟩ ⟨atSecond, fixedSecond⟩
    have moved : ∀ {member}, model.branch vertex member →
        model.branch vertex (representative model ends member) ∧
        representative model ends (representative model ends member) =
          representative model ends member := fun {member} inside =>
      ⟨congrFun (branch_representative model ends member) vertex ▸ inside,
        block_idempotent (identifies_representative model) member⟩
    have walk : (graph.contracted edge (representative model ends)).Joined model.Free
        (fun member => model.branch vertex member ∧ representative model ends member = member)
        (representative model ends first) (representative model ends second) := by
      have path := model.branch_joined atFirst atSecond
      clear fixedSecond atSecond
      induction path with
      | refl => exact .refl
      | @tail middle last _ link ih =>
        obtain ⟨left, right, other, label', ends', unused, stored, leftOn, rightOn⟩ := link
        by_cases same : other = edge
        · subst same
          rw [found, Option.some.injEq, Prod.mk.injEq] at stored
          obtain ⟨rfl, rfl⟩ := stored
          have branches : (model.branch · middle) = (model.branch · last) := by
            funext owner
            refine propext ⟨fun inside => ?_, fun inside => ?_⟩
            · exact model.branch_apart left inside ▸ right
            · exact model.branch_apart right inside ▸ left
          rwa [← representative_eq model leftOn rightOn branches]
        · refine ih.tail ⟨moved left, moved right, other, label', _, unused,
            contracted_some.mpr ⟨same, ends', stored, rfl⟩, ?_, ?_⟩
          · exact List.mem_map_of_mem leftOn
          · exact List.mem_map_of_mem rightOn
    rwa [fixedFirst, fixedSecond] at walk
  image_injective := model.image_injective
  image_kept := by
    intro source label' ends' stored
    obtain ⟨members, kept, along⟩ := model.image_kept stored
    refine ⟨members.map (representative model ends),
      contracted_some.mpr ⟨free source ⟨_, _, stored⟩, members, kept, rfl⟩, ?_⟩
    refine List.forall₂_map_right_iff.mpr (along.imp fun vertex member inside => ⟨?_, ?_⟩)
    · exact congrFun (branch_representative model ends member) vertex ▸ inside
    · exact block_idempotent (identifies_representative model) member

end Contracting

private theorem contract_free (edges : List β) (model : Model smaller graph) (closed : graph.Closed)
    (listed : ∀ edge, graph.HasEdge edge → model.Free edge → edge ∈ edges) :
    ∃ result, Steps graph result ∧ result.Closed ∧
      (∀ vertex, result.vertex vertex → graph.vertex vertex) ∧
      ∃ rigid : Model smaller result, ∀ edge, result.HasEdge edge → ¬rigid.Free edge := by
  induction edges generalizing graph with
  | nil =>
    exact ⟨graph, .refl, closed, fun _ => id, model,
      fun edge found free => absurd (listed edge found free) List.not_mem_nil⟩
  | cons first rest ih =>
    by_cases present : graph.HasEdge first ∧ model.Free first
    · obtain ⟨⟨label, ends, found⟩, free⟩ := present
      have step : Step graph (graph.contracted first (representative model ends)) :=
        .contractEdge first label ends _ found (identifies_representative model)
      obtain ⟨result, steps, closedResult, within, rigid⟩ :=
        ih (afterContraction model found free) (step.closed closed)
          fun edge ⟨_, _, kept⟩ unused => by
            obtain ⟨different, earlier, stored, _⟩ := contracted_some.mp kept
            exact (List.mem_cons.mp (listed edge ⟨_, _, stored⟩ unused)).resolve_left different
      exact ⟨result, .head step steps, closedResult,
        fun vertex inside => (within vertex inside).1, rigid⟩
    · refine ih model closed fun edge found free => ?_
      refine (List.mem_cons.mp (listed edge found free)).resolve_left fun same => ?_
      exact present ⟨same ▸ found, same ▸ free⟩

private theorem delete_unowned [Nonempty α] (vertices : List α) (model : Model smaller graph)
    (rigid : ∀ edge, graph.HasEdge edge → ¬model.Free edge)
    (listed : ∀ member, graph.vertex member → (∃ vertex, model.branch vertex member) ∨
      member ∈ vertices) :
    ∃ result, Steps graph result ∧ Isomorphic smaller result := by
  have owned : ∀ {graph : Skeleton α β} (model : Model smaller graph),
      (∀ edge, graph.HasEdge edge → ¬model.Free edge) →
      ∀ {edge label ends}, graph.edge? edge = some (label, ends) →
        ∃ source earlier, smaller.edge? source = some (label, earlier) ∧ model.image source = edge ∧
          List.Forall₂ model.branch earlier ends := by
    intro graph model rigid edge label ends found
    have taken := rigid edge ⟨_, _, found⟩
    rw [Model.Free] at taken
    push Not at taken
    obtain ⟨source, ⟨label', earlier, stored⟩, same⟩ := taken
    obtain ⟨members, kept, along⟩ := model.image_kept stored
    rw [same, found, Option.some.injEq, Prod.mk.injEq] at kept
    exact ⟨source, earlier, kept.1 ▸ stored, same, kept.2 ▸ along⟩
  induction vertices generalizing graph with
  | nil =>
    exact ⟨graph, .refl, model.isomorphic_of_tight rigid fun member inside =>
      (listed member inside).resolve_right List.not_mem_nil⟩
  | cons first rest ih =>
    by_cases present : graph.vertex first ∧ ¬∃ vertex, model.branch vertex first
    · obtain ⟨inside, unowned⟩ := present
      have step : Step graph (graph.withoutVertex first) := by
        refine .deleteVertex first inside fun edge label ends found member => ?_
        obtain ⟨source, earlier, _, _, along⟩ := owned model rigid found
        obtain ⟨vertex, _, branch⟩ := Listing.along_right along member
        exact unowned ⟨vertex, branch⟩
      have kept : ∀ {vertex member}, model.branch vertex member → member ≠ first :=
        fun branch same => unowned ⟨_, same ▸ branch⟩
      obtain ⟨result, steps, isomorphic⟩ := @ih (graph.withoutVertex first)
        { model with
          branch_inside :=
            fun branch =>
              ⟨(model.branch_inside branch).1, (model.branch_inside branch).2, kept branch⟩
          image_kept := model.image_kept
          branch_joined := model.branch_joined }
        rigid
        fun member inside => (listed member inside.1).imp_right fun among =>
          (List.mem_cons.mp among).resolve_left inside.2
      exact ⟨result, .head step steps, isomorphic⟩
    · refine ih model rigid fun member inside => ?_
      by_cases branch : ∃ vertex, model.branch vertex member
      · exact .inl branch
      · refine .inr ((List.mem_cons.mp ((listed member inside).resolve_left branch)).resolve_left
          fun same => ?_)
        exact present ⟨same ▸ inside, same ▸ branch⟩

/-- What the steps reach from a finite graph are its minors. -/
theorem model_iff_steps [Nonempty α] (closed : graph.Closed) (closedSmaller : smaller.Closed)
    {edges : List β} {vertices : List α} (edgesListed : ∀ edge, graph.HasEdge edge → edge ∈ edges)
    (verticesListed : ∀ vertex, graph.vertex vertex → vertex ∈ vertices) :
    Nonempty (Model smaller graph) ↔ ∃ result, Steps graph result ∧ Isomorphic smaller result := by
  constructor
  · rintro ⟨model⟩
    obtain ⟨between, steps, _, within, rigid, unfree⟩ :=
      contract_free edges model closed fun edge found _ => edgesListed edge found
    obtain ⟨result, later, isomorphic⟩ := delete_unowned vertices rigid unfree
      fun member inside => .inr (verticesListed member (within member inside))
    exact ⟨result, steps.trans later, isomorphic⟩
  · rintro ⟨result, steps, ⟨iso⟩⟩
    obtain ⟨_, ⟨model⟩⟩ := steps.model closed
    exact ⟨(iso.model closedSmaller).trans model⟩

end Operations

end Skeleton

/-- The minor order decides what deletions and contractions can reach, which is the same as the
existence of a model. -/
theorem minor_iff_steps_and_model {smaller bigger : Hypergraph} (formedSmaller : smaller.WellFormed)
    (formed : bigger.WellFormed) :
    (Order.minor.le smaller bigger = true ↔
      ∃ result : Skeleton VertexId EdgeId, Skeleton.Steps bigger.skeleton result ∧
        Skeleton.Isomorphic smaller.skeleton result) ∧
    (Order.minor.le smaller bigger = true ↔
      Nonempty (Skeleton.Model smaller.skeleton bigger.skeleton)) := by
  have decided : Order.minor.le smaller bigger = true ↔
      Nonempty (Skeleton.Model smaller.skeleton bigger.skeleton) :=
    Minor.isMinor_iff formedSmaller formed
  have edgesListed : ∀ edge, bigger.skeleton.HasEdge edge → edge ∈ bigger.edgeIds :=
    fun edge found => Hypergraph.mem_edgeIds_iff.mpr found
  have verticesListed : ∀ vertex, bigger.skeleton.vertex vertex → vertex ∈ bigger.vertexIds :=
    fun vertex inside => Hypergraph.mem_vertexIds.mpr inside
  exact ⟨decided.trans (Skeleton.model_iff_steps formed.closed formedSmaller.closed edgesListed
    verticesListed), decided⟩

/-- Two marked vertices that an edge joins can be contracted to one with both marks. -/
theorem steps_join_marks : ∃ result : Skeleton VertexId EdgeId,
    Skeleton.Steps (Hypergraph.ofEdges 3 [("P", [0]), ("Q", [1]), ("F", [0, 1])]).skeleton result ∧
      Skeleton.Isomorphic (Hypergraph.ofEdges 1 [("P", [0]), ("Q", [0])]).skeleton result :=
  have joined : Hypergraph.WellFormed (.ofEdges 1 [("P", [0]), ("Q", [0])]) := by decide +kernel
  have apart : Hypergraph.WellFormed (.ofEdges 3 [("P", [0]), ("Q", [1]), ("F", [0, 1])]) := by
    decide +kernel
  (minor_iff_steps_and_model joined apart).1.mp (by decide +kernel)

end Coverability
