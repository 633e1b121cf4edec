import Coverability.Proofs.BackwardStep

/-! Matches without contraction. Each of them is an injective map of a part of the right side, and
which of these the search keeps can be told without the search. It finds each of them once, except
for those that place an edge without vertices, which the search never places. -/

namespace Coverability

/-- A match that lets no two vertices share an image. -/
structure PartialMatch.Rigid (rule : Rule) (graph : Hypergraph) (found : PartialMatch) : Prop where
  vertex_sides : ∀ {right vertex}, found.vertices.get? right = some vertex →
    rule.right.hasVertex right = true ∧ graph.hasVertex vertex = true
  vertex_injective : ∀ {one other vertex}, found.vertices.get? one = some vertex →
    found.vertices.get? other = some vertex → one = other
  edge_sides : ∀ {right edge}, found.edges.get? right = some edge → ∃ label ends others,
    rule.right.skeleton.edge? right = some (label, ends) ∧
    graph.skeleton.edge? edge = some (label, others) ∧
      List.Forall₂ (fun first second => found.vertices.get? first = some second) ends others
  edge_injective : ∀ {one other edge}, found.edges.get? one = some edge →
    found.edges.get? other = some edge → one = other
  /-- Something created is matched. -/
  touches : (∃ right ∈ rule.createdVertices, found.vertices.contains right = true) ∨
    ∃ right ∈ rule.createdEdges, found.edges.contains right = true
  /-- No unmatched edge is left dangling where a created vertex is taken away. -/
  covered : ∀ {right vertex edge label ends}, right ∈ rule.createdVertices →
    found.vertices.get? right = some vertex →
    graph.skeleton.edge? edge = some (label, ends) → vertex ∈ ends → edge ∈ found.edges.values
  unattached : found.attached = []

/-- Whether every matched edge has a vertex. -/
def PartialMatch.Ended (rule : Rule) (found : PartialMatch) : Prop :=
  ∀ {right edge label ends}, found.edges.get? right = some edge →
    rule.right.skeleton.edge? right = some (label, ends) → ends ≠ []

namespace Matching

variable {matching : Matching} {found base : PartialMatch}

section Finish

private theorem not_collapses (injective : Injective found.vertices) (edge : Edge) :
    collapses found edge = false := by
  have distinct : (edge.distinctVertices.filterMap found.vertices.get?).Nodup :=
    (Listing.nodup_eraseDups _).filterMap fun _ _ _ first second => injective first second
  rw [collapses, Listing.length_eraseDups_eq_iff.mpr distinct, decide_eq_false (Nat.lt_irrefl _)]

private theorem touches_iff (injective : Injective found.vertices) : matching.touches found = true ↔
    (∃ right ∈ matching.rule.createdVertices, found.vertices.contains right = true) ∨
      ∃ right ∈ matching.rule.createdEdges, found.edges.contains right = true := by
  have rigid :
      ((matching.unmatched found).any fun edge => edge.id ∈ matching.rule.createdEdges &&
        collapses found edge) = false := by
    refine List.any_eq_false.mpr fun edge _ => ?_
    rw [not_collapses injective, Bool.and_false]
    exact Bool.false_ne_true
  rw [touches, rigid, Bool.or_false, Bool.or_eq_true, List.any_eq_true, List.any_eq_true]
  simp only [Table.mem_keys_iff_contains, decide_eq_true_eq, and_comm]

private theorem length_block (injective : Injective found.vertices) (vertex : VertexId) :
    (found.block vertex).length ≤ 1 := by
  cases block : found.block vertex with
  | nil => exact Nat.zero_le _
  | cons first rest =>
    cases rest with
    | nil => exact Nat.le_refl _
    | cons second rest =>
      have distinct : (first :: second :: rest).Nodup := block ▸ PartialMatch.nodup_block
      have mapped : ∀ right ∈ first :: second :: rest, found.vertices.get? right = some vertex :=
        fun right member => PartialMatch.mem_block.mp (block ▸ member)
      have same :=
        injective (mapped first List.mem_cons_self)
          (mapped second (List.mem_cons_of_mem _ List.mem_cons_self))
      exact absurd (same ▸ List.mem_cons_self) (List.nodup_cons.mp distinct).1

private theorem choices_eq_nil (injective : Injective found.vertices)
    {choices : List (Place × List VertexId)} (chosen : matching.choices found = some choices) :
    choices = [] := by
  refine List.eq_nil_iff_forall_not_mem.mpr fun (place, listed) member => ?_
  obtain ⟨image, long, _⟩ := (mem_choices chosen).mp member
  exact absurd long (Nat.not_lt.mpr (length_block injective image))

private theorem mem_finish_rigid (injective : Injective base.vertices) :
    found ∈ matching.finish base ↔
    matching.touches base = true ∧ (∃ choices, matching.choices base = some choices) ∧
    found = { base with attached := [] } := by
  rw [mem_finish]
  constructor
  · intro known
    obtain ⟨touched, _, choices, chosen, attached, picked, rfl⟩ := known
    obtain rfl := choices_eq_nil injective chosen
    obtain rfl := List.mem_singleton.mp picked
    exact ⟨touched, ⟨[], chosen⟩, rfl⟩
  · intro known
    obtain ⟨touched, ⟨choices, chosen⟩, rfl⟩ := known
    refine ⟨touched, fun block member long => ?_, choices, chosen, [], ?_, rfl⟩
    · obtain ⟨⟨image, block⟩, listed, rfl⟩ := List.mem_map.mp member
      obtain ⟨same, _⟩ := mem_blocks.mp listed
      exact absurd long (Nat.not_lt.mpr (same ▸ length_block injective image))
    · rw [choices_eq_nil injective chosen]
      exact List.mem_singleton.mpr rfl

private theorem exists_choices_iff (formed : matching.graph.WellFormed)
    (injective : Injective base.vertices) :
    (∃ choices, matching.choices base = some choices) ↔
      ∀ {right vertex edge label ends}, right ∈ matching.rule.createdVertices →
        base.vertices.get? right = some vertex →
        matching.graph.skeleton.edge? edge = some (label, ends) → vertex ∈ ends →
        edge ∈ base.edges.values := by
  constructor
  · intro known right vertex edge label ends created mapped stored inside
    obtain ⟨choices, chosen⟩ := known
    by_contra unmatched
    obtain ⟨index, atIndex⟩ := List.getElem?_of_mem inside
    have opens : (⟨edge, index⟩ : Place) ∈ matching.openPlaces base vertex :=
      (mem_openPlaces formed).mpr ⟨unmatched, label, ends, stored, atIndex⟩
    have matched : right ∈ base.block vertex := PartialMatch.mem_block.mpr mapped
    obtain ⟨keeper, kept⟩ :=
      List.exists_mem_of_ne_nil _ (keepers_of_choices chosen (List.ne_nil_of_mem matched) opens)
    obtain ⟨member, stays⟩ := List.mem_filter.mp kept
    rw [injective (PartialMatch.mem_block.mp member) mapped] at stays
    exact of_decide_eq_true stays created
  · intro covered
    refine exists_choices fun vertex matched place opens => ?_
    obtain ⟨right, member⟩ := List.exists_mem_of_ne_nil _ matched
    have mapped := PartialMatch.mem_block.mp member
    obtain ⟨unmatched, label, ends, stored, atIndex⟩ := (mem_openPlaces formed).mp opens
    have stays : right ∉ matching.rule.createdVertices :=
      fun created => unmatched (covered created mapped stored (List.mem_of_getElem? atIndex))
    exact List.ne_nil_of_mem (List.mem_filter.mpr ⟨member, decide_eq_true stays⟩)

private theorem nodup_finish (injective : Injective base.vertices) :
    (matching.finish base).Nodup := by
  rw [finish]
  split
  · exact List.nodup_nil
  · split
    · exact List.nodup_nil
    · split
      · exact List.nodup_nil
      next choices chosen =>
        rw [choices_eq_nil injective chosen]
        exact List.nodup_singleton _

end Finish

section All

variable {rule : Rule} {graph : Hypergraph}

/-- Every edge at the image of a created vertex is matched, so the image has no more incidences
than the vertex. -/
theorem degree_le_of_covered (formed : graph.WellFormed) (formedRight : rule.right.WellFormed)
    (rigid : found.Rigid rule graph) {right vertex : VertexId}
    (created : right ∈ rule.createdVertices) (mapped : found.vertices.get? right = some vertex) :
    graph.degree vertex ≤ rule.right.degree right := by
  have source : ∀ edge ∈ graph.incident vertex, ∃ image, found.edges.get? image = some edge := by
    intro edge listed
    obtain ⟨stored, there, member⟩ := formed.mem_incident.mp listed
    exact Table.mem_values_iff.mp (rigid.covered created mapped
      (Hypergraph.skeleton_edge there) member)
  let origin (edge : EdgeId) : EdgeId :=
    Classical.epsilon fun image => found.edges.get? image = some edge
  have chosen : ∀ edge ∈ graph.incident vertex, found.edges.get? (origin edge) = some edge :=
    fun edge listed => Classical.epsilon_spec (source edge listed)
  refine Listing.length_le_of_count origin (fun one listed other listed' same => ?_)
    fun edge listed => ?_
  · have placed := chosen one listed
    rw [same, chosen other listed', Option.some.injEq] at placed
    exact placed.symm
  · obtain ⟨label, ends, others, there, here, along⟩ := rigid.edge_sides (chosen edge listed)
    obtain ⟨stored, storedIn, rfl, rfl⟩ := Hypergraph.skeleton_edge_iff.mp there
    obtain ⟨stored', storedIn', _, rfl⟩ := Hypergraph.skeleton_edge_iff.mp here
    rw [formed.count_incident, formedRight.count_incident, Hypergraph.occurrences_of_some storedIn,
      Hypergraph.occurrences_of_some storedIn']
    exact Listing.count_le_of_along along.flip fun paired => rigid.vertex_injective paired mapped

/-- With or without contraction, where the vertices have gone apart the match that is made of
them is rigid. -/
theorem rigid_of_finish (formed : matching.graph.WellFormed)
    (formedRight : matching.rule.right.WellFormed) (injective : Injective base.vertices)
    (sides : ∀ {right vertex}, base.vertices.get? right = some vertex →
      matching.rule.right.hasVertex right = true ∧ matching.graph.hasVertex vertex = true)
    (placed : base.edges ∈ matching.edgeMaps base.vertices (eligible matching base.vertices) ∅)
    (finished : found ∈ matching.finish base) :
    found.Rigid matching.rule matching.graph ∧ found.Ended matching.rule := by
  obtain ⟨touched, chosen, rfl⟩ := (mem_finish_rigid injective).mp finished
  exact ⟨⟨sides, injective, edgeMaps_sides formed formedRight placed,
    edgeMaps_injective formed placed, (touches_iff injective).mp touched,
    (exists_choices_iff formed injective).mp chosen, rfl⟩, edgeMaps_ended formed placed⟩

/-- Which matches the search finds without contraction. -/
theorem mem_all_rigid (rigid : matching.contract = false) (formed : matching.graph.WellFormed)
    (formedRight : matching.rule.right.WellFormed) :
    found ∈ matching.all ↔ found.Rigid matching.rule matching.graph ∧ found.Ended matching.rule := by
  rw [mem_all]
  constructor
  · intro known
    obtain ⟨vertices, placed, edges, placedEdges, finished⟩ := known
    exact rigid_of_finish formed formedRight (vertexMaps_injective rigid placed)
      (vertexMaps_sides placed) placedEdges finished
  · intro ⟨known, ended⟩
    refine ⟨found.vertices, mem_vertexMaps known.vertex_sides fun _ =>
      ⟨known.vertex_injective, fun mapped created => ?_⟩, found.edges,
      mem_edgeMaps formed formedRight ended known.edge_injective known.edge_sides,
      (mem_finish_rigid known.vertex_injective).mpr ⟨?_, ?_, ?_⟩⟩
    · exact degree_le_of_covered formed formedRight known created mapped
    · exact (touches_iff known.vertex_injective).mpr known.touches
    · exact (exists_choices_iff formed known.vertex_injective).mpr known.covered
    · obtain ⟨vertices, edges, attached⟩ := found
      obtain rfl : attached = [] := known.unattached
      rfl

theorem nodup_all_rigid (rigid : matching.contract = false)
    (formedRight : matching.rule.right.WellFormed) : matching.all.Nodup := by
  have parts : ∀ {base}, Injective base.vertices → ∀ {found}, found ∈ matching.finish base →
      found.vertices = base.vertices ∧ found.edges = base.edges := by
    intro base injective found finished
    obtain ⟨_, _, rfl⟩ := (mem_finish_rigid injective).mp finished
    exact ⟨rfl, rfl⟩
  rw [all, List.nodup_flatMap]
  refine ⟨fun vertices placed => ?_,
    nodup_vertexMaps.imp_of_mem fun {one other} placed placed' differs found first second => ?_⟩
  · have injective : Injective vertices := vertexMaps_injective rigid placed
    refine List.nodup_flatMap.mpr ⟨fun edges _ => nodup_finish injective,
      (nodup_edgeMaps formedRight).imp fun {one other} differs found first second => ?_⟩
    exact differs ((parts injective first).2.symm.trans (parts injective second).2)
  · obtain ⟨edges, _, finished⟩ := List.mem_flatMap.mp first
    obtain ⟨edges', _, finished'⟩ := List.mem_flatMap.mp second
    have same :=
      (parts (vertexMaps_injective rigid placed) finished).1.symm.trans
        (parts (vertexMaps_injective rigid placed') finished').1
    exact differs same

end All

end Matching

namespace MatchSource

variable {source : MatchSource} {rule : Rule} {graph : Hypergraph}

/-- Without contraction a reset finds every rigid match that places no edge without vertices, each
once, and finds nothing else. -/
theorem reset_rigid (rigid : source.contract = false) (accepted : rule.validate = .ok ())
    (formedRight : rule.right.WellFormed) (formed : graph.WellFormed) :
    ∃ listed, (source.reset rule graph).2 =
      (.ok (), { source with loaded := some ⟨rule, graph, listed⟩, pending := listed }) ∧
      listed.Nodup ∧
        (∀ found, found ∈ listed ↔ found.Rigid rule graph ∧ found.Ended rule) ∧
        (source.reset rule graph).2.2.matchCount = listed.length := by
  have known : (source.reset rule graph).2 = (.ok (),
      { source with
        loaded := some ⟨rule, graph, Matching.all ⟨rule, graph, source.contract⟩⟩
        pending := Matching.all ⟨rule, graph, source.contract⟩ }) := by
    rw [reset, accepted]
  refine ⟨_, known, Matching.nodup_all_rigid rigid formedRight,
    fun found => Matching.mem_all_rigid rigid formed formedRight, ?_⟩
  rw [known, matchCount]

/-- A rule that attaches a new vertex by two edges of one shape and gives it a loop. -/
def tethering : Rule where
  id := "tether"
  name := ""
  left := .ofEdges 1 []
  right := .ofEdges 2 [("E", [0, 1]), ("E", [0, 1]), ("L", [1, 1])]
  vertexMap := .ofList [(⟨0⟩, ⟨0⟩)]

/-- Its right side goes into itself in two ways, and no part of it does, since no edge at the new
vertex may be left out. -/
theorem reset_tethering : ∃ listed, ((forOrder .subgraph).reset tethering tethering.right).2 =
    (.ok (), { forOrder .subgraph with
      loaded := some ⟨tethering, tethering.right, listed⟩
      pending := listed }) ∧ listed.Nodup ∧
      (∀ found, found ∈ listed ↔ found.Rigid tethering tethering.right ∧ found.Ended tethering) ∧
        ((forOrder .subgraph).reset tethering tethering.right).2.2.matchCount = listed.length ∧
        listed.length = 2 := by
  obtain ⟨listed, known, distinct, member, count⟩ :=
    @reset_rigid (forOrder .subgraph) tethering tethering.right
      (by decide +kernel) (by decide +kernel) (by decide +kernel) (by decide +kernel)
  refine ⟨listed, known, distinct, member, count, count ▸ ?_⟩
  decide +kernel

/-- A rule that adds an edge without vertices. -/
def announcing : Rule where
  id := "announce"
  name := ""
  left := .ofEdges 0 []
  right := .ofEdges 0 [("A", [])]

/-- The one created edge could be matched, but no match is found. -/
theorem reset_announcing_misses :
    announcing.validate = .ok () ∧ announcing.left.WellFormed ∧ announcing.right.WellFormed ∧
    PartialMatch.Rigid announcing announcing.right { edges := .ofList [(⟨0⟩, ⟨0⟩)] } ∧
      ((forOrder .subgraph).reset announcing announcing.right).2.2.pending = [] ∧
        ((forOrder .subgraph).reset announcing announcing.right).2.2.matchCount = 0 := by
  have only : ∀ {right edge : EdgeId},
      (Table.ofList [((⟨0⟩ : EdgeId), (⟨0⟩ : EdgeId))]).get? right = some edge →
      right = ⟨0⟩ ∧ edge = ⟨0⟩ :=
    fun mapped => Prod.mk.inj (List.mem_singleton.mp (Table.mem_entries_iff.mpr mapped))
  refine ⟨by decide +kernel, by decide +kernel, by decide +kernel,
    ⟨nofun, nofun, fun mapped => ?_, fun first second => ?_, ?_, nofun, rfl⟩,
    by decide +kernel, by decide +kernel⟩
  · obtain ⟨rfl, rfl⟩ := only mapped
    exact ⟨"A", [], [], by decide +kernel, by decide +kernel, .nil⟩
  · exact (only first).1.trans (only second).1.symm
  · exact .inr ⟨⟨0⟩, by decide +kernel, by decide +kernel⟩

end MatchSource

end Coverability
