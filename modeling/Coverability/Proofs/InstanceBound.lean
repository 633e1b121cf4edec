import Coverability.Proofs.Choosing
import Coverability.Proofs.Preparation

/-! How many copies are worth trying. Without contraction a copy can be left out if nothing is
matched that it creates, and the graph before the step only gets smaller. A copy that stays has an
edge of the graph for itself, or a vertex of the graph that has no edges. So the edges bound the
copies, unless the quantified part creates a vertex and the graph has vertices without edges; then
these count as well. -/

namespace Coverability

private theorem Choice.exists_of_list {copies : Nat} {used : List Nat} (distinct : used.Nodup)
    (inside : ∀ copy ∈ used, copy < copies) :
    ∃ choice, Choice used.length copies choice ∧
      ∀ copy ∈ used, ∃ index, index < used.length ∧ choice index = copy := by
  have get : ∀ {index} (few : index < used.length), used.getD index 0 = used[index] := fun few => by
    rw [List.getD_eq_getElem?_getD, List.getElem?_eq_getElem few, Option.getD_some]
  refine ⟨fun index => used.getD index 0,
    ⟨fun {index} few => ?_, fun {one other} few few' same => ?_⟩, fun copy member => ?_⟩
  · rw [get few]
    exact inside _ (List.getElem_mem few)
  · rw [get few, get few'] at same
    exact (distinct.getElem_inj_iff).mp same
  · obtain ⟨index, few, rfl⟩ := List.mem_iff_getElem.mp member
    exact ⟨index, few, get few⟩

namespace QuantifiedRule

variable {rule : QuantifiedRule} {copies : Nat} {glue : Table VertexId VertexId}
  {first second : Nat → Morphism} {big : Rule} {graph : Hypergraph} {found : PartialMatch}

/-- What a copy has for itself: an edge of the graph that is matched to one that the copy creates,
or a vertex without edges that is matched to one that the copy creates. -/
def Uses (rule : QuantifiedRule) (second : Nat → Morphism) (graph : Hypergraph)
    (found : PartialMatch) (copy : Nat) : EdgeId ⊕ VertexId → Prop
  | .inl edge =>
    ∃ source ∈ rule.quantified.createdEdges,
      ∃ image, (second copy).edge? source = some image ∧ found.edges.get? image = some edge
  | .inr vertex =>
    ∃ source ∈ rule.quantified.createdVertices, ∃ image, (second copy).vertex? source = some image ∧
      found.vertices.get? image = some vertex ∧ vertex ∈ graph.isolatedVertices

namespace Unfolds

section Uses

variable (unfolds : rule.Unfolds glue copies first second big) (valid : rule.Valid)
  (mirrors : rule.Mirrors glue) (rigid : found.Rigid big graph)

include unfolds valid mirrors rigid

private theorem exists_use (formed : rule.Formed) (validBig : big.Valid)
    (formedGraph : graph.WellFormed) {copy : Nat} (inside : copy < copies)
    {source image vertex : VertexId} (created : source ∈ rule.quantified.createdVertices)
    (held : (second copy).vertex? source = some image)
    (mapped : found.vertices.get? image = some vertex) :
    ∃ use, rule.Uses second graph found copy use := by
  by_cases isolated : vertex ∈ graph.isolatedVertices
  · exact ⟨.inr vertex, source, created, image, held, mapped, isolated⟩
  have inBig : image ∈ big.createdVertices :=
    (unfolds.tallies valid mirrors).createdVertices.mpr (.inr ⟨copy, inside, source, created, held⟩)
  have attached : ∃ edge stored, graph.edge? edge = some stored ∧ vertex ∈ stored.vertices := by
    rw [formedGraph.mem_isolatedVertices] at isolated
    push Not at isolated
    exact isolated (rigid.vertex_sides mapped).2
  obtain ⟨edge, stored, here, member⟩ := attached
  obtain ⟨target, mappedEdge⟩ :=
    Table.mem_values_iff.mp (rigid.covered inBig mapped (Hypergraph.skeleton_edge here) member)
  obtain ⟨_, _, _, there, here', along⟩ := rigid.edge_sides mappedEdge
  cases (Hypergraph.skeleton_edge here).symm.trans here'
  obtain ⟨own, foundThere, _, rfl⟩ := Hypergraph.skeleton_edge_iff.mp there
  obtain ⟨_, onEdge, mapped'⟩ := Listing.along_right along member
  cases rigid.vertex_injective mapped mapped'
  obtain ⟨sourceEdge, heldEdge⟩ :=
    unfolds.edge_of_copy mirrors formed inBig inside held foundThere onEdge
  refine ⟨.inl edge, sourceEdge, Rule.mem_createdEdges.mpr ⟨?_, fun left preserved => ?_⟩, target,
    heldEdge, mappedEdge⟩
  · exact Hypergraph.hasEdge_iff.mp ((unfolds.right.edges.defined inside).mpr ⟨target, heldEdge⟩)
  · obtain ⟨one, placed⟩ := (unfolds.edges_placed valid inside preserved).1
    have stays :=
      unfolds.edgeMap.mpr (.inr ⟨copy, inside, left, sourceEdge, preserved, placed, heldEdge⟩)
    obtain ⟨_, _, _, there', _, kept⟩ := validBig.edge_sides stays
    cases foundThere.symm.trans there'
    obtain ⟨origin, _, known⟩ := Listing.along_right kept onEdge
    exact (Rule.mem_createdVertices.mp inBig).2 ⟨origin, known⟩

private theorem uses_apart {copy other : Nat} (inside : copy < copies) (inside' : other < copies)
    {use : EdgeId ⊕ VertexId} (one : rule.Uses second graph found copy use)
    (two : rule.Uses second graph found other use) : copy = other := by
  cases use with
  | inl edge =>
    obtain ⟨_, _, image, held, mapped⟩ := one
    obtain ⟨_, _, image', held', mapped'⟩ := two
    cases rigid.edge_injective mapped mapped'
    exact (unfolds.right.edges.apart inside inside' not_false not_false held held').1
  | inr vertex =>
    obtain ⟨source, created, image, held, mapped, _⟩ := one
    obtain ⟨source', created', image', held', mapped', _⟩ := two
    cases rigid.vertex_injective mapped mapped'
    have inBig : image ∈ big.createdVertices :=
      (unfolds.tallies valid mirrors).createdVertices.mpr (.inr ⟨copy, inside, source, created, held⟩)
    exact (unfolds.right.vertices.apart inside inside' (unfolds.not_glued mirrors inside inBig held)
      (unfolds.not_glued mirrors inside' inBig held')
      held held').1

private theorem length_used_le {used : List Nat} (distinct : used.Nodup)
    (each : ∀ copy ∈ used, copy < copies ∧ ∃ use, rule.Uses second graph found copy use)
    {spare : List VertexId}
    (spared : rule.quantified.createdVertices ≠ [] → graph.isolatedVertices ⊆ spare) :
    used.length ≤ graph.edgeCount + spare.length := by
  -- Each such copy has an edge or a spare vertex that no other copy uses.
  let use (copy : Nat) : EdgeId ⊕ VertexId := Classical.epsilon (rule.Uses second graph found copy)
  have uses : ∀ copy ∈ used, rule.Uses second graph found copy (use copy) :=
    fun copy member => Classical.epsilon_spec (each copy member).2
  have apart : ∀ one ∈ used, ∀ other ∈ used, use one = use other → one = other :=
    fun one member other member' same =>
      unfolds.uses_apart valid mirrors rigid (each one member).1 (each other member').1
        (uses one member) (same ▸ uses other member')
  have within : ∀ copy ∈ used, use copy ∈ graph.edgeIds.map Sum.inl ++ spare.map Sum.inr := by
    intro copy member
    have known := uses copy member
    cases kind : use copy with
    | inl edge =>
      rw [kind] at known
      obtain ⟨_, _, _, _, mapped⟩ := known
      obtain ⟨label, _, others, _, here, _⟩ := rigid.edge_sides mapped
      exact List.mem_append_left
        _ (List.mem_map_of_mem (Hypergraph.mem_edgeIds_iff.mpr ⟨label, others, here⟩))
    | inr vertex =>
      rw [kind] at known
      obtain ⟨_, created, _, _, _, isolated⟩ := known
      exact List.mem_append_right
        _ (List.mem_map_of_mem (spared (List.ne_nil_of_mem created) isolated))
  have fits := Listing.length_le_of_subset_map use distinct apart within
  rwa [List.length_append, List.length_map, List.length_map, Hypergraph.length_edgeIds] at fits

private theorem exists_choice : ∃ fewer choice, Choice fewer copies choice ∧ fewer ≤ copies ∧
    (∀ {copy use}, copy < copies → rule.Uses second graph found copy use →
      ∃ index, index < fewer ∧ choice index = copy) ∧
    ∀ {spare : List VertexId},
      (rule.quantified.createdVertices ≠ [] → graph.isolatedVertices ⊆ spare) →
      fewer ≤ graph.edgeCount + spare.length := by
  classical
  let used : List Nat :=
    (List.range copies).filter fun copy => decide (∃ use, rule.Uses second graph found copy use)
  have mem_used : ∀ {copy}, copy ∈ used ↔
      copy < copies ∧ ∃ use, rule.Uses second graph found copy use := by
    intro copy
    rw [List.mem_filter, List.mem_range, decide_eq_true_iff]
  have distinct : used.Nodup := List.nodup_range.filter _
  obtain ⟨choice, chosen, reached⟩ :=
    Choice.exists_of_list distinct fun copy member => (mem_used.mp member).1
  refine ⟨used.length, choice, chosen, ?_,
    fun inside uses => reached _ (mem_used.mpr ⟨inside, _, uses⟩),
    unfolds.length_used_le valid mirrors rigid distinct fun copy member => mem_used.mp member⟩
  exact Nat.le_trans (List.length_filter_le _ _) (Nat.le_of_eq List.length_range)

private theorem within_chosen (formed : rule.Formed) (validBig : big.Valid)
    (formedGraph : graph.WellFormed) {fewer : Nat} {choice : Nat → Nat} {few : Nat → Morphism}
    {right : Morphism}
    (reached : ∀ {copy use}, copy < copies → rule.Uses second graph found copy use →
      ∃ index, index < fewer ∧ choice index = copy)
    (vertices : Takes (rule.base.right.hasVertex · = true)
      (rule.quantified.right.hasVertex · = true) fewer choice (fun copy => (few copy).vertex?)
      (fun copy => (second copy).vertex?) right.vertex?)
    (edges : Takes (rule.base.right.hasEdge · = true) (rule.quantified.right.hasEdge · = true) fewer
      choice (fun copy => (few copy).edge?)
      (fun copy => (second copy).edge?) right.edge?) : found.Within big right where
  vertices {image vertex} created mapped := by
    rcases (unfolds.tallies valid mirrors).createdVertices.mp created with known |
      ⟨copy, inside, source, own, held⟩
    · exact ⟨image, vertices.of_base (Rule.mem_createdVertices.mp known).1⟩
    · obtain ⟨_, uses⟩ :=
        unfolds.exists_use valid mirrors rigid formed validBig formedGraph inside own held mapped
      obtain ⟨index, few, rfl⟩ := reached inside uses
      obtain ⟨one, _, _, held', taken⟩ := vertices.of_copy few (Rule.mem_createdVertices.mp own).1
      cases held.symm.trans held'
      exact ⟨one, taken⟩
  edges {image edge} created mapped := by
    rcases (unfolds.tallies valid mirrors).createdEdges.mp created with known |
      ⟨copy, inside, source, own, held⟩
    · exact ⟨image, edges.of_base (Hypergraph.hasEdge_iff.mpr (Rule.mem_createdEdges.mp known).1)⟩
    · have uses : rule.Uses second graph found copy (.inl edge) := ⟨source, own, image, held, mapped⟩
      obtain ⟨index, few, rfl⟩ := reached inside uses
      obtain ⟨one, _, _, held', taken⟩ :=
        edges.of_copy few (Hypergraph.hasEdge_iff.mpr (Rule.mem_createdEdges.mp own).1)
      cases held.symm.trans held'
      exact ⟨one, taken⟩

end Uses

end Unfolds

theorem Unfolds.sane (unfolds : rule.Unfolds glue copies first second big)
    (validBig : big.Valid) : big.Sane :=
  ⟨validBig, unfolds.left.formed, unfolds.right.formed⟩

/-- What an instance yields lies above what an instance yields that has no more copies than there is
something for in the graph. -/
theorem exists_smaller (valid : rule.Valid) (formed : rule.Formed)
    (roomRule : rule.HasRoomFor copies) (made : rule.instantiate copies = .ok big)
    (formedGraph : graph.WellFormed) (numbered : graph.Numbered) (room : graph.HasRoomFor big)
    (member : found ∈ Matching.all ⟨big, graph, false⟩) {before : Hypergraph}
    (yielded : complement big graph found = .ok before) :
    ∃ fewer small, rule.instantiate fewer = .ok small ∧ small.Valid ∧
      fewer ≤ copies ∧
      (∀ {spare : List VertexId},
        (rule.quantified.createdVertices ≠ [] → graph.isolatedVertices ⊆ spare) →
        fewer ≤ graph.edgeCount + spare.length) ∧
        ∃ restricted ∈ Matching.all ⟨small, graph, false⟩, ∃ smaller,
          complement small graph restricted = .ok smaller ∧
          Order.subgraph.le smaller before = true := by
  obtain ⟨glue, first, second, big', made', validBig, mirrors, unfolds, _⟩ :=
    exists_unfolds valid formed roomRule
  cases made.symm.trans made'
  have sane := unfolds.sane validBig
  have rigid := ((Matching.mem_all_rigid rfl formedGraph sane.right).mp member).1
  obtain ⟨fewer, choice, chosen, fits, reached, bound⟩ := unfolds.exists_choice valid mirrors rigid
  obtain ⟨glue', few, few', small, instantiated, validSmall, mirrors', less, _⟩ :=
    exists_unfolds valid formed (roomRule.mono fits)
  cases mirrors.unique mirrors'
  obtain ⟨left, right, inside, vertices, edges⟩ :=
    less.exists_inside unfolds chosen valid formed mirrors
  have within :=
    unfolds.within_chosen valid mirrors rigid formed validBig formedGraph reached vertices edges
  have roomSmall : graph.HasRoomFor small := by
    have leftVertices := inside.left.vertexCount_le
    have leftEdges := inside.left.edgeCount_le
    have rightVertices := inside.right.vertexCount_le
    have rightEdges := inside.right.edgeCount_le
    rw [Hypergraph.HasRoomFor, Rule.size] at room ⊢
    omega
  exact ⟨fewer, small, instantiated, validSmall, fits, bound,
    Matching.exists_restricted inside (less.sane validSmall) sane formedGraph numbered roomSmall
      room member within yielded⟩

end QuantifiedRule

namespace Prepared

variable {prepared : Prepared} {id : RuleId} {rule : QuantifiedRule} {copies : Nat} {big : Rule}
  {graph before : Hypergraph} {source : MatchSource}

/-- Without contraction no instance is missed: whatever an instance yields lies above what an
instance yields that has no more copies than the graph has edges and isolated vertices. It is one of
the instances to try if the quantified part creates no vertex or no vertex is isolated. -/
theorem instances_suffice (known : prepared.quantifiedRules.get? id = some rule)
    (unlimited : prepared.maxInstances = 0) (accepted : rule.validate = .ok ())
    (formedRule : rule.Formed) (roomRule : rule.HasRoomFor copies)
    (made : rule.instantiate copies = .ok big) (formed : graph.WellFormed)
    (numbered : graph.Numbered) (room : graph.HasRoomFor big) (rigid : source.contract = false)
    (gives : (source.reset big graph).2.2.Gives before) :
    ∃ tried fewer small smaller, prepared.instances id graph = .ok tried ∧
      fewer ≤ copies ∧ fewer ≤ graph.edgeCount + graph.isolatedVertices.length ∧
      rule.instantiate fewer = .ok small ∧
        (rule.quantified.createdVertices = [] ∨ graph.isolatedVertices = [] →
          .ok small ∈ tried.toList) ∧
          (source.reset small graph).2.2.Gives smaller ∧ Order.subgraph.le smaller before = true := by
  have valid := QuantifiedRule.valid_of_validate accepted
  have validBig : big.validate = .ok () := by
    obtain ⟨result, made', accepted⟩ := QuantifiedRule.instantiate_valid accepted formedRule roomRule
    cases made.symm.trans made'
    exact accepted
  obtain ⟨_, ready, pending⟩ :=
    MatchSource.reset_ok (MatchSource.reset_of_valid validBig source graph)
  obtain ⟨found, member, yielded⟩ := gives.complement_ok ready
  rw [pending, rigid] at member
  obtain ⟨fewer, small, instantiated, validSmall, fits, bound, restricted, member', smaller,
      yielded', below⟩ :=
    QuantifiedRule.exists_smaller valid formedRule roomRule made formed numbered room member yielded
  obtain ⟨_, ready', pending'⟩ :=
    MatchSource.reset_ok (MatchSource.reset_of_valid (Rule.validate_of_valid validSmall) source graph)
  refine ⟨_, fewer, small, smaller, instances_eq known, fits, bound fun _ => List.Subset.refl _,
    instantiated, fun enough => ?_, ?_, below⟩
  · have few : fewer ≤ graph.edgeCount := by
      have fits := @bound [] fun creates => by
        rw [enough.resolve_left creates]
        exact List.Subset.refl _
      simpa using fits
    rw [unlimited]
    refine List.mem_map.mpr ⟨fewer, List.mem_range'_1.mpr ⟨Nat.zero_le _, ?_⟩, instantiated⟩
    simp only [Instances.remaining, Hypergraph.copyBound, if_pos]
    omega
  · rw [← rigid] at member'
    exact MatchSource.Gives.of_pending ready' pending' yielded' member'

/-- A rule that attaches new neighbours to a vertex. -/
def spreading : QuantifiedRule where
  id := "spread"
  name := "spread"
  base := {
    id := ""
    name := ""
    left := .ofEdges 1 []
    right := .ofEdges 1 []
    vertexMap := .ofList [(⟨0⟩, ⟨0⟩)] }
  quantified := {
    id := ""
    name := ""
    left := .ofEdges 1 []
    right := .ofEdges 2 [("E", [0, 1])]
    vertexMap := .ofList [(⟨0⟩, ⟨0⟩)] }
  anchors := .ofList [(⟨0⟩, ⟨0⟩)]

/-- The instance with three new neighbours. -/
def spreadingThrice : Rule :=
  match spreading.instantiate 3 with
  | .ok rule => rule
  | .error _ => default

/-- Three new neighbours are too many for a vertex with two, but what they yield lies above what one
or two of them yield. -/
theorem instances_suffice_spreading : ∃ before tried fewer small smaller,
    ((MatchSource.forOrder .subgraph).reset spreadingThrice
      (.ofEdges 3 [("E", [0, 1]), ("E", [0, 2])])).2.2.Gives before ∧
      instances { quantifiedRules := .ofList [("spread", spreading)] } "spread"
        (.ofEdges 3 [("E", [0, 1]), ("E", [0, 2])]) = .ok tried ∧
        fewer ≤ 2 ∧ spreading.instantiate fewer = .ok small ∧ .ok small ∈ tried.toList ∧
          ((MatchSource.forOrder .subgraph).reset small
            (.ofEdges 3 [("E", [0, 1]), ("E", [0, 2])])).2.2.Gives smaller ∧
            Order.subgraph.le smaller before = true := by
  have answered :
      ((MatchSource.forOrder .subgraph).reset spreadingThrice
        (.ofEdges 3 [("E", [0, 1]), ("E", [0, 2])])).2.2.next.2.1.isSome = true := by
    decide +kernel
  obtain ⟨before, answer⟩ := Option.isSome_iff_exists.mp answered
  have gives := MatchSource.Gives.next answer
  obtain ⟨tried, fewer, small, smaller, enumerated, _, bound, instantiated, listed, given, below⟩ :=
    @instances_suffice { quantifiedRules := .ofList [("spread", spreading)] } "spread" spreading
      3 spreadingThrice
      (.ofEdges 3 [("E", [0, 1]), ("E", [0, 2])]) before (MatchSource.forOrder .subgraph)
        (by decide +kernel) (by decide +kernel)
      (by decide +kernel) (by decide +kernel) (by decide +kernel) (by decide +kernel)
        (by decide +kernel) (by decide +kernel) (by decide +kernel)
      (by decide +kernel) gives
  have two : Hypergraph.edgeCount (.ofEdges 3 [("E", [0, 1]), ("E", [0, 2])]) +
      (Hypergraph.isolatedVertices (.ofEdges 3 [("E", [0, 1]), ("E", [0, 2])])).length =
        2 := by decide +kernel
  exact ⟨before, tried, fewer, small, smaller, gives, enumerated, two ▸ bound, instantiated,
    listed (.inr (by decide +kernel)), given, below⟩

/-- A rule that adds vertices. -/
def sprouting : QuantifiedRule where
  id := "sprout"
  name := "sprout"
  base := { id := "", name := "", left := .ofEdges 0 [], right := .ofEdges 0 [] }
  quantified := { id := "", name := "", left := .ofEdges 0 [], right := .ofEdges 1 [] }

/-- The instance with one new vertex. -/
def sproutingOnce : Rule :=
  match sprouting.instantiate 1 with
  | .ok rule => rule
  | .error _ => default

/-- A single vertex may be the new one, and then there was nothing before. But it has no edge, so
only the instance without copies is tried, and this yields nothing. -/
theorem instances_miss_isolated :
    sprouting.validate = .ok () ∧ sprouting.Formed ∧ sprouting.instantiate 1 = .ok sproutingOnce ∧
    (∃ before,
      ((MatchSource.forOrder .subgraph).reset sproutingOnce (.ofEdges 1 [])).2.2.Gives before ∧
      Order.subgraph.le (.ofEdges 1 []) before = false) ∧
    ∃ tried, instances { quantifiedRules := .ofList [("sprout", sprouting)] } "sprout"
      (.ofEdges 1 []) = .ok tried ∧
      ∀ small, .ok small ∈ tried.toList →
        ∀ smaller,
          ¬((MatchSource.forOrder .subgraph).reset small (.ofEdges 1 [])).2.2.Gives smaller := by
  have answered :
      (((MatchSource.forOrder .subgraph).reset sproutingOnce (.ofEdges 1 [])).2.2.next.2.1.map
      fun before => Order.subgraph.le (.ofEdges 1 []) before) = some false := by decide +kernel
  obtain ⟨before, answer, below⟩ := Option.map_eq_some_iff.mp answered
  refine ⟨by decide +kernel, by decide +kernel, by decide +kernel, ⟨before, .next answer, below⟩,
    ⟨sprouting, 0, 0⟩, by decide +kernel, ?_⟩
  intro small listed smaller given
  have only : Instances.toList ⟨sprouting, 0, 0⟩ =
    [.ok { sprouting.base with id := "sprout", name := "sprout[0]" }] := by decide +kernel
  rw [only, List.mem_singleton, Except.ok.injEq] at listed
  have accepted : small.validate = .ok () := listed ▸ by decide +kernel
  obtain ⟨_, ready, pending⟩ :=
    MatchSource.reset_ok
      (MatchSource.reset_of_valid accepted (MatchSource.forOrder .subgraph) (.ofEdges 1 []))
  obtain ⟨found, member, _⟩ := given.complement_ok ready
  have empty : Matching.all ⟨small, .ofEdges 1 [], (MatchSource.forOrder .subgraph).contract⟩ =
    [] := listed ▸ by decide +kernel
  rw [pending, empty] at member
  cases member

end Prepared

end Coverability
