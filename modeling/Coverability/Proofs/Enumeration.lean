import Coverability.Proofs.Matches
import Coverability.Proofs.Splitting

/-! Which matches the search finds. Each is an overlap of the right side with the graph. And
wherever a graph after a step has a model that makes use of something created, the search finds the
overlap that the model leaves. -/

namespace Coverability.Matching

variable {matching : Matching} {found : PartialMatch}

theorem mem_finish {base : PartialMatch} :
    found ∈ matching.finish base ↔ matching.touches base = true ∧
    (∀ block ∈ base.blocks.values, 1 < block.length →
      connects (matching.unmatched base) block = true) ∧
      ∃ choices, matching.choices base = some choices ∧
        ∃ attached ∈ attachments choices, { base with attached } = found := by
  rw [finish]
  cases touched : matching.touches base with
  | false => simp
  | true =>
    have connected :
        (base.blocks.values.any fun block => 1 < block.length &&
          !connects (matching.unmatched base) block) = false ↔
        ∀ block ∈ base.blocks.values, 1 < block.length →
          connects (matching.unmatched base) block = true := by
      simp [List.any_eq_false]
    rw [← connected]
    cases base.blocks.values.any fun block => 1 < block.length &&
      !connects (matching.unmatched base) block with
    | true => simp
    | false =>
      cases chosen : matching.choices base with
      | none => simp
      | some choices => simp

theorem mem_all :
    found ∈ matching.all ↔ ∃ vertices ∈ matching.vertexMaps matching.rule.right.vertexIds ∅,
    ∃ edges ∈ matching.edgeMaps vertices (eligible matching vertices) ∅,
      found ∈ matching.finish { vertices, edges } := by
  simp only [all, List.mem_flatMap]
  rfl

theorem mem_unmatched (formed : matching.rule.right.WellFormed) {edge : Edge} :
    edge ∈ matching.unmatched found ↔
    matching.rule.right.edge? edge.id = some edge ∧ found.edges.get? edge.id = none := by
  rw [unmatched, List.mem_filter, formed.mem_edgeList, Table.contains]
  simp

theorem mem_keepers {block : List VertexId} {vertex : VertexId}
    (inside : matching.rule.right.hasVertex vertex = true) :
    vertex ∈ keepers matching block ↔ vertex ∈ block ∧ matching.rule.Preserved vertex := by
  rw [keepers, List.mem_filter, decide_eq_true_iff, Rule.mem_createdVertices, not_and, not_not]
  exact and_congr_right fun _ => forall_prop_of_true inside

section Soundness

private theorem joined_of_connects (formed : matching.rule.right.WellFormed)
    {vertex one other : VertexId}
    (connected : 1 < (found.block vertex).length →
      connects (matching.unmatched found) (found.block vertex) = true)
    (first : found.vertices.get? one = some vertex)
    (second : found.vertices.get? other = some vertex) :
    matching.rule.right.skeleton.Joined (fun edge => found.edges.get? edge = none)
      (fun right => found.vertices.get? right = some vertex)
      one other := by
  have atOne := PartialMatch.mem_block.mpr first
  have atOther := PartialMatch.mem_block.mpr second
  cases block : found.block vertex with
  | nil =>
    rw [block] at atOne
    cases atOne
  | cons start rest =>
    cases rest with
    | nil =>
      rw [block, List.mem_singleton] at atOne atOther
      rw [atOne, atOther]
      exact .refl
    | cons next rest =>
      rw [block] at connected atOne atOther
      have walks := connects_iff.mp (connected (by simp))
      have lifted : ∀ right ∈ start :: next :: rest,
          matching.rule.right.skeleton.Joined (fun edge => found.edges.get? edge = none)
          (fun right => found.vertices.get? right = some vertex) start right := by
        intro right member
        refine Relation.ReflTransGen.mono (fun left right adjacent => ?_) _ _ (walks right member)
        obtain ⟨here, there, edge, free, leftOn, rightOn⟩ := adjacent
        obtain ⟨stored, unmatched⟩ := (mem_unmatched formed).mp free
        exact ⟨PartialMatch.mem_block.mp (block ▸ here), PartialMatch.mem_block.mp (block ▸ there),
          edge.id, edge.label, edge.vertices,
          unmatched, Hypergraph.skeleton_edge stored, leftOn, rightOn⟩
      exact (lifted one atOne).symm.trans (lifted other atOther)

private theorem owner_of_attachments (formed : matching.graph.WellFormed) {base : PartialMatch}
    {choices : List (Place × List VertexId)} {attached : List (Place × VertexId)}
    (chosen : matching.choices base = some choices) (member : attached ∈ attachments choices)
    {place : Place} {vertex : VertexId} (opens : place ∈ matching.openPlaces base vertex)
    (matched : base.block vertex ≠ []) :
    ∃ keeper, PartialMatch.owner { base with attached } place vertex = some keeper ∧
      keeper ∈ keepers matching (base.block vertex) := by
  have kept := keepers_of_choices chosen matched opens
  by_cases long : 1 < (base.block vertex).length
  · have choice := (mem_choices chosen).mpr ⟨vertex, long, opens, rfl⟩
    have only : ∀ listed, (place, listed) ∈ choices →
        listed = keepers matching (base.block vertex) := by
      intro listed other
      obtain ⟨image, _, opens', rfl⟩ := (mem_choices chosen).mp other
      obtain ⟨_, label, ends, there, atIndex⟩ := (mem_openPlaces formed).mp opens
      obtain ⟨_, label', ends', there', atIndex'⟩ := (mem_openPlaces formed).mp opens'
      rw [there, Option.some.injEq, Prod.mk.injEq] at there'
      obtain ⟨rfl, rfl⟩ := there'
      rw [atIndex, Option.some.injEq] at atIndex'
      rw [atIndex']
    obtain ⟨keeper, inside, owned⟩ := lookup_of_attachments member choice only
    exact ⟨keeper, PartialMatch.owner_eq (List.mem_of_mem_filter inside) fun _ => owned, inside⟩
  · obtain ⟨keeper, inside⟩ := List.exists_mem_of_ne_nil _ kept
    exact ⟨keeper, PartialMatch.owner_eq (List.mem_of_mem_filter inside) fun many =>
      absurd many long, inside⟩

/-- Every match that the search finds is an overlap. -/
theorem overlap_of_mem_all (formed : matching.graph.WellFormed)
    (formedRight : matching.rule.right.WellFormed) (member : found ∈ matching.all) :
    found.Overlap matching.rule matching.graph := by
  obtain ⟨vertices, placed, edges, placedEdges, finished⟩ := mem_all.mp member
  obtain ⟨_, connected, choices, chosen, attached, picked, rfl⟩ := mem_finish.mp finished
  refine ⟨vertexMaps_sides placed, edgeMaps_sides formed formedRight placedEdges,
    edgeMaps_injective formed placedEdges, ?_, ?_⟩
  · intro one other vertex first second
    refine joined_of_connects formedRight (fun long => connected _ ?_ long) first second
    refine List.mem_map.mpr ⟨(vertex, _), mem_blocks.mpr ⟨rfl, fun empty => ?_⟩, rfl⟩
    have inside : one ∈ PartialMatch.block { vertices, edges } vertex :=
      PartialMatch.mem_block.mpr first
    rw [empty] at inside
    cases inside
  · intro edge label ends index vertex right unmatched stored atIndex mapped
    have inside : right ∈ PartialMatch.block { vertices, edges } vertex :=
      PartialMatch.mem_block.mpr mapped
    have opens : (⟨edge, index⟩ : Place) ∈ matching.openPlaces { vertices, edges } vertex := by
      refine (mem_openPlaces formed).mpr ⟨fun known => ?_, label, ends, stored, atIndex⟩
      obtain ⟨one, mapped⟩ := Table.mem_values_iff.mp known
      exact unmatched one mapped
    obtain ⟨keeper, owned, kept⟩ :=
      owner_of_attachments formed chosen picked opens (List.ne_nil_of_mem inside)
    have mappedKeeper := PartialMatch.mem_block.mp (List.mem_of_mem_filter kept)
    exact ⟨keeper, owned, mappedKeeper,
      ((mem_keepers (vertexMaps_sides placed mappedKeeper).1).mp kept).2⟩

theorem injective_of_mem_all (rigid : matching.contract = false) (member : found ∈ matching.all) :
    Injective found.vertices := by
  obtain ⟨vertices, placed, edges, _, finished⟩ := mem_all.mp member
  obtain ⟨_, _, choices, _, attached, _, rfl⟩ := mem_finish.mp finished
  exact vertexMaps_injective rigid placed

end Soundness

section Completeness

open Splitting

variable {α β : Type} {context : Context matching.rule α β}
  {model : Skeleton.Model matching.graph.skeleton context.after}

private theorem adjacent_of_joined (formedRight : matching.rule.right.WellFormed)
    (shadow : Shadow model found) {vertex first : VertexId} {place : α ⊕ VertexId}
    (walk : context.after.Joined (Inside model) (model.branch vertex) (.inr first) place) :
    ∃ right, place = .inr right ∧
      Relation.ReflTransGen (Adjacent (matching.unmatched found) (found.block vertex))
        first right := by
  induction walk with
  | refl => exact ⟨first, rfl, .refl⟩
  | tail walk link ih =>
    obtain ⟨right, rfl, spread⟩ := ih
    obtain ⟨here, there, _, label, ends, ⟨free, edge, rfl⟩, stored, middleOn, lastOn⟩ := link
    obtain ⟨vertices, known, rfl⟩ := Context.fill_side.mp stored
    obtain ⟨one, oneOn, same⟩ := List.mem_map.mp middleOn
    cases same
    obtain ⟨other, otherOn, rfl⟩ := List.mem_map.mp lastOn
    obtain ⟨edge', stored', rfl, rfl⟩ := Hypergraph.skeleton_edge_iff.mp known
    have named := formedRight.edge_id stored'
    have unmatched : found.edges.get? edge = none := by
      refine Option.eq_none_iff_forall_ne_some.mpr fun source mapped => ?_
      obtain ⟨present, image⟩ := shadow.edges.mp mapped
      exact free source present image
    have adjacent : Adjacent (matching.unmatched found) (found.block vertex) right other :=
      ⟨PartialMatch.mem_block.mpr (shadow.vertices.mpr here),
        PartialMatch.mem_block.mpr (shadow.vertices.mpr there), edge',
        (mem_unmatched formedRight).mpr ⟨named.symm ▸ stored', named.symm ▸ unmatched⟩,
        oneOn, otherOn⟩
    exact ⟨other, rfl, spread.tail adjacent⟩

private theorem connects_block (formedRight : matching.rule.right.WellFormed)
    (shadow : Shadow model found) (connected : Connected model) (vertex : VertexId) :
    connects (matching.unmatched found) (found.block vertex) = true := by
  cases block : found.block vertex with
  | nil => rfl
  | cons first rest =>
    refine connects_iff.mpr fun right member => ?_
    rw [← block] at member ⊢
    have atFirst : model.branch vertex (.inr first) :=
      shadow.vertices.mp (PartialMatch.mem_block.mp (block ▸ List.mem_cons_self))
    have atRight : model.branch vertex (.inr right) :=
      shadow.vertices.mp (PartialMatch.mem_block.mp member)
    obtain ⟨last, same, spread⟩ := adjacent_of_joined formedRight shadow (connected atFirst atRight)
    cases same
    exact spread

private theorem untouched_of_idle (formedRight : matching.rule.right.WellFormed)
    (shadow : Shadow model found) (idle : matching.touches found = false) : Untouched model := by
  rw [touches, Bool.or_eq_false_iff, Bool.or_eq_false_iff] at idle
  obtain ⟨⟨noVertex, noEdge⟩, noCollapse⟩ := idle
  simp only [List.any_eq_false, decide_eq_true_eq] at noVertex noEdge
  have edges : ∀ {edge right}, found.edges.get? right = some edge →
      ∃ left, matching.rule.edgeMap.get? left = some right := by
    intro edge right mapped
    obtain ⟨label, ends, kept⟩ := model.hasEdge (shadow.edges.mp mapped).1
    rw [(shadow.edges.mp mapped).2] at kept
    refine (Context.createdEdge_or_preserved (Context.fill_hasEdge_side.mp
      ⟨label, ends, kept⟩)).resolve_left ?_
    exact noEdge right (Table.mem_keys_iff.mpr ⟨edge, mapped⟩)
  refine ⟨fun {vertex right} inside => ?_,
    fun present image => edges (shadow.edges.mpr ⟨present, image⟩), ?_⟩
  · refine (Context.created_or_preserved (model.branch_inside inside).2).resolve_left ?_
    exact noVertex right (Table.mem_keys_iff.mpr ⟨vertex, shadow.vertices.mpr inside⟩)
  · intro edge label ends one other vertex created known oneOn otherOn atOne atOther
    obtain ⟨stored, there, rfl, rfl⟩ := Hypergraph.skeleton_edge_iff.mp known
    have named := formedRight.edge_id there
    have unmatched : found.edges.get? edge = none := by
      refine Option.eq_none_iff_forall_ne_some.mpr fun source mapped => ?_
      obtain ⟨left, preserved⟩ := edges mapped
      exact (Rule.mem_createdEdges.mp created).2 left preserved
    have apart := List.any_eq_false.mp noCollapse stored
      ((mem_unmatched formedRight).mpr ⟨named.symm ▸ there, named.symm ▸ unmatched⟩)
    rw [named, Bool.and_eq_true, not_and, decide_eq_true_iff] at apart
    have distinct : (stored.distinctVertices.filterMap found.vertices.get?).Nodup := by
      refine Listing.length_eraseDups_eq_iff.mp (Nat.le_antisymm ?_ ?_)
      · exact (List.subperm_of_subset (Listing.nodup_eraseDups _) fun item member =>
          List.mem_eraseDups.mp member).length_le
      · have bounded := apart created
        rw [collapses, decide_eq_true_iff] at bounded
        exact Nat.le_of_not_lt bounded
    exact Listing.inj_on_of_nodup_filterMap distinct (List.mem_eraseDups.mpr oneOn)
      (List.mem_eraseDups.mpr otherOn)
      (shadow.vertices.mpr atOne) (shadow.vertices.mpr atOther)

private theorem count_le (single : model.Single) {right vertex : VertexId}
    (created : right ∈ matching.rule.createdVertices) (inside : model.branch vertex (.inr right))
    {edge : EdgeId} {label : String} {ends : List VertexId}
    (stored : matching.graph.skeleton.edge? edge = some (label, ends))
    (member : vertex ∈ ends) : ∃ image others,
      model.image edge = .inr image ∧ matching.rule.right.skeleton.edge? image =
        some (label, others) ∧ ends.count vertex ≤ others.count right := by
  obtain ⟨members, kept, along⟩ := model.image_kept stored
  cases same : model.image edge with
  | inl source =>
    rw [same] at kept
    obtain ⟨place, placed, atPlace⟩ := Listing.along_left along member
    rw [single atPlace inside] at placed
    exact absurd (context.closed (Context.after_context.mp kept) _ placed)
      (Rule.mem_createdVertices.mp created).2
  | inr image =>
    rw [same] at kept
    obtain ⟨others, known, rfl⟩ := Context.fill_side.mp kept
    rw [List.forall₂_map_right_iff] at along
    exact ⟨image, others, rfl, known, Listing.count_le_of_along along fun placed =>
      Sum.inr.inj (single placed inside)⟩

private theorem degree_le (formed : matching.graph.WellFormed)
    (formedRight : matching.rule.right.WellFormed) (single : model.Single) {right vertex : VertexId}
    (created : right ∈ matching.rule.createdVertices) (inside : model.branch vertex (.inr right)) :
    matching.graph.degree vertex ≤ matching.rule.right.degree right := by
  have image : ∀ edge ∈ matching.graph.incident vertex, ∃ image, model.image edge = .inr image ∧
      (matching.graph.incident vertex).count edge ≤
        (matching.rule.right.incident right).count image := by
    intro edge listed
    obtain ⟨stored, found, member⟩ := formed.mem_incident.mp listed
    obtain ⟨target, others, same, known, counted⟩ :=
      count_le single created inside (Hypergraph.skeleton_edge found) member
    obtain ⟨other, there, _, rfl⟩ := Hypergraph.skeleton_edge_iff.mp known
    refine ⟨target, same, ?_⟩
    rwa [formed.count_incident, formedRight.count_incident, Hypergraph.occurrences_of_some found,
      Hypergraph.occurrences_of_some there]
  refine Listing.length_le_of_count (fun edge => (model.image edge).elim (fun _ => edge) id)
    (fun one listed other listed' same => ?_) ?_
  · obtain ⟨target, placed, _⟩ := image one listed
    obtain ⟨target', placed', _⟩ := image other listed'
    obtain ⟨stored, found, _⟩ := formed.mem_incident.mp listed
    obtain ⟨stored', found', _⟩ := formed.mem_incident.mp listed'
    rw [placed, placed'] at same
    refine model.image_injective (Hypergraph.skeleton_hasEdge.mpr ⟨stored, found⟩)
      (Hypergraph.skeleton_hasEdge.mpr ⟨stored', found'⟩) ?_
    rw [placed, placed']
    exact congrArg Sum.inr same
  · intro edge listed
    obtain ⟨target, placed, counted⟩ := image edge listed
    rwa [placed]

variable {keeper : VertexId → α → VertexId}

/-- The preserved vertex that an incidence of the graph goes to. -/
def Leads (model : Skeleton.Model matching.graph.skeleton context.after)
    (keeper : VertexId → α → VertexId) (place : Place) (target : VertexId) : Prop :=
  ∃ label ends kept places vertex member, matching.graph.skeleton.edge? place.edge =
    some (label, ends) ∧ model.image place.edge = .inl kept ∧
    context.edge? kept = some (label, places) ∧ ends[place.position]? = some vertex ∧
    places[place.position]? = some member ∧
      matching.rule.Preserved target ∧ model.branch vertex (.inr target) ∧
      Goes keeper vertex target member

private theorem Leads.of_place {place : Place} {target : VertexId}
    (leads : Leads model keeper place target) {label : String} {ends : List VertexId} {kept : β}
    {places : List (α ⊕ VertexId)} {vertex : VertexId} {member : α ⊕ VertexId}
    (stored : matching.graph.skeleton.edge? place.edge = some (label, ends))
    (image : model.image place.edge = .inl kept) (known : context.edge? kept = some (label, places))
    (atVertex : ends[place.position]? = some vertex)
    (atMember : places[place.position]? = some member) :
    matching.rule.Preserved target ∧ model.branch vertex (.inr target) ∧
    Goes keeper vertex target member := by
  obtain ⟨label', ends', kept', places', vertex', member', stored', image', known', atVertex',
    atMember', result⟩ := leads
  rw [stored, Option.some.injEq, Prod.mk.injEq] at stored'
  obtain ⟨rfl, rfl⟩ := stored'
  obtain rfl : kept = kept' := Sum.inl.inj (image.symm.trans image')
  rw [known, Option.some.injEq, Prod.mk.injEq] at known'
  obtain ⟨-, rfl⟩ := known'
  obtain rfl : vertex = vertex' := Option.some.inj (atVertex.symm.trans atVertex')
  obtain rfl : member = member' := Option.some.inj (atMember.symm.trans atMember')
  exact result

private theorem exists_leads (formed : matching.graph.WellFormed) (guides : Guides model keeper)
    (shadow : Shadow model found) {place : Place} {vertex right : VertexId}
    (opens : place ∈ matching.openPlaces found vertex)
    (mapped : found.vertices.get? right = some vertex) :
    ∃ target, Leads model keeper place target := by
  obtain ⟨unmatched, label, ends, stored, atVertex⟩ := (mem_openPlaces formed).mp opens
  obtain ⟨members, imaged, along⟩ := model.image_kept stored
  cases image : model.image place.edge with
  | inr target =>
    exact absurd (Table.mem_values_iff.mpr
      ⟨target, shadow.edges.mpr ⟨⟨label, ends, stored⟩, image⟩⟩) unmatched
  | inl kept =>
    rw [image] at imaged
    have known := Context.after_context.mp imaged
    obtain ⟨member, atMember, inside⟩ := Listing.along_getElem? along atVertex
    have atRight : model.branch vertex (.inr right) := shadow.vertices.mp mapped
    have target : ∃ target, matching.rule.Preserved target ∧ model.branch vertex (.inr target) ∧
        Goes keeper vertex target member := by
      cases member with
      | inl other =>
        exact ⟨keeper vertex other, (guides inside atRight).1, guides.inside inside atRight, rfl⟩
      | inr other =>
        exact ⟨other, context.closed known _ (List.mem_of_getElem? atMember), inside, rfl⟩
    obtain ⟨target, goes⟩ := target
    exact ⟨target, label, ends, kept, members, vertex, member, stored, image, known,
      atVertex, atMember, goes⟩

private theorem Leads.mem_keepers (formed : matching.graph.WellFormed) (shadow : Shadow model found)
    {place : Place} {vertex target : VertexId} (opens : place ∈ matching.openPlaces found vertex)
    (leads : Leads model keeper place target) :
    target ∈ keepers matching (found.block vertex) := by
  obtain ⟨_, label, ends, stored, atVertex⟩ := (mem_openPlaces formed).mp opens
  obtain ⟨label', ends', _, _, vertex', _, stored', _, _, atVertex', _, preserved, inside, _⟩ := leads
  rw [stored, Option.some.injEq, Prod.mk.injEq] at stored'
  obtain ⟨rfl, rfl⟩ := stored'
  obtain rfl : vertex = vertex' := Option.some.inj (atVertex.symm.trans atVertex')
  exact (Matching.mem_keepers (model.branch_inside inside).2).mpr
    ⟨PartialMatch.mem_block.mpr (shadow.vertices.mpr inside), preserved⟩

private theorem exists_shadow (model : Skeleton.Model matching.graph.skeleton context.after) :
    ∃ found : PartialMatch, Shadow model found := by
  have vertices : ∃ table : Table VertexId VertexId,
      ∀ {right vertex}, table.get? right = some vertex ↔ model.branch vertex (.inr right) :=
    Table.exists_of_relation matching.rule.right.vertexIds
      (fun inside => Hypergraph.mem_vertexIds.mpr (model.branch_inside inside).2)
      fun first second => model.branch_apart first second
  have edges : ∃ table : Table EdgeId EdgeId, ∀ {right edge}, table.get? right = some edge ↔
      matching.graph.skeleton.HasEdge edge ∧ model.image edge = .inr right := by
    refine Table.exists_of_relation matching.rule.right.edgeIds (fun image => ?_)
      fun first second => ?_
    · have kept := model.hasEdge image.1
      rw [image.2] at kept
      exact Hypergraph.mem_edgeIds_iff.mpr (Context.fill_hasEdge_side.mp kept)
    · exact model.image_injective first.1 second.1 (first.2.trans second.2.symm)
  obtain ⟨vertices, placed⟩ := vertices
  obtain ⟨edges, placedEdges⟩ := edges
  exact ⟨{ vertices, edges }, placed, placedEdges⟩

private theorem exists_attached (formed : matching.graph.WellFormed) (guides : Guides model keeper)
    (shadow : Shadow model found) :
    ∃ choices, matching.choices found = some choices ∧
      ∃ attached ∈ attachments choices, Traces model keeper { found with attached } := by
  -- Each dangling incidence goes to the part that the model sends it to.
  have leading : ∀ {place vertex}, found.block vertex ≠ [] →
      place ∈ matching.openPlaces found vertex → ∃ target, Leads model keeper place target := by
    intro place vertex matched opens
    obtain ⟨right, member⟩ := List.exists_mem_of_ne_nil _ matched
    exact exists_leads formed guides shadow opens (PartialMatch.mem_block.mp member)
  obtain ⟨choices, chosen⟩ := exists_choices fun vertex matched place opens => by
    obtain ⟨target, leads⟩ := leading matched opens
    exact List.ne_nil_of_mem (leads.mem_keepers formed shadow opens)
  let pick (place : Place) : VertexId := Classical.epsilon (Leads model keeper place)
  have picked : ∀ choice ∈ choices, pick choice.1 ∈ choice.2 := by
    intro choice member
    obtain ⟨vertex, long, opens, same⟩ := (mem_choices chosen).mp member
    rw [same]
    exact (Classical.epsilon_spec (leading (List.ne_nil_of_length_pos (by omega))
      opens)).mem_keepers formed shadow opens
  refine ⟨choices, chosen, _, mem_attachments pick picked, ⟨shadow.vertices, shadow.edges⟩, ?_⟩
  intro edge label ends kept places index vertex place right stored image known
    atVertex atPlace inside
  have opens : (⟨edge, index⟩ : Place) ∈ matching.openPlaces found vertex := by
    refine (mem_openPlaces formed).mpr ⟨fun matched => ?_, label, ends, stored, atVertex⟩
    obtain ⟨target, mapped⟩ := Table.mem_values_iff.mp matched
    cases image.symm.trans (shadow.edges.mp mapped).2
  have matched : found.block vertex ≠ [] :=
    List.ne_nil_of_mem (PartialMatch.mem_block.mpr (shadow.vertices.mpr inside))
  have leads : Leads model keeper ⟨edge, index⟩ (pick ⟨edge, index⟩) :=
    Classical.epsilon_spec (leading matched opens)
  refine ⟨pick ⟨edge, index⟩, PartialMatch.owner_eq ?_ fun long => ?_,
    leads.of_place stored image known atVertex atPlace⟩
  · exact List.mem_of_mem_filter (leads.mem_keepers formed shadow opens)
  · exact lookup_picked pick ((mem_choices chosen).mpr ⟨vertex, long, opens, rfl⟩)

/-- The search finds the overlap that a model leaves, if the model makes use of something created. -/
theorem exists_traces (formed : matching.graph.WellFormed)
    (formedRight : matching.rule.right.WellFormed)
    (ended : ∀ {edge label ends}, matching.rule.right.skeleton.edge? edge =
      some (label, ends) → ends ≠ [])
    (rigid : matching.contract = false → model.Single) (connected : Connected model)
    (guides : Guides model keeper) (used : ¬Untouched model) :
    ∃ found ∈ matching.all, Traces model keeper found := by
  obtain ⟨base, shadow⟩ := exists_shadow model
  obtain ⟨choices, chosen, attached, picked, traces⟩ := exists_attached formed guides shadow
  refine ⟨_, mem_all.mpr ⟨base.vertices, mem_vertexMaps ?_ fun fixed => ⟨?_, ?_⟩, base.edges,
    mem_edgeMaps formed formedRight (fun _ => ended) ?_ ?_,
    mem_finish.mpr ⟨?_, ?_, choices, ?_, attached, picked, rfl⟩⟩, traces⟩
  · intro right vertex mapped
    exact (model.branch_inside (shadow.vertices.mp mapped)).symm
  · intro one other vertex first second
    exact Sum.inr.inj (rigid fixed (shadow.vertices.mp first) (shadow.vertices.mp second))
  · intro right vertex mapped created
    exact degree_le formed formedRight (rigid fixed) created (shadow.vertices.mp mapped)
  · intro one other edge first second
    exact Sum.inr.inj ((shadow.edges.mp first).2.symm.trans (shadow.edges.mp second).2)
  · intro right edge mapped
    obtain ⟨⟨label, ends, stored⟩, image⟩ := shadow.edges.mp mapped
    obtain ⟨members, kept, along⟩ := model.image_kept stored
    rw [image] at kept
    obtain ⟨others, known, rfl⟩ := Context.fill_side.mp kept
    rw [List.forall₂_map_right_iff] at along
    exact ⟨label, others, ends, known, stored,
      along.flip.imp fun one other inside => shadow.vertices.mpr inside⟩
  · by_contra idle
    exact used (untouched_of_idle formedRight shadow (Bool.not_eq_true _ ▸ idle))
  · intro block member _
    obtain ⟨vertex, listed⟩ := List.mem_map.mp member
    obtain ⟨same, _⟩ := mem_blocks.mp listed.1
    rw [← listed.2, same]
    exact connects_block formedRight shadow connected _
  · exact chosen

end Completeness

end Coverability.Matching
