import Coverability.Proofs.Split

/-! The complement of an overlap: the context of the overlap filled with the left side. It is
reached from the split graph, which is the context filled with the matched part of the right side,
by adding what the match leaves out of the preserved part, removing the created part and adding the
deleted part of the left side. -/

namespace Coverability

variable {rule : Rule}

namespace Context

variable {α β : Type} {context : Context rule α β} {side : Hypergraph} {place : VertexId → VertexId}
  {vertices : VertexId → Prop} {edges : EdgeId → Prop}

open Classical in
/-- The context filled with part of one side of the rule. -/
noncomputable def part (context : Context rule α β) (side : Hypergraph)
    (place : VertexId → VertexId) (vertices : VertexId → Prop) (edges : EdgeId → Prop) :
    Skeleton (α ⊕ VertexId) (β ⊕ EdgeId) where
  vertex := Sum.elim context.vertex vertices
  edge?
    | .inl edge => (context.fill side place).edge? (.inl edge)
    | .inr edge => if edges edge then (context.fill side place).edge? (.inr edge) else none

theorem part_context {edge : β} {label : String} {ends : List (α ⊕ VertexId)} :
    (context.part side place vertices edges).edge? (.inl edge) = some (label, ends) ↔
      ∃ places, context.edge? edge = some (label, places) ∧ places.map (Sum.map id place) = ends := by
  change (context.fill side place).edge? (.inl edge) = some (label, ends) ↔ _
  exact fill_context

theorem part_side {edge : EdgeId} {label : String} {ends : List (α ⊕ VertexId)} :
    (context.part side place vertices edges).edge? (.inr edge) = some (label, ends) ↔
      edges edge ∧ ∃ sources, side.skeleton.edge? edge = some (label, sources) ∧
        sources.map .inr = ends := by
  simp only [part]
  split
  next known => rw [fill_side, and_iff_right known]
  next unknown => exact ⟨nofun, fun known => absurd known.1 unknown⟩

theorem part_hasEdge_context {edge : β} :
    (context.part side place vertices edges).HasEdge (.inl edge) ↔
    ∃ label ends, context.edge? edge = some (label, ends) := by
  change (context.fill side place).HasEdge (.inl edge) ↔ _
  exact fill_hasEdge_context

theorem part_hasEdge_side {edge : EdgeId} :
    (context.part side place vertices edges).HasEdge (.inr edge) ↔
    edges edge ∧ side.skeleton.HasEdge edge := by
  simp only [Skeleton.HasEdge, part_side]
  constructor
  · intro found
    obtain ⟨label, _, known, sources, found, _⟩ := found
    exact ⟨known, label, sources, found⟩
  · intro found
    obtain ⟨known, label, sources, found⟩ := found
    exact ⟨label, _, known, sources, found, rfl⟩

theorem part_closed (preserved : ∀ vertex, rule.Preserved vertex → vertices (place vertex))
    (ends : ∀ {edge label sources}, edges edge → side.skeleton.edge? edge = some (label, sources) →
      ∀ vertex ∈ sources, vertices vertex) :
    (context.part side place vertices edges).Closed := by
  intro edge label places stored target member
  cases edge with
  | inl edge =>
    obtain ⟨sources, known, rfl⟩ := part_context.mp stored
    obtain ⟨source, inside, rfl⟩ := List.mem_map.mp member
    have closed := context.closed known source inside
    cases source with
    | inl vertex => exact closed
    | inr vertex => exact preserved vertex closed
  | inr edge =>
    obtain ⟨known, sources, there, rfl⟩ := part_side.mp stored
    obtain ⟨source, inside, rfl⟩ := List.mem_map.mp member
    exact ends known there source inside

theorem part_vertices {edges' : EdgeId → Prop} {vertices' : VertexId → Prop}
    (same : ∀ vertex, vertices' vertex ↔ vertices vertex) (one : α ⊕ VertexId) :
    (context.part side place vertices' edges').vertex one ↔
    (context.part side place vertices edges).vertex one := by
  cases one with
  | inl old => exact Iff.rfl
  | inr vertex => exact same vertex

/-- Two parts with the same elements are the same. -/
theorem part_edges {edges' : EdgeId → Prop} {vertices' : VertexId → Prop}
    (same : ∀ edge, side.skeleton.HasEdge edge → (edges' edge ↔ edges edge)) (one : β ⊕ EdgeId) :
    (context.part side place vertices' edges').edge? one =
      (context.part side place vertices edges).edge? one := by
  cases one with
  | inl edge => rfl
  | inr edge =>
    cases stored : side.skeleton.edge? edge with
    | none => simp [part, fill, stored]
    | some known =>
      have equal := same edge ⟨known.1, known.2, stored⟩
      by_cases inside : edges edge
      · simp only [part, if_pos inside, if_pos (equal.mpr inside)]
      · simp only [part, if_neg inside, if_neg (equal.not.mpr inside)]

/-- The part of all elements is the whole side. -/
theorem part_all (all : ∀ edge, side.skeleton.HasEdge edge → edges edge) (one : β ⊕ EdgeId) :
    (context.fill side place).edge? one = (context.part side place vertices edges).edge? one := by
  cases one with
  | inl edge => rfl
  | inr edge =>
    cases stored : side.skeleton.edge? edge with
    | none => simp [part, fill, stored]
    | some known => simp only [part, if_pos (all edge ⟨known.1, known.2, stored⟩)]

theorem part_insert {edges' : EdgeId → Prop} {name : EdgeId} {label : String}
    {sources : List VertexId} [DecidableEq β]
    (stored : side.skeleton.edge? name = some (label, sources))
    (same : ∀ edge, edges' edge ↔ edges edge ∨ edge = name) (one : β ⊕ EdgeId) :
    (context.part side place vertices edges').edge? one =
      if one = .inr name then some (label, sources.map .inr)
        else (context.part side place vertices edges).edge? one := by
  cases one with
  | inl edge => rw [if_neg Sum.inl_ne_inr]; rfl
  | inr edge =>
    by_cases equal : edge = name
    · subst equal
      rw [if_pos rfl]
      exact part_side.mpr ⟨(same edge).mpr (.inr rfl), sources, stored, rfl⟩
    · rw [if_neg fun known => equal (Sum.inr.inj known)]
      by_cases inside : edges edge
      · simp only [part, if_pos inside, if_pos ((same edge).mpr (.inl inside))]
      · simp only [part, if_neg inside, if_neg fun known => ((same edge).mp known).elim inside equal]

theorem part_remove {edges' : EdgeId → Prop} {name : EdgeId} [DecidableEq β]
    (same : ∀ edge, edges' edge ↔ edges edge ∧ edge ≠ name) (one : β ⊕ EdgeId) :
    (context.part side place vertices edges').edge? one =
      if one = .inr name then none else (context.part side place vertices edges).edge? one := by
  cases one with
  | inl edge => rw [if_neg Sum.inl_ne_inr]; rfl
  | inr edge =>
    by_cases equal : edge = name
    · subst equal
      rw [if_pos rfl]
      simp only [part, if_neg fun known => ((same edge).mp known).2 rfl]
    · rw [if_neg fun known => equal (Sum.inr.inj known)]
      by_cases inside : edges edge
      · simp only [part, if_pos inside, if_pos ((same edge).mpr ⟨inside, equal⟩)]
      · simp only [part, if_neg inside, if_neg fun known => inside ((same edge).mp known).1]

end Context

variable {graph : Hypergraph} {found : PartialMatch} {overlap : found.Overlap rule graph}
  {formed : graph.WellFormed}

namespace Split

/-- Where the edges are after the split. -/
def edgeName (split : Split) (found : PartialMatch) (edge : EdgeId ⊕ EdgeId) : EdgeId :=
  let before := edge.elim id fun right => found.edges.getD right right
  split.renamed.getD before before

theorem edgeImage?_eq {split : Split} {right : EdgeId} (matched : found.edges.contains right = true) :
    split.edgeImage? found right = some (split.edgeName found (.inr right)) := by
  obtain ⟨edge, mapped⟩ := Table.contains_iff.mp matched
  simp only [edgeImage?, edgeName, Sum.elim_inr, Table.getD_eq, mapped, Option.map_some,
    Option.getD_some]

theorem edgeImage?_none {split : Split} {right : EdgeId}
    (unmatched : found.edges.contains right = false) :
    split.edgeImage? found right = none := by
  rw [Table.contains, Option.isSome_eq_false_iff, Option.isNone_iff_eq_none] at unmatched
  rw [edgeImage?, unmatched, Option.map_none]

theorem rerouted_matched (overlap : found.Overlap rule graph) {right edge : EdgeId}
    (mapped : found.edges.get? right = some edge) {label : String} {sources : List VertexId}
    (stored : rule.right.skeleton.edge? right = some (label, sources)) :
    rerouted rule found graph edge = some (label, sources.map .inr) := by
  obtain ⟨label', sources', ends, there, here, along⟩ := overlap.edge_sides mapped
  rw [stored, Option.some.injEq, Prod.mk.injEq] at there
  obtain ⟨rfl, rfl⟩ := there
  obtain ⟨owner, known, rfl, rfl⟩ := Hypergraph.skeleton_edge_iff.mp stored
  rw [rerouted, here, Option.map_some]
  refine congrArg some (Prod.ext rfl (List.ext_getElem? fun index => ?_))
  rw [Listing.getElem?_map_zipIdx, List.getElem?_map]
  cases atIndex : ends[index]? with
  | none =>
    have length := along.length_eq
    rw [List.getElem?_eq_none_iff] at atIndex
    rw [List.getElem?_eq_none (by omega)]
    rfl
  | some vertex =>
    obtain ⟨source, atSource, _⟩ := Listing.along_getElem? along.flip atIndex
    rw [Option.map_some, atSource, Option.map_some, goal, overlap.find?_matched mapped]
    simp only [known, Option.bind_some, atSource]

theorem rerouted_unmatched (overlap : found.Overlap rule graph) (formed : graph.WellFormed)
    {edge : EdgeId} (unmatched : edge ∉ found.edges.values) :
    rerouted rule found graph edge = (overlap.context formed).edge? edge := by
  simp only [rerouted, PartialMatch.Overlap.context, if_neg unmatched]
  refine congrArg (Option.map · _)
    (funext fun known => Prod.ext rfl (List.map_congr_left fun entry _ => ?_))
  rw [goal, PartialMatch.Overlap.find?_unmatched unmatched]

/-- The split graph is the context filled with the matched part of the right side. -/
def matchedIso (overlap : found.Overlap rule graph) (formed : graph.WellFormed) :
    Skeleton.Iso
      ((overlap.context formed).part rule.right id (· ∈ found.order) (found.edges.contains · = true))
      (fan found graph (· ∈ found.order) (rerouted rule found graph)) where
  vertex := id
  edge := Sum.elim id fun right => found.edges.getD right right
  vertex_inside := id
  vertex_injective _ _ same := same
  vertex_surjective inside := ⟨_, inside, rfl⟩
  edge_kept {one label ends} stored := by
    rw [List.map_id]
    cases one with
    | inl edge =>
      obtain ⟨places, known, rfl⟩ := Context.part_context.mp stored
      have unmatched := (PartialMatch.Overlap.context_edge.mp known).1
      refine (rerouted_unmatched overlap formed unmatched).trans (known.trans ?_)
      simp
    | inr right =>
      obtain ⟨matched, sources, known, rfl⟩ := Context.part_side.mp stored
      obtain ⟨edge, mapped⟩ := Table.contains_iff.mp matched
      have same : found.edges.getD right right =
        edge := by rw [Table.getD_eq, mapped, Option.getD_some]
      exact (congrArg _ same).trans (rerouted_matched overlap mapped known)
  edge_injective {one other} first second same := by
    have apart : ∀ {edge right},
        ((overlap.context formed).part rule.right id (· ∈ found.order)
          (found.edges.contains · = true)).HasEdge (.inl edge) →
        found.edges.contains right = true → found.edges.getD right right ≠ edge := by
      intro edge right known matched same
      obtain ⟨label, places, stored⟩ := Context.part_hasEdge_context.mp known
      obtain ⟨source, mapped⟩ := Table.contains_iff.mp matched
      rw [Table.getD_eq, mapped, Option.getD_some] at same
      exact (PartialMatch.Overlap.context_edge.mp stored).1
        (Table.mem_values_iff.mpr ⟨right, same ▸ mapped⟩)
    cases one <;> cases other
    case inl.inl one other => exact congrArg Sum.inl same
    case inl.inr one other =>
      exact absurd same.symm (apart first (Context.part_hasEdge_side.mp second).1)
    case inr.inl one other => exact absurd same (apart second (Context.part_hasEdge_side.mp first).1)
    case inr.inr one other =>
      obtain ⟨source, mapped⟩ := Table.contains_iff.mp (Context.part_hasEdge_side.mp first).1
      obtain ⟨source', mapped'⟩ := Table.contains_iff.mp (Context.part_hasEdge_side.mp second).1
      rw [Sum.elim_inr, Sum.elim_inr, Table.getD_eq, Table.getD_eq, mapped, mapped',
        Option.getD_some, Option.getD_some] at same
      exact congrArg Sum.inr (overlap.edge_injective mapped (same ▸ mapped'))
  edge_surjective {target} inside := by
    by_cases matched : target ∈ found.edges.values
    · obtain ⟨right, mapped⟩ := Table.mem_values_iff.mp matched
      obtain ⟨label, sources, _, there, _⟩ := overlap.edge_sides mapped
      refine ⟨.inr right,
        Context.part_hasEdge_side.mpr ⟨Table.contains_iff.mpr ⟨target, mapped⟩, label,
          sources, there⟩, ?_⟩
      rw [Sum.elim_inr, Table.getD_eq, mapped, Option.getD_some]
    · obtain ⟨label, places, stored⟩ := inside
      have known : (overlap.context formed).edge? target = some (label, places) :=
        (rerouted_unmatched overlap formed matched).symm.trans stored
      exact ⟨.inl target, Context.part_hasEdge_context.mpr ⟨label, places, known⟩, rfl⟩

theorem shows_matched (overlap : found.Overlap rule graph) (formed : graph.WellFormed)
    (numbered : graph.Numbered)
    (room : graph.nextId + rule.right.vertexCount + graph.edgeCount < wordRange) :
    ∃ split vertex, ofMatch rule graph found = .ok split ∧
      split.graph.Shows
        ((overlap.context formed).part rule.right id (· ∈ found.order)
          (found.edges.contains · = true)) vertex
        (split.edgeName found) ∧
      Tracks split.copies found.order (vertex <| .inr ·) ∧ Steady found graph split vertex ∧
      split.graph.nextId ≤ graph.nextId + rule.right.vertexCount + graph.edgeCount := by
  obtain ⟨split, vertex, made, shows, tracks, steady, count⟩ :=
    ofMatch_ok overlap formed numbered room
  refine ⟨split, vertex, made,
    shows.rename (matchedIso overlap formed)
      (fun one label ends stored place member => ?_) (fun _ => rfl)
    (fun _ => rfl), tracks, steady, count⟩
  have kept := (matchedIso overlap formed).edge_kept stored
  rw [show ends.map (matchedIso overlap formed).vertex = ends from List.map_id ends] at kept
  exact shows.closed _ _ _ kept place member

end Split

namespace Placed

theorem image_eq {placed : Placed} {vertex image : VertexId}
    (stored : placed.images.get? vertex = some image) :
    placed.image vertex = .ok image := by
  rw [Placed.image, stored]

variable {α β : Type} [DecidableEq β] {placed : Placed} {shape : Skeleton (α ⊕ VertexId) β}
  {vertex : α ⊕ VertexId → VertexId} {names : β → EdgeId}

/-- Adding an edge of the rule adds an edge along the places of its vertices. -/
theorem addEdge_shows (shows : placed.graph.Shows shape vertex names) {edge : Edge} (name : β)
    (shape' : Skeleton (α ⊕ VertexId) β) (room : placed.graph.HasRoom) (new : ¬shape.HasEdge name)
    (inside : ∀ one ∈ edge.vertices, shape.vertex (.inr one))
    (images : ∀ one ∈ edge.vertices, placed.images.get? one = some (vertex (.inr one)))
    (vertices : ∀ one, shape'.vertex one ↔ shape.vertex one)
    (edges : ∀ one, shape'.edge? one = if one = name then some (edge.label, edge.vertices.map .inr)
      else shape.edge? one) :
    ∃ fresh after, placed.addEdge edge = .ok after ∧ after.images = placed.images ∧
      after.graph.nextId = placed.graph.nextId + 1 ∧
      after.graph.Shows shape' vertex (Function.update names name fresh) := by
  have present : ∀ one ∈ edge.vertices.map Sum.inr, shape.vertex one := by
    intro one member
    obtain ⟨source, known, rfl⟩ := List.mem_map.mp member
    exact inside source known
  obtain ⟨fresh, result, added, next, shows⟩ :=
    shows.addEdge name shape' room new present vertices edges
  have routes : edge.vertices.mapM placed.image = .ok ((edge.vertices.map Sum.inr).map vertex) := by
    rw [List.map_map]
    exact Listing.mapM_ok fun one member => image_eq (images one member)
  refine ⟨fresh, { placed with graph := result }, ?_, rfl, next, shows⟩
  rw [addEdge, routes]
  change (placed.graph.addEdge edge.label _ >>= _) = _
  rw [added]
  rfl

end Placed

section Preserved

variable {context : Context rule VertexId EdgeId} {split : Split}
  {vertex : VertexId ⊕ VertexId → VertexId} {names : EdgeId ⊕ EdgeId → EdgeId}
  {matched : List VertexId} {kept : EdgeId → Prop}

/-- The state once some preserved vertices have a place. -/
private structure Preserving (context : Context rule VertexId EdgeId) (split : Split)
    (start : VertexId ⊕ VertexId → VertexId) (names : EdgeId ⊕ EdgeId → EdgeId)
    (matched : List VertexId) (kept : EdgeId → Prop) (done : List VertexId) (placed : Placed)
    (vertex : VertexId ⊕ VertexId → VertexId) : Prop where
  shows : placed.graph.Shows
    (context.part rule.right id (fun right => right ∈ matched ∨ right ∈ done) kept) vertex names
  copies : Tracks split.copies matched (vertex <| .inr ·)
  images : Tracks placed.images done (vertex <| .inr ·)
  old : ∀ old, vertex (.inl old) = start (.inl old)
  matched : ∀ right ∈ matched, vertex (.inr right) = start (.inr right)
  count : placed.graph.nextId ≤ split.graph.nextId + done.length

private theorem Preserving.stay {done : List VertexId} {placed : Placed}
    {vertex' : VertexId ⊕ VertexId → VertexId} {right copy : VertexId}
    (known : Preserving context split vertex names matched kept done placed vertex')
    (copied : split.copies.get? right = some copy) :
    Preserving context split vertex names matched kept (done ++ [right])
      { placed with images := placed.images.insert right copy } vertex' := by
  obtain ⟨inside, here⟩ := (known.copies right copy).mp copied
  have before := known.count
  refine ⟨known.shows.congr
    _ (Context.part_vertices (Listing.or_mem_concat_iff (· ∈ matched) done inside)) fun _ => rfl,
      known.copies, ?_,
    known.old, known.matched, ?_⟩
  · rw [← here]
    exact known.images.insert _ right fun _ _ => rfl
  · rw [List.length_append]
    change placed.graph.nextId ≤ _
    omega

private theorem Preserving.fresh {done : List VertexId} {placed : Placed}
    {vertex' : VertexId ⊕ VertexId → VertexId} {right : VertexId}
    (known : Preserving context split vertex names matched kept done placed vertex')
    (copied : split.copies.get? right = none) (new : right ∉ done) (room : placed.graph.HasRoom) :
    Preserving context split vertex names matched kept (done ++ [right])
      (placed.addFresh right) (Function.update vertex' (.inr right) placed.graph.addVertex.1) := by
  have missing : right ∉ matched := by
    intro inside
    rw [(known.copies right _).mpr ⟨inside, rfl⟩] at copied
    cases copied
  have unused : ¬(right ∈ matched ∨ right ∈ done) := fun known => known.elim missing new
  have other : ∀ one ∈ matched,
      Function.update vertex' (.inr right) placed.graph.addVertex.1 (.inr one) = vertex' (.inr one) :=
    fun one inside =>
      Function.update_of_ne (mt Sum.inr.inj fun same : one = right => missing (same ▸ inside)) _ _
  refine ⟨known.shows.addVertex (.inr right) _ room unused (fun one => ?_) fun _ => rfl,
    known.copies.congr _ other,
    known.images.update right _, fun old => ?_,
      fun one inside => (other one inside).trans (known.matched one inside), ?_⟩
  · cases one <;> simp [Context.part, or_assoc]
  · exact (Function.update_of_ne Sum.inl_ne_inr _ _).trans (known.old old)
  · have before := known.count
    have next := Hypergraph.nextId_addVertex room
    rw [List.length_append, List.length_singleton]
    change placed.graph.addVertex.2.nextId ≤ _
    omega

private theorem placePreserved_ok (valid : rule.Valid)
    (shows : split.graph.Shows (context.part rule.right id (· ∈ matched) kept) vertex names)
    (tracks : Tracks split.copies matched (vertex <| .inr ·))
    (room : split.graph.nextId + rule.vertexMap.values.length < wordRange) :
    ∃ vertex',
      Preserving context split vertex names matched kept rule.vertexMap.values
        (placePreserved rule split) vertex' := by
  refine Listing.foldl_prefix (fun done placed =>
    ∃ vertex', Preserving context split vertex names matched kept done placed vertex')
    rule.vertexMap.values ⟨vertex, shows.congr _ (Context.part_vertices fun _ => ?_) fun _ => rfl,
      tracks, Tracks.empty, fun _ => rfl, fun _ _ => rfl, Nat.le_refl _⟩ ?_
  · simp
  · intro done right rest placed listed known
    obtain ⟨vertex', known⟩ := known
    cases copied : split.copies.get? right with
    | some copy => exact ⟨vertex', known.stay copied⟩
    | none =>
      have new := Listing.not_mem_of_split (Table.nodup_values_iff.mpr valid.vertex_injective) listed
      have before := known.count
      rw [listed, List.length_append, List.length_cons] at room
      exact ⟨_, known.fresh copied new (by rw [Hypergraph.HasRoom]; omega)⟩

/-- The state once some preserved edges are there. -/
private structure Restoring (context : Context rule VertexId EdgeId) (found : PartialMatch)
    (vertices : VertexId → Prop) (vertex : VertexId ⊕ VertexId → VertexId)
    (names : EdgeId ⊕ EdgeId → EdgeId) (placed : Placed) (done : List EdgeId) (after : Placed)
    (names' : EdgeId ⊕ EdgeId → EdgeId) : Prop where
  images : after.images = placed.images
  shows : after.graph.Shows
    (context.part rule.right id vertices fun right => found.edges.contains right = true ∨
      right ∈ done) vertex names'
  old : ∀ right, found.edges.contains right = true → names' (.inr right) = names (.inr right)
  outside : ∀ edge, names' (.inl edge) = names (.inl edge)
  count : after.graph.nextId ≤ placed.graph.nextId + done.length

private theorem Restoring.stay {placed now : Placed} {vertices : VertexId → Prop}
    {done : List EdgeId} {names' : EdgeId ⊕ EdgeId → EdgeId} {right : EdgeId}
    (known : Restoring context found vertices vertex names placed done now names')
    (contained : found.edges.contains right = true) :
    Restoring context found vertices vertex names placed (done ++ [right]) now names' := by
  have before := known.count
  refine ⟨known.images, known.shows.congr _ (fun _ => Iff.rfl)
    (Context.part_edges fun other _ => ?_), known.old, known.outside, ?_⟩
  · exact Listing.or_mem_concat_iff (found.edges.contains · = true) done contained other
  · rw [List.length_append]
    omega

private theorem Restoring.add {placed now : Placed} {vertices : VertexId → Prop}
    {done : List EdgeId} {names' : EdgeId ⊕ EdgeId → EdgeId} {right : EdgeId} {edge : Edge}
    (known : Restoring context found vertices vertex names placed done now names')
    (contained : found.edges.contains right = false) (new : right ∉ done)
    (there : rule.right.skeleton.edge? right = some (edge.label, edge.vertices))
    (present : ∀ one ∈ edge.vertices, vertices one)
    (images : ∀ one ∈ edge.vertices, placed.images.get? one = some (vertex (.inr one)))
    (room : now.graph.HasRoom) :
    ∃ after, now.addEdge edge = .ok after ∧
      ∃ names', Restoring context found vertices vertex names placed (done ++ [right])
        after names' := by
  have unused :
      ¬(context.part rule.right id vertices fun right => found.edges.contains right = true ∨
        right ∈ done).HasEdge (.inr right) := by
    rw [Context.part_hasEdge_side, contained]
    exact fun known => new (known.1.resolve_left Bool.false_ne_true)
  obtain ⟨added, after, done', images', next, shows⟩ := Placed.addEdge_shows known.shows (.inr right)
    (context.part rule.right id vertices fun other => found.edges.contains other = true ∨
      other ∈ done ++ [right]) room unused
    present (known.images ▸ images) (fun _ => Iff.rfl)
    (Context.part_insert there fun other => by rw [List.mem_append, List.mem_singleton, or_assoc])
  refine ⟨after, done', _, images'.trans known.images, shows, fun other inside => ?_,
    fun edge => (Function.update_of_ne Sum.inl_ne_inr _ _).trans (known.outside edge), ?_⟩
  · refine (Function.update_of_ne (fun equal => ?_) _ _).trans (known.old other inside)
    rw [← Sum.inr.inj equal, inside] at contained
    cases contained
  · have before := known.count
    rw [List.length_append, List.length_singleton]
    omega

private theorem placePreservedEdges_ok (valid : rule.Valid) {placed : Placed}
    {vertices : VertexId → Prop}
    (shows : placed.graph.Shows
      (context.part rule.right id vertices (found.edges.contains · = true)) vertex names)
    (present : ∀ right ∈ rule.vertexMap.values, vertices right)
    (images : Tracks placed.images rule.vertexMap.values (vertex <| .inr ·))
    (room : placed.graph.nextId + rule.edgeMap.values.length < wordRange) :
    ∃ after, placePreservedEdges rule found placed = .ok after ∧
      ∃ names', Restoring context found vertices vertex names placed rule.edgeMap.values
        after names' := by
  refine Listing.foldlM_prefix (fun done after =>
    ∃ names', Restoring context found vertices vertex names placed done after names')
    rule.edgeMap.values ?_ ?_
  · exact ⟨names, rfl, shows.congr _ (fun _ => Iff.rfl) (Context.part_edges fun edge _ => by simp),
      fun _ _ => rfl, fun _ => rfl, Nat.le_refl _⟩
  · intro done right rest now listed known
    obtain ⟨names', known⟩ := known
    cases contained : found.edges.contains right with
    | true => exact ⟨now, if_pos rfl, names', known.stay contained⟩
    | false =>
      obtain ⟨left, mapped⟩ :=
        Table.mem_values_iff.mp (show right ∈ rule.edgeMap.values by rw [listed]; simp)
      obtain ⟨label, _, others, _, there, along⟩ := Context.preservedEdge_sides valid mapped
      obtain ⟨edge, stored, rfl, rfl⟩ := Hypergraph.skeleton_edge_iff.mp there
      have inside : ∀ one ∈ edge.vertices, one ∈ rule.vertexMap.values := by
        intro one member
        obtain ⟨source, _, mapped⟩ := Listing.along_right along member
        exact Table.mem_values_iff.mpr ⟨source, mapped⟩
      have new := Listing.not_mem_of_split (Table.nodup_values_iff.mpr valid.edge_injective) listed
      have before := known.count
      rw [listed, List.length_append, List.length_cons] at room
      rw [if_neg Bool.false_ne_true]
      simp only [stored]
      exact known.add contained new there (fun one member => present one (inside one member))
        (fun one member => (images one _).mpr ⟨inside one member, rfl⟩)
          (by rw [Hypergraph.HasRoom]; omega)

private theorem removeCreatedEdge_step {now : Hypergraph} {vertices : VertexId → Prop}
    {done : List EdgeId} {right : EdgeId}
    (shows : now.Shows (context.part rule.right id vertices fun other =>
      (found.edges.contains other = true ∨ other ∈ rule.edgeMap.values) ∧ other ∉ done) vertex names)
    (old : ∀ right, found.edges.contains right = true →
      names (.inr right) = split.edgeName found (.inr right))
    (created : right ∈ rule.createdEdges) (new : right ∉ done) {after : Hypergraph}
    (deleted : ∀ image, split.edgeImage? found right = some image → after = now.deleteEdge image)
    (kept : split.edgeImage? found right = none → after = now) :
    after.Shows (context.part rule.right id vertices fun other =>
        (found.edges.contains other = true ∨ other ∈ rule.edgeMap.values) ∧
        other ∉ done ++ [right]) vertex names ∧
      after.nextId = now.nextId := by
  obtain ⟨⟨edge, stored⟩, unmapped⟩ := Rule.mem_createdEdges.mp created
  cases contained : found.edges.contains right with
  | true =>
    obtain rfl := deleted _ (Split.edgeImage?_eq contained)
    rw [← old right contained]
    have inside : (context.part rule.right id vertices fun other =>
        (found.edges.contains other = true ∨ other ∈ rule.edgeMap.values) ∧
        other ∉ done).HasEdge (.inr right) :=
      Context.part_hasEdge_side.mpr ⟨⟨.inl contained, new⟩,
        Hypergraph.skeleton_hasEdge.mpr ⟨edge, stored⟩⟩
    refine ⟨shows.deleteEdge (.inr right) _ inside (fun _ => Iff.rfl)
      (Context.part_remove fun other => ?_), Hypergraph.nextId_deleteEdge⟩
    rw [List.mem_append, List.mem_singleton, not_or, and_assoc]
  | false =>
    obtain rfl := kept (Split.edgeImage?_none contained)
    have outside : ¬(found.edges.contains right = true ∨ right ∈ rule.edgeMap.values) := by
      rw [contained]
      intro known
      obtain ⟨left, mapped⟩ := Table.mem_values_iff.mp (known.resolve_left nofun)
      exact unmapped left mapped
    have kept :=
      Listing.and_not_mem_concat_iff
        (fun right => found.edges.contains right = true ∨ right ∈ rule.edgeMap.values) done outside
    exact ⟨shows.congr _ (fun _ => Iff.rfl) (Context.part_edges fun other _ => kept other), rfl⟩

private theorem removeCreatedEdges_ok {graph : Hypergraph} {vertices : VertexId → Prop}
    (shows : graph.Shows
      (context.part rule.right id vertices fun right => found.edges.contains right = true ∨
        right ∈ rule.edgeMap.values) vertex names)
    (old : ∀ right, found.edges.contains right = true →
      names (.inr right) = split.edgeName found (.inr right)) :
    ((rule.createdEdges.filterMap (split.edgeImage? found)).foldl Hypergraph.deleteEdge graph).Shows
        (context.part rule.right id vertices (· ∈ rule.edgeMap.values)) vertex names ∧
      ((rule.createdEdges.filterMap (split.edgeImage? found)).foldl Hypergraph.deleteEdge
        graph).nextId = graph.nextId := by
  have folded : (fun now : Hypergraph => now.Shows (context.part rule.right id vertices fun right =>
      (found.edges.contains right = true ∨ right ∈ rule.edgeMap.values) ∧ right ∉ rule.createdEdges)
        vertex names ∧ now.nextId = graph.nextId)
      ((rule.createdEdges.filterMap (split.edgeImage? found)).foldl Hypergraph.deleteEdge graph) := by
    rw [List.foldl_filterMap]
    refine Listing.foldl_prefix (fun done (now : Hypergraph) =>
        now.Shows (context.part rule.right id vertices fun right =>
      (found.edges.contains right = true ∨ right ∈ rule.edgeMap.values) ∧ right ∉ done) vertex
        names ∧ now.nextId = graph.nextId)
      rule.createdEdges
        ⟨shows.congr _ (fun _ => Iff.rfl) (Context.part_edges fun _ _ => by simp), rfl⟩ ?_
    intro done right rest now listed known
    have created : right ∈ rule.createdEdges := by
      rw [listed]
      exact List.mem_append_right _ List.mem_cons_self
    have new : right ∉ done := Listing.not_mem_of_split (Hypergraph.nodup_edgeIds.filter _) listed
    exact And.imp_right (fun same => same.trans known.2)
      (removeCreatedEdge_step known.1 old created new (fun image same => by rw [same])
        fun none => by rw [none])
  refine ⟨folded.1.congr _ (fun _ => Iff.rfl) (Context.part_edges fun right inside => ?_), folded.2⟩
  constructor
  · intro preserved
    obtain ⟨left, mapped⟩ := Table.mem_values_iff.mp preserved
    exact ⟨.inr preserved, fun created => (Rule.mem_createdEdges.mp created).2 left mapped⟩
  · intro known
    have preserved := (Context.createdEdge_or_preserved inside).resolve_left known.2
    exact Table.mem_values_iff.mpr preserved

private theorem preserved_of_end (valid : rule.Valid) {vertices : VertexId → Prop}
    {one : EdgeId ⊕ EdgeId} {label : String} {ends : List (VertexId ⊕ VertexId)}
    (stored : (context.part rule.right id vertices (· ∈ rule.edgeMap.values)).edge? one =
      some (label, ends))
    {right : VertexId} (member : .inr right ∈ ends) : rule.Preserved right := by
  cases one with
  | inl edge =>
    obtain ⟨places, known, rfl⟩ := Context.part_context.mp stored
    rw [Sum.map_id_id, List.map_id] at member
    exact context.closed known _ member
  | inr edge =>
    obtain ⟨kept, sources, known, rfl⟩ := Context.part_side.mp stored
    obtain ⟨left, mapped⟩ := Table.mem_values_iff.mp kept
    obtain ⟨_, _, others, _, there, along⟩ := Context.preservedEdge_sides valid mapped
    rw [known, Option.some.injEq, Prod.mk.injEq] at there
    obtain ⟨-, rfl⟩ := there
    obtain ⟨source, onEdge, equal⟩ := List.mem_map.mp member
    obtain ⟨origin, _, mapped⟩ := Listing.along_right along onEdge
    exact ⟨origin, Sum.inr.inj equal ▸ mapped⟩

private theorem removeCreatedVertex_step (valid : rule.Valid) {now : Hypergraph}
    {done : List VertexId} {right : VertexId}
    (shows : now.Shows
      (context.part rule.right id
        (fun other => (other ∈ matched ∨ other ∈ rule.vertexMap.values) ∧ other ∉ done)
      (· ∈ rule.edgeMap.values)) vertex names)
        (tracks : Tracks split.copies matched (vertex <| .inr ·))
    (created : right ∈ rule.createdVertices) (new : right ∉ done) {after : Hypergraph}
    (deleted : ∀ copy, split.copies.get? right = some copy → after = now.deleteVertex copy)
    (kept : split.copies.get? right = none → after = now) :
    after.Shows
      (context.part rule.right id (fun other => (other ∈ matched ∨ other ∈ rule.vertexMap.values) ∧
        other ∉ done ++ [right])
        (· ∈ rule.edgeMap.values)) vertex names ∧ after.nextId = now.nextId := by
  have unpreserved : ¬rule.Preserved right := (Rule.mem_createdVertices.mp created).2
  cases copied : split.copies.get? right with
  | some copy =>
    obtain rfl := deleted copy copied
    obtain ⟨inside, rfl⟩ := (tracks right copy).mp copied
    refine ⟨shows.deleteVertex (.inr right) _ ⟨.inl inside, new⟩
      (fun stored member => unpreserved (preserved_of_end valid stored member))
      (fun one => ?_) fun _ => rfl, Hypergraph.nextId_deleteVertex⟩
    cases one <;> simp [Context.part, and_assoc]
  | none =>
    obtain rfl := kept copied
    have outside : ¬(right ∈ matched ∨ right ∈ rule.vertexMap.values) := by
      rintro (inside | preserved)
      · rw [(tracks right _).mpr ⟨inside, rfl⟩] at copied
        cases copied
      · exact unpreserved (Rule.preserved_iff.mpr preserved)
    have kept :=
      Listing.and_not_mem_concat_iff (fun right => right ∈ matched ∨ right ∈ rule.vertexMap.values)
        done outside
    exact ⟨shows.congr _ (Context.part_vertices kept) fun _ => rfl, rfl⟩

private theorem removeCreatedVertices_ok (valid : rule.Valid) {graph : Hypergraph}
    (shows : graph.Shows
      (context.part rule.right id (fun right => right ∈ matched ∨ right ∈ rule.vertexMap.values)
        (· ∈ rule.edgeMap.values))
      vertex names) (tracks : Tracks split.copies matched (vertex <| .inr ·))
        (sides : ∀ right ∈ matched, rule.right.hasVertex right = true) :
    ((rule.createdVertices.filterMap split.copies.get?).foldl Hypergraph.deleteVertex graph).Shows
        (context.part rule.right id (· ∈ rule.vertexMap.values) (· ∈ rule.edgeMap.values))
        vertex names ∧
      ((rule.createdVertices.filterMap split.copies.get?).foldl Hypergraph.deleteVertex
        graph).nextId = graph.nextId := by
  have folded : (fun now : Hypergraph => now.Shows (context.part rule.right id (fun right =>
      (right ∈ matched ∨ right ∈ rule.vertexMap.values) ∧ right ∉ rule.createdVertices)
        (· ∈ rule.edgeMap.values)) vertex names ∧
      now.nextId = graph.nextId)
        ((rule.createdVertices.filterMap split.copies.get?).foldl Hypergraph.deleteVertex graph) := by
    rw [List.foldl_filterMap]
    refine Listing.foldl_prefix (fun done (now : Hypergraph) =>
        now.Shows (context.part rule.right id (fun right =>
      (right ∈ matched ∨ right ∈ rule.vertexMap.values) ∧ right ∉ done) (· ∈ rule.edgeMap.values))
        vertex names ∧ now.nextId = graph.nextId)
      rule.createdVertices ⟨shows.congr _ (Context.part_vertices fun _ => ?_) fun _ => rfl, rfl⟩ ?_
    · simp
    intro done right rest now listed known
    have created : right ∈ rule.createdVertices := by
      rw [listed]
      exact List.mem_append_right _ List.mem_cons_self
    have new : right ∉ done := Listing.not_mem_of_split (Hypergraph.nodup_vertexIds.filter _) listed
    exact And.imp_right (fun same => same.trans known.2)
      (removeCreatedVertex_step valid known.1 tracks created new (fun copy same => by rw [same])
        fun none => by rw [none])
  refine ⟨folded.1.congr _ (Context.part_vertices fun right => ?_) fun _ => rfl, folded.2⟩
  constructor
  · exact fun preserved =>
      ⟨.inr preserved,
        fun created => (Rule.mem_createdVertices.mp created).2 (Rule.preserved_iff.mpr preserved)⟩
  · intro known
    obtain ⟨inside | preserved, uncreated⟩ := known
    · exact Rule.preserved_iff.mp ((Context.created_or_preserved (sides right inside)).resolve_left
        uncreated)
    · exact preserved

private theorem removeCreated_ok (valid : rule.Valid) {graph : Hypergraph}
    (shows : graph.Shows
      (context.part rule.right id (fun right => right ∈ matched ∨ right ∈ rule.vertexMap.values)
      fun right => found.edges.contains right = true ∨ right ∈ rule.edgeMap.values) vertex names)
    (old : ∀ right, found.edges.contains right = true →
      names (.inr right) = split.edgeName found (.inr right))
    (tracks : Tracks split.copies matched (vertex <| .inr ·))
    (sides : ∀ right ∈ matched, rule.right.hasVertex right = true) :
    (removeCreated rule found split graph).Shows
      (context.part rule.right id (· ∈ rule.vertexMap.values) (· ∈ rule.edgeMap.values))
      vertex names ∧
      (removeCreated rule found split graph).nextId = graph.nextId := by
  obtain ⟨showsEdges, sameEdges⟩ := removeCreatedEdges_ok shows old
  obtain ⟨showsKept, sameKept⟩ := removeCreatedVertices_ok valid showsEdges tracks sides
  exact ⟨showsKept, sameKept.trans sameEdges⟩

end Preserved

section Left

variable {context : Context rule VertexId EdgeId} {vertex : VertexId ⊕ VertexId → VertexId}
  {names : EdgeId ⊕ EdgeId → EdgeId}

/-- The preserved part is the same on both sides. -/
def preservedIso (context : Context rule VertexId EdgeId) (valid : rule.Valid) :
    Skeleton.Iso
      (context.part rule.left rule.origin (rule.vertexMap.contains · = true)
        (rule.edgeMap.contains · = true))
      (context.part rule.right id (· ∈ rule.vertexMap.values) (· ∈ rule.edgeMap.values)) where
  vertex := Sum.map id rule.target
  edge := Sum.map id rule.targetEdge
  vertex_inside {one} inside := by
    cases one with
    | inl old => exact inside
    | inr left =>
      obtain ⟨right, mapped⟩ := Table.contains_iff.mp inside
      exact Table.mem_values_iff.mpr ⟨left, (Rule.target_eq mapped).symm ▸ mapped⟩
  vertex_injective {one other} first second same := by
    cases one <;> cases other
    case inl.inl one other => exact congrArg Sum.inl (Sum.inl.inj same)
    case inl.inr one other => cases same
    case inr.inl one other => cases same
    case inr.inr one other =>
      obtain ⟨right, mapped⟩ := Table.contains_iff.mp first
      obtain ⟨right', mapped'⟩ := Table.contains_iff.mp second
      have equal := Sum.inr.inj same
      rw [Rule.target_eq mapped, Rule.target_eq mapped'] at equal
      exact congrArg Sum.inr (valid.vertex_injective mapped (equal ▸ mapped'))
  vertex_surjective {target} inside := by
    cases target with
    | inl old => exact ⟨.inl old, inside, rfl⟩
    | inr right =>
      obtain ⟨left, mapped⟩ := Table.mem_values_iff.mp inside
      exact ⟨.inr left, Table.contains_iff.mpr ⟨right, mapped⟩,
        congrArg Sum.inr (Rule.target_eq mapped)⟩
  edge_kept {one label ends} stored := by
    cases one with
    | inl edge =>
      obtain ⟨places, known, rfl⟩ := Context.part_context.mp stored
      refine Context.part_context.mpr ⟨places, known, ?_⟩
      rw [List.map_map]
      refine List.map_congr_left fun place member => ?_
      have closed := context.closed known place member
      cases place with
      | inl old => rfl
      | inr right => exact congrArg Sum.inr (Rule.target_eq (valid.map_origin closed)).symm
    | inr left =>
      obtain ⟨kept, sources, known, rfl⟩ := Context.part_side.mp stored
      obtain ⟨right, mapped⟩ := Table.contains_iff.mp kept
      obtain ⟨label', sources', others, here, there, along⟩ :=
        Context.preservedEdge_sides valid mapped
      rw [known, Option.some.injEq, Prod.mk.injEq] at here
      obtain ⟨rfl, rfl⟩ := here
      rw [Sum.map_inr, Rule.targetEdge_eq mapped]
      refine Context.part_side.mpr ⟨Table.mem_values_iff.mpr ⟨left, mapped⟩, others, there, ?_⟩
      rw [List.map_map]
      exact (Listing.map_eq_of_along along fun one other mapped =>
        congrArg Sum.inr (Rule.target_eq mapped)).symm
  edge_injective {one other} first second same := by
    cases one <;> cases other
    case inl.inl one other => exact congrArg Sum.inl (Sum.inl.inj same)
    case inl.inr one other => cases same
    case inr.inl one other => cases same
    case inr.inr one other =>
      obtain ⟨right, mapped⟩ := Table.contains_iff.mp (Context.part_hasEdge_side.mp first).1
      obtain ⟨right', mapped'⟩ := Table.contains_iff.mp (Context.part_hasEdge_side.mp second).1
      have equal := Sum.inr.inj same
      rw [Rule.targetEdge_eq mapped, Rule.targetEdge_eq mapped'] at equal
      exact congrArg Sum.inr (valid.edge_injective mapped (equal ▸ mapped'))
  edge_surjective {target} inside := by
    cases target with
    | inl edge =>
      exact ⟨.inl edge,
        Context.part_hasEdge_context.mpr (Context.part_hasEdge_context.mp inside), rfl⟩
    | inr right =>
      obtain ⟨left, mapped⟩ := Table.mem_values_iff.mp (Context.part_hasEdge_side.mp inside).1
      obtain ⟨label, ends, _, here, _⟩ := Context.preservedEdge_sides valid mapped
      exact ⟨.inr left,
        Context.part_hasEdge_side.mpr ⟨Table.contains_iff.mpr ⟨right, mapped⟩, label, ends, here⟩,
        congrArg Sum.inr (Rule.targetEdge_eq mapped)⟩

private theorem preserved_closed (context : Context rule VertexId EdgeId) (valid : rule.Valid) :
    (context.part rule.left rule.origin (rule.vertexMap.contains · = true)
      (rule.edgeMap.contains · = true)).Closed := by
  refine Context.part_closed (fun vertex preserved => ?_)
    fun {edge label sources} kept stored one member => ?_
  · exact Table.contains_iff.mpr ⟨vertex, valid.map_origin preserved⟩
  · obtain ⟨right, mapped⟩ := Table.contains_iff.mp kept
    obtain ⟨_, _, others, here, _, along⟩ := Context.preservedEdge_sides valid mapped
    rw [stored, Option.some.injEq, Prod.mk.injEq] at here
    obtain ⟨-, rfl⟩ := here
    obtain ⟨other, _, mapped⟩ := Listing.along_left along member
    exact Table.contains_iff.mpr ⟨other, mapped⟩

/-- The state once some vertices of the left side have a place. -/
private structure Lifting (context : Context rule VertexId EdgeId) (graph : Hypergraph)
    (vertex : VertexId ⊕ VertexId → VertexId) (names : EdgeId ⊕ EdgeId → EdgeId)
    (done : List VertexId) (left : Placed) (vertex' : VertexId ⊕ VertexId → VertexId) : Prop where
  shows : left.graph.Shows
    (context.part rule.left rule.origin (fun one => rule.vertexMap.contains one = true ∨ one ∈ done)
    (rule.edgeMap.contains · = true)) vertex' names
  images : Tracks left.images done (vertex' <| .inr ·)
  old : ∀ {one right}, rule.vertexMap.get? one = some right → vertex' (.inr one) = vertex (.inr right)
  outside : ∀ old, vertex' (.inl old) = vertex (.inl old)
  count : left.graph.nextId ≤ graph.nextId + done.length

private theorem Lifting.stay {graph : Hypergraph} {done : List VertexId} {left : Placed}
    {vertex' : VertexId ⊕ VertexId → VertexId} {one right : VertexId}
    (known : Lifting context graph vertex names done left vertex')
    (mapped : rule.vertexMap.get? one = some right) :
    Lifting context graph vertex names (done ++ [one])
      { left with images := left.images.insert one (vertex (.inr right)) } vertex' := by
  have before := known.count
  have inside : rule.vertexMap.contains one = true := Table.contains_iff.mpr ⟨right, mapped⟩
  refine ⟨known.shows.congr
    _ (Context.part_vertices
      (Listing.or_mem_concat_iff (rule.vertexMap.contains · = true) done inside)) fun _ => rfl,
    ?_, known.old, known.outside, ?_⟩
  · rw [← known.old mapped]
    exact known.images.insert _ one fun _ _ => rfl
  · rw [List.length_append]
    change left.graph.nextId ≤ _
    omega

private theorem Lifting.fresh {graph : Hypergraph} {done : List VertexId} {left : Placed}
    {vertex' : VertexId ⊕ VertexId → VertexId} {one : VertexId}
    (known : Lifting context graph vertex names done left vertex')
    (mapped : rule.vertexMap.get? one = none) (new : one ∉ done) (room : left.graph.HasRoom) :
    Lifting context graph vertex names (done ++ [one]) (left.addFresh one)
      (Function.update vertex' (.inr one) left.graph.addVertex.1) := by
  have unmapped : ¬rule.vertexMap.contains one = true := by simp [Table.contains, mapped]
  have unused : ¬(rule.vertexMap.contains one = true ∨ one ∈ done) :=
    fun known => known.elim unmapped new
  refine ⟨known.shows.addVertex (.inr one) _ room unused (fun next => ?_) fun _ => rfl,
    known.images.update one _,
    fun {next right} mapped' => ?_, fun old =>
      (Function.update_of_ne Sum.inl_ne_inr _ _).trans (known.outside old), ?_⟩
  · cases next <;> simp [Context.part, or_assoc]
  · refine (Function.update_of_ne (mt Sum.inr.inj fun same => ?_) _ _).trans (known.old mapped')
    rw [same, mapped] at mapped'
    cases mapped'
  · have before := known.count
    have next := Hypergraph.nextId_addVertex room
    rw [List.length_append, List.length_singleton]
    change left.graph.addVertex.2.nextId ≤ _
    omega

private theorem placeLeft_ok (valid : rule.Valid) {graph : Hypergraph} {placed : Placed}
    (shows : graph.Shows
      (context.part rule.right id (· ∈ rule.vertexMap.values) (· ∈ rule.edgeMap.values)) vertex names)
    (images : Tracks placed.images rule.vertexMap.values (vertex <| .inr ·))
    (room : graph.nextId + rule.left.vertexCount < wordRange) :
    ∃ left, placeLeft rule placed graph = .ok left ∧
      ∃ vertex',
        Lifting context graph vertex (names <| Sum.map id rule.targetEdge ·) rule.left.vertexIds
          left vertex' := by
  refine Listing.foldlM_prefix (fun done left =>
    ∃ vertex', Lifting context graph vertex (names <| Sum.map id rule.targetEdge ·) done left vertex')
    rule.left.vertexIds ?_ ?_
  · have renamed :=
      shows.rename (preservedIso context valid) (preserved_closed context valid)
        (fun _ => rfl) (fun _ => rfl)
    refine ⟨_, renamed.congr _ (Context.part_vertices fun _ => ?_) fun _ => rfl, Tracks.empty,
      fun {one right} mapped => ?_, fun _ => rfl, Nat.le_refl _⟩
    · simp
    · exact congrArg (fun right => vertex (.inr right)) (Rule.target_eq mapped)
  · intro done one rest left listed known
    obtain ⟨vertex', known⟩ := known
    cases mapped : rule.vertexMap.get? one with
    | some right =>
      have imaged :=
        Placed.image_eq ((images right _).mpr ⟨Table.mem_values_iff.mpr ⟨one, mapped⟩, rfl⟩)
      simp only [imaged]
      exact ⟨_, rfl, vertex', known.stay mapped⟩
    | none =>
      have new := Listing.not_mem_of_split Hypergraph.nodup_vertexIds listed
      have before := known.count
      have length : rule.left.vertexIds.length = rule.left.vertexCount := Hypergraph.length_vertexIds
      rw [listed, List.length_append, List.length_cons] at length
      exact ⟨_, rfl, _, known.fresh mapped new (by rw [Hypergraph.HasRoom]; omega)⟩

/-- The state once some deleted edges are back. -/
private structure Returning (context : Context rule VertexId EdgeId) (left : Placed)
    (vertex : VertexId ⊕ VertexId → VertexId) (start : EdgeId ⊕ EdgeId → EdgeId) (done : List Edge)
    (after : Placed) (names : EdgeId ⊕ EdgeId → EdgeId) : Prop where
  images : after.images = left.images
  shows : after.graph.Shows (context.part rule.left rule.origin (rule.left.hasVertex · = true)
    fun edge => rule.edgeMap.contains edge = true ∨ edge ∈ done.map Edge.id) vertex names
  old : ∀ edge, rule.edgeMap.contains edge = true → names (.inr edge) = start (.inr edge)
  outside : ∀ edge, names (.inl edge) = start (.inl edge)
  count : after.graph.nextId ≤ left.graph.nextId + done.length

private theorem Returning.add {left now : Placed} {start : EdgeId ⊕ EdgeId → EdgeId}
    {done : List Edge} {edge : Edge} (known : Returning context left vertex start done now names)
    (unmapped : rule.edgeMap.contains edge.id = false) (new : edge.id ∉ done.map Edge.id)
    (stored : rule.left.skeleton.edge? edge.id = some (edge.label, edge.vertices))
    (ends : ∀ one ∈ edge.vertices, rule.left.hasVertex one = true)
    (images : ∀ one ∈ edge.vertices, left.images.get? one = some (vertex (.inr one)))
    (room : now.graph.HasRoom) :
    ∃ after, now.addEdge edge = .ok after ∧
      ∃ names', Returning context left vertex start (done ++ [edge]) after names' := by
  have unused : ¬(context.part rule.left rule.origin (rule.left.hasVertex · = true)
      fun other => rule.edgeMap.contains other = true ∨ other ∈ done.map Edge.id).HasEdge
        (.inr edge.id) := by
    rw [Context.part_hasEdge_side, unmapped]
    exact fun known => new (known.1.resolve_left Bool.false_ne_true)
  obtain ⟨added, after, done', images', next, shows⟩ :=
    Placed.addEdge_shows known.shows (.inr edge.id)
      (context.part rule.left rule.origin (rule.left.hasVertex · = true)
        fun other => rule.edgeMap.contains other = true ∨ other ∈ (done ++ [edge]).map Edge.id)
          room unused ends
      (known.images ▸ images) (fun _ => Iff.rfl)
      (Context.part_insert stored fun other =>
        by rw [List.map_append, List.mem_append, List.map_singleton, List.mem_singleton, or_assoc])
  refine ⟨after, done', _, images'.trans known.images, shows, fun other mapped => ?_,
    fun edge => (Function.update_of_ne Sum.inl_ne_inr _ _).trans (known.outside edge), ?_⟩
  · refine (Function.update_of_ne (fun same => ?_) _ _).trans (known.old other mapped)
    rw [← Sum.inr.inj same, mapped] at unmapped
    cases unmapped
  · have before := known.count
    rw [List.length_append, List.length_singleton]
    omega

private theorem nodup_deletedIds (formedLeft : rule.left.WellFormed) :
    ((rule.left.edgeList.filter fun edge => !rule.edgeMap.contains edge.id).map Edge.id).Nodup := by
  have all : (rule.left.edgeList.map Edge.id).Nodup :=
    formedLeft.edgeList_ids ▸ Hypergraph.nodup_edgeIds
  exact all.sublist (List.filter_sublist.map _)

private theorem addDeleted_ok (formedLeft : rule.left.WellFormed) {left : Placed}
    (shows : left.graph.Shows
      (context.part rule.left rule.origin (rule.left.hasVertex · = true)
        (rule.edgeMap.contains · = true)) vertex names)
    (images : Tracks left.images rule.left.vertexIds (vertex <| .inr ·))
    (room : left.graph.nextId + rule.left.edgeCount < wordRange) :
    ∃ after, (rule.left.edgeList.filter fun edge => !rule.edgeMap.contains edge.id).foldlM
      Placed.addEdge left = .ok after ∧
      ∃ names', Returning context left vertex names
        (rule.left.edgeList.filter fun edge => !rule.edgeMap.contains edge.id) after names' := by
  refine Listing.foldlM_prefix (fun done after =>
    ∃ names', Returning context left vertex names done after names') _ ?_ ?_
  · exact ⟨names, rfl, shows.congr _ (fun _ => Iff.rfl) (Context.part_edges fun edge _ => by simp),
      fun _ _ => rfl, fun _ => rfl, Nat.le_refl _⟩
  · intro done edge rest now listed known
    obtain ⟨names', known⟩ := known
    have member : edge ∈ rule.left.edgeList.filter fun edge => !rule.edgeMap.contains edge.id := by
      rw [listed]
      exact List.mem_append_right _ List.mem_cons_self
    obtain ⟨inside, deleted⟩ := List.mem_filter.mp member
    have stored : rule.left.skeleton.edge? edge.id = some (edge.label, edge.vertices) :=
      Hypergraph.skeleton_edge (formedLeft.mem_edgeList.mp inside)
    have ends := formedLeft.closed _ _ _ stored
    have new : edge.id ∉ done.map Edge.id := by
      have distinct := nodup_deletedIds formedLeft
      rw [listed, List.map_append, List.map_cons] at distinct
      exact Listing.not_mem_of_split distinct rfl
    have before := known.count
    have length : (rule.left.edgeList.filter fun edge => !rule.edgeMap.contains edge.id).length ≤
        rule.left.edgeCount :=
      Nat.le_trans (List.length_filter_le _ _) (Nat.le_of_eq Hypergraph.WellFormed.length_edgeList)
    rw [listed, List.length_append, List.length_cons] at length
    exact known.add (by simpa using deleted) new stored ends
      (fun one member => (images one _).mpr ⟨Hypergraph.mem_vertexIds.mpr (ends one member), rfl⟩)
        (by rw [Hypergraph.HasRoom]; omega)

private theorem Lifting.all (valid : rule.Valid) {graph : Hypergraph} {left : Placed}
    {vertex' : VertexId ⊕ VertexId → VertexId}
    (lifting : Lifting context graph vertex names rule.left.vertexIds left vertex') : left.graph.Shows
      (context.part rule.left rule.origin (rule.left.hasVertex · = true)
        (rule.edgeMap.contains · = true)) vertex' names := by
  refine lifting.shows.congr _ (Context.part_vertices fun one => ?_) fun _ => rfl
  rw [Hypergraph.mem_vertexIds]
  refine ⟨.inr, fun known => known.elim (fun mapped => ?_) id⟩
  obtain ⟨right, mapped⟩ := Table.contains_iff.mp mapped
  exact (valid.vertex_sides mapped).1

private theorem Returning.all (formedLeft : rule.left.WellFormed) {left after : Placed}
    {start : EdgeId ⊕ EdgeId → EdgeId}
    (returning : Returning context left vertex start
      (rule.left.edgeList.filter fun edge => !rule.edgeMap.contains edge.id) after names) :
    after.graph.Shows context.before vertex names := by
  refine returning.shows.congr _ (fun _ => Iff.rfl) (Context.part_all fun edge inside => ?_)
  cases contained : rule.edgeMap.contains edge with
  | true => exact .inl rfl
  | false =>
    obtain ⟨found, there⟩ := Hypergraph.skeleton_hasEdge.mp inside
    have same := formedLeft.edge_id there
    refine .inr (List.mem_map.mpr ⟨found,
      List.mem_filter.mpr ⟨formedLeft.mem_edgeList.mpr (same ▸ there), ?_⟩, same⟩)
    rw [same, contained]
    rfl

end Left

/-- How many vertices and edges a rule has. -/
def Rule.size (rule : Rule) : Nat :=
  rule.left.vertexCount + rule.left.edgeCount + rule.right.vertexCount + rule.right.edgeCount

/-- There are numbers left for everything that a backward step with the rule may add. -/
def Hypergraph.HasRoomFor (graph : Hypergraph) (rule : Rule) : Prop :=
  graph.nextId + graph.edgeCount + 2 * rule.size < wordRange

instance (graph : Hypergraph) (rule : Rule) : Decidable (graph.HasRoomFor rule) :=
  inferInstanceAs (Decidable (graph.nextId + graph.edgeCount + 2 * rule.size < wordRange))

private theorem length_values_le (valid : rule.Valid) :
    rule.vertexMap.values.length ≤ rule.right.vertexCount ∧
    rule.edgeMap.values.length ≤ rule.right.edgeCount := by
  constructor
  · refine Nat.le_trans (Listing.length_le_of_subset
      (Table.nodup_values_iff.mpr valid.vertex_injective) fun right member => ?_)
        (Nat.le_of_eq Hypergraph.length_vertexIds)
    obtain ⟨left, mapped⟩ := Table.mem_values_iff.mp member
    exact Hypergraph.mem_vertexIds.mpr (valid.vertex_sides mapped).2
  · refine Nat.le_trans (Listing.length_le_of_subset
      (Table.nodup_values_iff.mpr valid.edge_injective) fun right member => ?_)
        (Nat.le_of_eq Hypergraph.length_edgeIds)
    obtain ⟨left, mapped⟩ := Table.mem_values_iff.mp member
    obtain ⟨_, _, _, _, there, _⟩ := Context.preservedEdge_sides valid mapped
    exact Hypergraph.mem_edgeIds_iff.mpr ⟨_, _, there⟩

/-- What a complement leaves where it is: the unmatched vertices of the graph, the images that keep
a preserved vertex, and the edges that have no end to be split. -/
structure Settled (rule : Rule) (found : PartialMatch) (graph : Hypergraph)
    (place : VertexId ⊕ VertexId → VertexId) (name : EdgeId ⊕ EdgeId → EdgeId) : Prop where
  vertex : ∀ old, place (.inl old) = old
  head : ∀ {left right}, rule.vertexMap.get? left = some right → found.IsHead right →
    place (.inr left) = found.anchor right
  edge : ∀ {edge}, ¬found.Splits graph edge → name (.inl edge) = edge
  matched : ∀ {left right edge}, rule.edgeMap.get? left = some right →
    found.edges.get? right = some edge → ¬found.Splits graph edge →
    name (.inr left) = edge

/-- The complement exists, and it shows the context of the overlap filled with the left side. -/
theorem complement_shows (valid : rule.Valid) (formedLeft : rule.left.WellFormed)
    (overlap : found.Overlap rule graph) (formed : graph.WellFormed) (numbered : graph.Numbered)
    (room : graph.HasRoomFor rule) : ∃ result place name, complement rule graph found = .ok result ∧
      result.Shows (overlap.context formed).before place name ∧
      Settled rule found graph place name := by
  obtain ⟨fewVertices, fewEdges⟩ := length_values_le valid
  rw [Hypergraph.HasRoomFor, Rule.size] at room
  obtain ⟨split, start, made, shows, tracks, steady, count⟩ :=
    Split.shows_matched overlap formed numbered (by omega)
  obtain ⟨vertex, preserving⟩ := placePreserved_ok valid shows tracks (by omega)
  have countPreserved := preserving.count
  obtain ⟨placed, restored, names, restoring⟩ :=
    placePreservedEdges_ok valid preserving.shows (fun _ => .inr) preserving.images (by omega)
  have countRestored := restoring.count
  obtain ⟨shown, removed⟩ :=
    removeCreated_ok valid restoring.shows restoring.old preserving.copies fun right member => by
      obtain ⟨vertex, mapped⟩ := PartialMatch.mem_order.mp member
      exact (overlap.vertex_sides mapped).1
  obtain ⟨left, lifted, vertex', lifting⟩ :=
    placeLeft_ok valid shown (restoring.images ▸ preserving.images) (by omega)
  have countLifted := lifting.count
  have length : rule.left.vertexIds.length = rule.left.vertexCount := Hypergraph.length_vertexIds
  obtain ⟨after, returned, names', returning⟩ :=
    addDeleted_ok formedLeft (lifting.all valid) lifting.images (by omega)
  refine ⟨after.graph, vertex', names', ?_, returning.all formedLeft, fun old => ?_,
    fun {source right} mapped head => ?_, fun {edge} whole => ?_,
    fun {source right edge} mapped matched whole => ?_⟩
  · rw [complement, made]
    change (placePreservedEdges rule found (placePreserved rule split) >>= _) = _
    rw [restored]
    change (placeLeft rule placed (removeCreated rule found split placed.graph) >>= _) = _
    rw [lifted]
    change ((rule.left.edgeList.filter fun edge => !rule.edgeMap.contains edge.id).foldlM
      Placed.addEdge left >>= _) = _
    rw [returned]
    rfl
  · rw [lifting.outside, preserving.old, steady.kept]
  · have inside : right ∈ found.order := by
      obtain ⟨old, rest, block⟩ := head
      exact PartialMatch.mem_order.mpr ⟨old, PartialMatch.head_mapped block⟩
    rw [lifting.old mapped, preserving.matched right inside, steady.heads head]
  · rw [returning.outside, Sum.map_inl, restoring.outside]
    exact steady.edges whole
  · have image : found.edges.getD right right =
      edge := by rw [Table.getD_eq, matched, Option.getD_some]
    rw [returning.old source (Table.contains_iff.mpr ⟨right, mapped⟩), Sum.map_inr,
      Rule.targetEdge_eq mapped,
      restoring.old right (Table.contains_iff.mpr ⟨edge, matched⟩), Split.edgeName,
      Sum.elim_inr, image]
    exact steady.edges whole

/-- The complement is the context of the overlap filled with the left side. -/
theorem complement_ok (valid : rule.Valid) (formedLeft : rule.left.WellFormed)
    (overlap : found.Overlap rule graph) (formed : graph.WellFormed) (numbered : graph.Numbered)
    (room : graph.HasRoomFor rule) :
    ∃ result, complement rule graph found = .ok result ∧ result.WellFormed ∧
      result.Numbered ∧ Skeleton.Isomorphic (overlap.context formed).before result.skeleton := by
  obtain ⟨result, _, _, made, shows, _⟩ :=
    complement_shows valid formedLeft overlap formed numbered room
  exact ⟨result, made, shows.formed, shows.numbered, shows.isomorphic⟩

end Coverability
