import Coverability.Proofs.Copying

/-! A base with copies of a part glued on, one after the other. What there is in the end is the base
and, for each copy, all of the part that is not glued; no two copies share anything else, and none
shares it with the base. -/

namespace Coverability

section Layers

variable {α : Type} {base part glued current result : α → Prop} {copies : Nat}
  {image : Nat → α → Option α}

/-- The elements of a base with copies of a part, where each copy has its own images for what
is not glued. -/
structure Layered (base part glued : α → Prop) (copies : Nat) (image : Nat → α → Option α)
    (result : α → Prop) : Prop where
  covers : ∀ {place}, result place ↔ base place ∨
    ∃ copy, copy < copies ∧ ∃ source, ¬glued source ∧ image copy source = some place
  defined : ∀ {copy source}, copy < copies → (part source ↔ ∃ place, image copy source = some place)
  fresh : ∀ {copy source place}, copy < copies → ¬glued source →
    image copy source = some place → ¬base place
  apart : ∀ {copy other one two place}, copy < copies → other < copies → ¬glued one → ¬glued two →
    image copy one = some place → image other two = some place → copy = other ∧ one = two

namespace Layered

theorem none : Layered base part glued 0 image base where
  covers := ⟨.inl, fun known => known.resolve_right fun ⟨_, few, _⟩ => absurd few (Nat.not_lt_zero _)⟩
  defined few := absurd few (Nat.not_lt_zero _)
  fresh few := absurd few (Nat.not_lt_zero _)
  apart few := absurd few (Nat.not_lt_zero _)

/-- One more copy on top of what there is. -/
theorem add (layered : Layered base part glued copies image current) {next : α → Option α}
    (once : Layered current part glued 1 (fun _ => next) result) :
    Layered base part glued (copies + 1) (Function.update image copies next) result := by
  have old : ∀ {copy}, copy < copies → Function.update image copies next copy = image copy :=
    fun few => Function.update_of_ne (Nat.ne_of_lt few) _ _
  have new : Function.update image copies next copies = next := Function.update_self ..
  have one_lt : 0 < 1 := Nat.zero_lt_one
  have inside : ∀ {copy source place}, copy < copies → ¬glued source →
      image copy source = some place → current place :=
    fun few loose held => layered.covers.mpr (.inr ⟨_, few, _, loose, held⟩)
  refine ⟨fun {place} => ?_, fun {copy source} few => ?_,
    fun {copy source place} few loose held => ?_,
    fun {copy other one two place} few few' loose loose' held held' => ?_⟩
  · rw [once.covers, layered.covers]
    constructor
    · rintro ((known | ⟨copy, few, source, loose, held⟩) | ⟨_, _, source, loose, held⟩)
      · exact .inl known
      · exact .inr ⟨copy, Nat.lt_succ_of_lt few, source, loose, old few ▸ held⟩
      · exact .inr ⟨copies, Nat.lt_succ_self _, source, loose, new.symm ▸ held⟩
    · rintro (known | ⟨copy, few, source, loose, held⟩)
      · exact .inl (.inl known)
      · rcases Nat.lt_succ_iff_lt_or_eq.mp few with few | rfl
        · exact .inl (.inr ⟨copy, few, source, loose, old few ▸ held⟩)
        · exact .inr ⟨0, one_lt, source, loose, new ▸ held⟩
  · rcases Nat.lt_succ_iff_lt_or_eq.mp few with few | rfl
    · rw [old few]
      exact layered.defined few
    · rw [new]
      exact once.defined one_lt
  · rcases Nat.lt_succ_iff_lt_or_eq.mp few with few | rfl
    · rw [old few] at held
      exact layered.fresh few loose held
    · rw [new] at held
      exact fun known => once.fresh one_lt loose held (layered.covers.mpr (.inl known))
  · rcases Nat.lt_succ_iff_lt_or_eq.mp few with few | rfl
      <;> rcases Nat.lt_succ_iff_lt_or_eq.mp few' with few' | rfl
    · rw [old few] at held
      rw [old few'] at held'
      exact layered.apart few few' loose loose' held held'
    · rw [old few] at held
      rw [new] at held'
      exact absurd (inside few loose held) (once.fresh one_lt loose' held')
    · rw [new] at held
      rw [old few'] at held'
      exact absurd (inside few' loose' held') (once.fresh one_lt loose held)
    · rw [new] at held held'
      exact ⟨rfl, (once.apart one_lt one_lt loose loose' held held').2⟩

/-- The base is counted once, and what is not glued once for each copy. -/
theorem length_eq [DecidableEq α] (layered : Layered base part glued copies image result)
    {bases loose results : List α} (nodupBases : bases.Nodup)
    (memBases : ∀ {one}, one ∈ bases ↔ base one) (nodupLoose : loose.Nodup)
    (memLoose : ∀ {one}, one ∈ loose ↔ part one ∧ ¬glued one) (nodupResults : results.Nodup)
    (memResults : ∀ {one}, one ∈ results ↔ result one) :
    results.length = bases.length + copies * loose.length := by
  let place (copy : Nat) (source : α) : α := (image copy source).getD source
  have placed : ∀ {copy source}, copy < copies → source ∈ loose →
      image copy source = some (place copy source) := by
    intro copy source few member
    obtain ⟨target, held⟩ := (layered.defined few).mp (memLoose.mp member).1
    simp only [place, held, Option.getD_some]
  let added : List α := (List.range copies).flatMap fun copy => loose.map (place copy)
  have memAdded : ∀ {one}, one ∈ added ↔
      ∃ copy, copy < copies ∧ ∃ source ∈ loose, place copy source = one := by
    intro one
    simp only [added, List.mem_flatMap, List.mem_range, List.mem_map]
  have nodupAdded : added.Nodup := by
    refine List.nodup_flatMap.mpr ⟨fun copy listed => ?_, ?_⟩
    · have few := List.mem_range.mp listed
      refine nodupLoose.map_on fun one first other second same => ?_
      exact (layered.apart few few (memLoose.mp first).2 (memLoose.mp second).2 (placed few first)
        (same ▸ placed few second)).2
    · refine List.nodup_range.imp_of_mem
        fun {copy other} listed listed' different one first second => different ?_
      obtain ⟨source, member, rfl⟩ := List.mem_map.mp first
      obtain ⟨source', member', same⟩ := List.mem_map.mp second
      have few := List.mem_range.mp listed
      have few' := List.mem_range.mp listed'
      exact (layered.apart few few' (memLoose.mp member).2 (memLoose.mp member').2
        (placed few member) (same ▸ placed few' member')).1
  have whole : results.Perm (bases ++ added) := by
    refine (List.perm_ext_iff_of_nodup nodupResults
      (List.nodup_append'.mpr ⟨nodupBases, nodupAdded, fun one known copied => ?_⟩)).mpr fun one => ?_
    · obtain ⟨copy, few, source, member, rfl⟩ := memAdded.mp copied
      exact layered.fresh few (memLoose.mp member).2 (placed few member) (memBases.mp known)
    · rw [memResults, layered.covers, List.mem_append, memBases, memAdded]
      refine or_congr_right (exists_congr fun copy =>
        and_congr_right fun few => exists_congr fun source => ?_)
      constructor
      · rintro ⟨free, held⟩
        have member : source ∈ loose := memLoose.mpr ⟨(layered.defined few).mpr ⟨one, held⟩, free⟩
        exact ⟨member, Option.some.inj ((placed few member).symm.trans held)⟩
      · rintro ⟨member, rfl⟩
        exact ⟨(memLoose.mp member).2, placed few member⟩
  rw [whole.length_eq, List.length_append, List.length_flatMap]
  simp only [List.length_map, List.map_const', List.sum_replicate_nat, List.length_range]

/-- If the base and each copy keep some of their elements, what is not kept is what the base does
not keep and what a copy does not. All that is glued has to be kept. -/
theorem unkept (layered : Layered base part glued copies image result)
    {keeps keepsPart keepsResult : α → Prop}
    (kept : ∀ {place}, keepsResult place ↔
      keeps place ∨ ∃ copy, copy < copies ∧
        ∃ source, keepsPart source ∧ image copy source = some place)
    (within : ∀ {place}, keeps place → base place)
    (held : ∀ {copy source place}, copy < copies → glued source → image copy source = some place →
      keepsPart source ∧ keeps place) {place : α} :
    result place ∧ ¬keepsResult place ↔ base place ∧ ¬keeps place ∨
    ∃ copy, copy < copies ∧ ∃ source, (part source ∧ ¬keepsPart source) ∧
      image copy source = some place := by
  rw [kept, layered.covers, not_or]
  constructor
  · rintro ⟨known | ⟨copy, few, source, loose, placed⟩, unkept, none⟩
    · exact .inl ⟨known, unkept⟩
    · refine .inr
        ⟨copy, few, source, ⟨(layered.defined few).mpr ⟨place, placed⟩, fun keeps => ?_⟩, placed⟩
      exact none ⟨copy, few, source, keeps, placed⟩
  · rintro (⟨known, unkept⟩ | ⟨copy, few, source, ⟨_, unkept⟩, placed⟩)
    · refine ⟨.inl known, unkept, ?_⟩
      rintro ⟨copy, few, source, _, placed⟩
      by_cases attached : glued source
      · exact unkept (held few attached placed).2
      · exact layered.fresh few attached placed known
    · have loose : ¬glued source := fun attached => unkept (held few attached placed).1
      refine ⟨.inr ⟨copy, few, source, loose, placed⟩,
        fun keeps => layered.fresh few loose placed (within keeps), ?_⟩
      rintro ⟨other, few', source', keeps, placed'⟩
      by_cases attached : glued source'
      · exact layered.fresh few loose placed (within (held few' attached placed').2)
      · exact unkept ((layered.apart few few' loose attached placed placed').2 ▸ keeps)

end Layered

end Layers

namespace Hypergraph

variable {base part target source current result : Hypergraph} {glue : Table VertexId VertexId}
  {copies : Nat} {image : Nat → Morphism} {morphism : Morphism}

/-- A base with copies of a part, the vertices of each copy glued on as the glue says. -/
structure Layers (base part : Hypergraph) (glue : Table VertexId VertexId) (copies : Nat)
    (image : Nat → Morphism) (result : Hypergraph) :
    Prop where
  formed : result.WellFormed
  vertices : Layered (base.hasVertex · = true) (part.hasVertex · = true) (glue.contains · = true)
    copies (fun copy => (image copy).vertex?)
    (result.hasVertex · = true)
  glued : ∀ {copy vertex existing place}, copy < copies → glue.get? vertex = some existing →
    (image copy).vertex? vertex = some place →
    place = existing ∧ base.hasVertex existing = true
  edges : Layered (base.hasEdge · = true) (part.hasEdge · = true) (fun _ => False) copies
    (fun copy => (image copy).edge?) (result.hasEdge · = true)
  /-- The edges of the base are as they were. -/
  kept : ∀ {id edge}, base.edge? id = some edge → result.edge? id = some edge
  /-- The edges of a copy run between the images of their vertices. -/
  copied : ∀ {copy id edge place}, copy < copies → part.edge? id = some edge →
    (image copy).edge? id = some place →
    result.edge? place = some (edge.along (image copy).vertices place)

/-- A copy is one layer. -/
theorem Copied.vertex_layer (copied : Copied target source glue morphism result) :
    Layered (target.hasVertex · = true) (source.hasVertex · = true)
    (glue.contains · = true) 1 (fun _ => morphism.vertex?) (result.hasVertex · = true) := by
  have loose : ∀ {vertex}, ¬glue.contains vertex = true ↔
    glue.get? vertex = none := by simp [Table.contains]
  refine ⟨fun {place} => ?_, fun _ => copied.vertex_defined, fun {_ vertex place} _ free held => ?_,
    fun _ _ free free' held held' => ?_⟩
  · rw [copied.vertex_iff]
    refine or_congr_right ⟨?_, ?_⟩
    · rintro ⟨vertex, free, held⟩
      exact ⟨0, Nat.zero_lt_one, vertex, loose.mpr free, held⟩
    · rintro ⟨_, _, vertex, free, held⟩
      exact ⟨vertex, loose.mp free, held⟩
  · exact Bool.not_eq_true _ ▸ copied.vertex_fresh (loose.mp free) held
  · exact ⟨by omega, copied.vertex_injective (loose.mp free) (loose.mp free') held held'⟩

theorem Copied.edge_layer (copied : Copied target source glue morphism result) :
    Layered (target.hasEdge · = true) (source.hasEdge · = true)
    (fun _ => False) 1 (fun _ => morphism.edge?) (result.hasEdge · = true) := by
  refine ⟨fun {place} => ?_, fun _ => hasEdge_iff.trans copied.edge_defined,
    fun {_ id place} _ _ held known => ?_, fun _ _ _ _ held held' => ?_⟩
  · simp only [hasEdge_iff]
    constructor
    · rintro ⟨stored, found⟩
      rcases copied.edge_iff.mp found with old | ⟨id, edge, _, held, _⟩
      · exact .inl ⟨stored, old⟩
      · exact .inr ⟨0, Nat.zero_lt_one, id, not_false, held⟩
    · rintro (⟨stored, old⟩ | ⟨_, _, id, _, held⟩)
      · exact ⟨stored, copied.edge_iff.mpr (.inl old)⟩
      · obtain ⟨edge, found⟩ := copied.edge_defined.mpr ⟨place, held⟩
        exact ⟨_, copied.edge_iff.mpr (.inr ⟨id, edge, found, held, rfl⟩)⟩
  · obtain ⟨stored, found⟩ := hasEdge_iff.mp known
    rw [copied.edge_fresh held] at found
    cases found
  · exact ⟨by omega, copied.edge_injective held held'⟩

namespace Layers

theorem none (formed : base.WellFormed) : Layers base part glue 0 image base where
  formed := formed
  vertices := .none
  glued few := absurd few (Nat.not_lt_zero _)
  edges := .none
  kept := id
  copied few := absurd few (Nat.not_lt_zero _)

/-- One more copy. -/
theorem add (layers : Layers base part glue copies image current)
    (copied : Copied current part glue morphism result)
    (present : ∀ {vertex existing}, glue.get? vertex = some existing →
      base.hasVertex existing = true) :
    Layers base part glue (copies + 1) (Function.update image copies morphism) result := by
  have old : ∀ {copy}, copy < copies → Function.update image copies morphism copy = image copy :=
    fun few => Function.update_of_ne (Nat.ne_of_lt few) _ _
  have new : Function.update image copies morphism copies = morphism := Function.update_self ..
  have parts {γ : Type} (component : Morphism → γ) :
      (fun copy => component (Function.update image copies morphism copy)) =
      Function.update (fun copy => component (image copy)) copies (component morphism) :=
    funext fun _ => Function.apply_update (fun _ => component) image copies morphism _
  refine ⟨copied.formed layers.formed, ?_,
    fun {copy vertex existing place} few attached held => ⟨?_, present attached⟩, ?_,
    fun found => copied.edge_iff.mpr (.inl (layers.kept found)),
      fun {copy id edge place} few found held => ?_⟩
  · rw [parts Morphism.vertex?]
    exact layers.vertices.add copied.vertex_layer
  · rcases Nat.lt_succ_iff_lt_or_eq.mp few with few | rfl
    · rw [old few] at held
      exact (layers.glued few attached held).1
    · rw [new] at held
      exact (copied.vertex_glued attached held).1
  · rw [parts Morphism.edge?]
    exact layers.edges.add copied.edge_layer
  · rcases Nat.lt_succ_iff_lt_or_eq.mp few with few | rfl
    · rw [old few] at held ⊢
      exact copied.edge_iff.mpr (.inl (layers.copied few found held))
    · rw [new] at held ⊢
      exact copied.edge_iff.mpr (.inr ⟨id, edge, found, held, rfl⟩)

/-- An edge of a copy runs between vertices of this copy. -/
theorem exists_end (layers : Layers base part glue copies image result)
    (formedPart : part.WellFormed) {copy : Nat} (few : copy < copies) {id place : EdgeId}
    (held : (image copy).edge? id = some place) {stored : Edge}
    (found : result.edge? place = some stored) {target : VertexId}
    (member : target ∈ stored.vertices) : ∃ vertex, (image copy).vertex? vertex = some target := by
  obtain ⟨own, ownFound⟩ := hasEdge_iff.mp ((layers.edges.defined few).mpr ⟨place, held⟩)
  cases found.symm.trans (layers.copied few ownFound held)
  obtain ⟨vertex, onEdge, rfl⟩ := List.mem_map.mp member
  obtain ⟨image, goes⟩ := (layers.vertices.defined few).mp (formedPart.has_ends ownFound onEdge)
  exact ⟨vertex, by rw [Table.getD_eq, ← Morphism.vertex?, goes, Option.getD_some]⟩

/-- The glued vertices of a copy are vertices of the base, so they are not counted. -/
theorem vertexCount_eq (layers : Layers base part glue copies image result)
    (sources : ∀ {vertex existing}, glue.get? vertex = some existing → part.hasVertex vertex = true) :
    result.vertexCount + copies * glue.size = base.vertexCount + copies * part.vertexCount := by
  have attached : (part.vertexIds.filter glue.contains).length = glue.size := by
    rw [← Table.length_keys]
    refine ((List.perm_ext_iff_of_nodup (nodup_vertexIds.filter _) Table.nodup_keys).mpr
      fun vertex => ?_).length_eq
    rw [List.mem_filter, mem_vertexIds, Table.mem_keys_iff_contains, and_iff_right_iff_imp]
    intro known
    obtain ⟨existing, held⟩ := Table.contains_iff.mp known
    exact sources held
  have whole := part.vertexIds.length_eq_length_filter_add glue.contains
  have counted :=
    layers.vertices.length_eq nodup_vertexIds mem_vertexIds
      (nodup_vertexIds.filter fun vertex => !glue.contains vertex)
      (fun {vertex} => by rw [List.mem_filter, mem_vertexIds, Bool.not_eq_true', Bool.not_eq_true])
        nodup_vertexIds mem_vertexIds
  simp only [length_vertexIds] at counted whole
  rw [counted, whole, attached, Nat.mul_add]
  omega

theorem edgeCount_eq (layers : Layers base part glue copies image result) :
    result.edgeCount = base.edgeCount + copies * part.edgeCount := by
  have listed : ∀ {graph : Hypergraph} {id}, id ∈ graph.edgeIds ↔ graph.hasEdge id = true :=
    mem_edgeIds.trans hasEdge_iff.symm
  have loose : ∀ {id}, id ∈ part.edgeIds ↔ part.hasEdge id = true ∧ ¬False :=
    listed.trans (and_iff_left not_false).symm
  have counted := layers.edges.length_eq nodup_edgeIds listed nodup_edgeIds loose nodup_edgeIds listed
  simpa only [length_edgeIds] using counted

end Layers

end Hypergraph

end Coverability
