import Coverability.Order.Kind
import Coverability.Proofs.MinorSearch
import Coverability.Proofs.Operations

/-! The search for an embedding decides whether there is a model with branches of one vertex each. What
it finds is a one-to-one pairing along all edges, and it misses nothing, since a model tells for every
edge of the plan which candidate to take. The vertices without edges need nothing but enough room. -/

namespace Coverability

open Skeleton

namespace Skeleton

variable {α β γ δ : Type} {smaller : Skeleton α β} {bigger : Skeleton γ δ}

/-- An injective map of all vertices and all edges of a graph that keeps labels and vertex sequences. -/
structure Inclusion (smaller : Skeleton α β) (bigger : Skeleton γ δ) where
  vertex : α → γ
  edge : β → δ
  vertex_inside : ∀ {one}, smaller.vertex one → bigger.vertex (vertex one)
  vertex_injective : ∀ {one other}, smaller.vertex one → smaller.vertex other →
    vertex one = vertex other → one = other
  edge_kept : ∀ {one label ends}, smaller.edge? one = some (label, ends) →
    bigger.edge? (edge one) = some (label, ends.map vertex)
  edge_injective : ∀ {one other}, smaller.HasEdge one → smaller.HasEdge other →
    edge one = edge other → one = other

/-- Every vertex has a branch to itself. -/
def Inclusion.model (inclusion : Inclusion smaller bigger) (closed : smaller.Closed) :
    Model smaller bigger where
  image := inclusion.edge
  branch vertex member := smaller.vertex vertex ∧ inclusion.vertex vertex = member
  branch_inside known := known.2 ▸ ⟨known.1, inclusion.vertex_inside known.1⟩
  branch_apart one other := inclusion.vertex_injective one.1 other.1 (one.2.trans other.2.symm)
  branch_nonempty {vertex} inside := ⟨inclusion.vertex vertex, inside, rfl⟩
  branch_joined first second := first.2 ▸ second.2 ▸ .refl
  image_injective := inclusion.edge_injective
  image_kept {edge label ends} stored := by
    refine ⟨_, inclusion.edge_kept stored, ?_⟩
    rw [List.forall₂_map_right_iff, List.forall₂_same]
    exact fun vertex member => ⟨closed edge label ends stored vertex member, rfl⟩

theorem Inclusion.model_single (inclusion : Inclusion smaller bigger) (closed : smaller.Closed) :
    (inclusion.model closed).Single :=
  fun {_ _ _} first second => first.2.symm.trans second.2

theorem Inclusion.below (inclusion : Inclusion smaller bigger) (closed : smaller.Closed)
    (contract : Bool) : Below contract smaller bigger :=
  ⟨inclusion.model closed, fun _ => inclusion.model_single closed⟩

end Skeleton

/-- A morphism that takes a graph into another, one vertex and one edge at a time and along all edges. -/
structure Morphism.Embeds (morphism : Morphism) (source target : Hypergraph) : Prop where
  vertex_iff : ∀ {vertex}, (∃ image, morphism.vertex? vertex = some image) ↔
    source.hasVertex vertex = true
  vertex_inside : ∀ {vertex image}, morphism.vertex? vertex = some image →
    target.hasVertex image = true
  vertex_injective : ∀ {one other image}, morphism.vertex? one = some image →
    morphism.vertex? other = some image → one = other
  edge_iff : ∀ {edge}, (∃ image, morphism.edge? edge = some image) ↔ source.skeleton.HasEdge edge
  edge_injective : ∀ {one other image}, morphism.edge? one = some image →
    morphism.edge? other = some image → one = other
  edge_kept : ∀ {edge image}, morphism.edge? edge = some image →
    ∃ label ends others, source.skeleton.edge? edge = some (label, ends) ∧
    target.skeleton.edge? image = some (label, others) ∧
    List.Forall₂ (fun one other => morphism.vertex? one = some other) ends others

namespace Morphism.Embeds

variable {morphism : Morphism} {source target : Hypergraph}

private theorem edge_stored (embeds : morphism.Embeds source target) {edge : EdgeId}
    (present : source.skeleton.HasEdge edge) :
    morphism.edge? edge = some (morphism.edges.getD edge edge) := by
  obtain ⟨image, stored⟩ := embeds.edge_iff.mpr present
  rw [Table.getD_eq, ← Morphism.edge?, stored, Option.getD_some]

private theorem vertex_stored (embeds : morphism.Embeds source target) {vertex : VertexId}
    (present : source.hasVertex vertex = true) :
    morphism.vertex? vertex = some (morphism.vertices.getD vertex vertex) := by
  obtain ⟨image, stored⟩ := embeds.vertex_iff.mpr present
  rw [Table.getD_eq, ← Morphism.vertex?, stored, Option.getD_some]

/-- An embedding is a model with branches of one vertex each. -/
def model (embeds : morphism.Embeds source target) : Model source.skeleton target.skeleton where
  image edge := morphism.edges.getD edge edge
  branch vertex member := morphism.vertex? vertex = some member
  branch_inside known := ⟨embeds.vertex_iff.mp ⟨_, known⟩, embeds.vertex_inside known⟩
  branch_apart := embeds.vertex_injective
  branch_nonempty := embeds.vertex_iff.mpr
  branch_joined {vertex first second} atFirst atSecond := by
    cases atFirst.symm.trans atSecond
    exact .refl
  image_injective first second same :=
    embeds.edge_injective (embeds.edge_stored first) (same ▸ embeds.edge_stored second)
  image_kept {edge label ends} stored := by
    obtain ⟨label', ends', others, here, there, along⟩ :=
      embeds.edge_kept (embeds.edge_stored ⟨label, ends, stored⟩)
    cases stored.symm.trans here
    exact ⟨others, there, along⟩

theorem image_eq (embeds : morphism.Embeds source target) {edge image : EdgeId}
    (stored : morphism.edge? edge = some image) :
    embeds.model.image edge = image :=
  Option.some.inj ((embeds.edge_stored (embeds.edge_iff.mp ⟨image, stored⟩)).symm.trans stored)

theorem vertexCount_le (embeds : morphism.Embeds source target) :
    source.vertexCount ≤ target.vertexCount := by
  have stored : ∀ vertex ∈ source.vertexIds,
      morphism.vertex? vertex = some (morphism.vertices.getD vertex vertex) :=
    fun vertex listed => embeds.vertex_stored (Hypergraph.mem_vertexIds.mp listed)
  rw [← Hypergraph.length_vertexIds, ← Hypergraph.length_vertexIds]
  exact Listing.length_le_of_subset_map (fun vertex => morphism.vertices.getD vertex vertex)
    Hypergraph.nodup_vertexIds
    (fun one listed other listed' same =>
      embeds.vertex_injective (stored one listed) (same ▸ stored other listed'))
    fun vertex listed => Hypergraph.mem_vertexIds.mpr (embeds.vertex_inside (stored vertex listed))

theorem edgeCount_le (embeds : morphism.Embeds source target) :
    source.edgeCount ≤ target.edgeCount := by
  rw [← Hypergraph.length_edgeIds, ← Hypergraph.length_edgeIds]
  exact Listing.length_le_of_subset_map embeds.model.image Hypergraph.nodup_edgeIds
    (fun one listed other listed' =>
      embeds.model.image_injective (Hypergraph.mem_edgeIds_iff.mp listed)
        (Hypergraph.mem_edgeIds_iff.mp listed'))
    fun edge listed =>
      Hypergraph.mem_edgeIds_iff.mpr (embeds.model.hasEdge (Hypergraph.mem_edgeIds_iff.mp listed))

/-- The lookups of an embedding, as functions. -/
def inclusion (embeds : morphism.Embeds source target) :
    Inclusion source.skeleton target.skeleton where
  vertex vertex := morphism.vertices.getD vertex vertex
  edge edge := morphism.edges.getD edge edge
  vertex_inside present := embeds.vertex_inside (embeds.vertex_stored present)
  vertex_injective first second same :=
    embeds.vertex_injective (embeds.vertex_stored first) (same ▸ embeds.vertex_stored second)
  edge_kept {edge label ends} stored := by
    obtain ⟨label', ends', others, here, there, along⟩ :=
      embeds.edge_kept (embeds.edge_stored ⟨label, ends, stored⟩)
    cases stored.symm.trans here
    have same : ends.map (fun vertex => morphism.vertices.getD vertex vertex) = others := by
      refine (Listing.map_eq_of_along along fun vertex image known => ?_).trans (List.map_id others)
      rw [Table.getD_eq, ← Morphism.vertex?, known, Option.getD_some, id]
    rw [same, there]
  edge_injective first second same :=
    embeds.edge_injective (embeds.edge_stored first) (same ▸ embeds.edge_stored second)

theorem below (embeds : morphism.Embeds source target) :
    Below false source.skeleton target.skeleton :=
  ⟨embeds.model, fun _ {_ _ _} atFirst atSecond => Option.some.inj (atFirst.symm.trans atSecond)⟩

end Morphism.Embeds

namespace Embedding

variable {admits : VertexId → VertexId → Bool} {source target : Hypergraph}

namespace Pairing

variable {pairing next : Pairing}

/-- The two tables of vertices are inverse to each other. -/
def OneToOne (pairing : Pairing) : Prop :=
  ∀ one other, pairing.forward.get? one = some other ↔ pairing.backward.get? other = some one

/-- What adding pairs of vertices does. -/
structure Extends (pairing : Pairing) (pairs : List (VertexId × VertexId))
    (next : Pairing) : Prop where
  oneToOne : next.OneToOne
  kept : ∀ {one other}, pairing.forward.get? one = some other → next.forward.get? one = some other
  paired : ∀ pair ∈ pairs, next.forward.get? pair.1 = some pair.2
  origin : ∀ {one other}, next.forward.get? one = some other →
    pairing.forward.get? one = some other ∨ (one, other) ∈ pairs
  edges : next.edges = pairing.edges
  taken : next.taken = pairing.taken

private theorem Extends.refl (oneToOne : pairing.OneToOne) : pairing.Extends [] pairing :=
  ⟨oneToOne, id, nofun, .inl, rfl, rfl⟩

private theorem insert_oneToOne (oneToOne : pairing.OneToOne) {first second : VertexId}
    (unpaired : pairing.forward.get? first = none) (unused : pairing.backward.get? second = none) :
    OneToOne { pairing with
      forward := pairing.forward.insert first second
      backward := pairing.backward.insert second first } := by
  intro one other
  simp only [Table.get?_insert]
  by_cases same : one = first <;> by_cases same' : other = second
  · simp [same, same']
  · subst same
    simp only [if_true, if_neg same', Option.some.injEq]
    refine ⟨fun equal => absurd equal.symm same', fun stored => ?_⟩
    rw [(oneToOne one other).mpr stored] at unpaired
    cases unpaired
  · subst same'
    simp only [if_true, if_neg same, Option.some.injEq]
    refine ⟨fun stored => ?_, fun equal => absurd equal.symm same⟩
    rw [(oneToOne one other).mp stored] at unused
    cases unused
  · simp only [if_neg same, if_neg same']
    exact oneToOne one other

private theorem pairVertex_extends (oneToOne : pairing.OneToOne) {first second : VertexId}
    (paired : pairing.pairVertex admits first second = some next) :
    pairing.Extends [(first, second)] next := by
  rw [pairVertex] at paired
  cases known : pairing.forward.get? first with
  | some image =>
    simp only [known] at paired
    split at paired
    next same =>
      cases paired
      refine ⟨oneToOne, id, fun pair member => ?_, .inl, rfl, rfl⟩
      obtain rfl := List.mem_singleton.mp member
      exact same ▸ known
    · cases paired
  | none =>
    simp only [known] at paired
    split at paired
    · cases paired
    next free =>
      cases paired
      have unused : pairing.backward.get? second = none := by
        rw [Bool.or_eq_true, not_or, Table.contains] at free
        simpa using free.1
      refine ⟨insert_oneToOne oneToOne known unused, fun {one other} stored => ?_,
        fun pair member => ?_, fun {one other} stored => ?_, rfl, rfl⟩
      · rw [Table.get?_insert, if_neg, stored]
        intro same
        rw [same, known] at stored
        cases stored
      · obtain rfl := List.mem_singleton.mp member
        rw [Table.get?_insert, if_pos rfl]
      · rw [Table.get?_insert] at stored
        split at stored
        next same => exact .inr (List.mem_singleton.mpr (Prod.ext same (Option.some.inj stored).symm))
        · exact .inl stored

private theorem Extends.trans {between : Pairing} {pairs others : List (VertexId × VertexId)}
    (first : pairing.Extends pairs between) (second : between.Extends others next) :
    pairing.Extends (pairs ++ others) next where
  oneToOne := second.oneToOne
  kept stored := second.kept (first.kept stored)
  paired pair member :=
    (List.mem_append.mp member).elim (fun inside => second.kept (first.paired pair inside))
      (second.paired pair)
  origin stored := by
    rcases second.origin stored with old | new
    · exact (first.origin old).imp_right (List.mem_append_left _)
    · exact .inr (List.mem_append_right _ new)
  edges := second.edges.trans first.edges
  taken := second.taken.trans first.taken

private theorem pairVertices_extends {pairs : List (VertexId × VertexId)}
    (oneToOne : pairing.OneToOne) (paired : pairing.pairVertices admits pairs = some next) :
    pairing.Extends pairs next := by
  induction pairs generalizing pairing with
  | nil =>
    cases paired
    exact .refl oneToOne
  | cons pair rest ih =>
    obtain ⟨between, first, later⟩ := Option.bind_eq_some_iff.mp paired
    have extended := pairVertex_extends oneToOne first
    exact extended.trans (ih extended.oneToOne later)

/-- What a pairing has found, if it has gone through some edges of the source. -/
structure Sound (source target : Hypergraph) (done : List EdgeId) (pairing : Pairing) : Prop where
  oneToOne : pairing.OneToOne
  vertices : ∀ {one other}, pairing.forward.get? one = some other → source.hasVertex one = true ∧
    target.hasVertex other = true
  edges : ∀ {one other}, pairing.edges.get? one = some other →
    ∃ label ends others, source.skeleton.edge? one = some (label, ends) ∧
    target.skeleton.edge? other = some (label, others) ∧
    List.Forall₂ (fun first second => pairing.forward.get? first = some second) ends others
  distinct : ∀ {one two other}, pairing.edges.get? one = some other →
    pairing.edges.get? two = some other → one = two
  taken : ∀ {one other}, pairing.edges.get? one = some other → other ∈ pairing.taken
  done : ∀ one ∈ done, ∃ other, pairing.edges.get? one = some other

theorem sound_start : Sound source target [] {} :=
  ⟨fun _ _ => ⟨nofun, nofun⟩, nofun, nofun, nofun, nofun, nofun⟩

private theorem pairEdge_sound (formedSource : source.WellFormed) (formedTarget : target.WellFormed)
    {done : List EdgeId} {first second : EdgeId} (sound : pairing.Sound source target done)
    (free : second ∉ pairing.taken)
    (paired : pairing.pairEdge admits source target first second = some next) :
    next.Sound source target (first :: done) := by
  rw [pairEdge] at paired
  split at paired
  next one other here there =>
    split at paired
    · cases paired
    next shape =>
      obtain ⟨between, along, rfl⟩ := Option.map_eq_some_iff.mp paired
      have extended := pairVertices_extends sound.oneToOne along
      rw [not_not, Edge.shape, Edge.shape, Prod.mk.injEq] at shape
      have ends : List.Forall₂ (fun first second => between.forward.get? first = some second)
          one.vertices other.vertices :=
        List.forall₂_iff_zip.mpr ⟨shape.2, fun {_ _} member => extended.paired _ member⟩
      refine ⟨extended.oneToOne, fun {vertex image} stored => ?_, fun {edge image} stored => ?_,
        fun {edge edge' image} stored stored' => ?_,
        fun {edge image} stored => ?_, fun edge member => ?_⟩
      · rcases extended.origin stored with old | new
        · exact sound.vertices old
        · exact ⟨formedSource.has_ends here (List.of_mem_zip new).1,
            formedTarget.has_ends there (List.of_mem_zip new).2⟩
      · rw [Table.get?_insert, extended.edges] at stored
        split at stored
        next same =>
          cases stored
          rw [same]
          exact ⟨one.label, _, _, Hypergraph.skeleton_edge here,
            shape.1 ▸ Hypergraph.skeleton_edge there, ends⟩
        · obtain ⟨label, ends, others, left, right, along⟩ := sound.edges stored
          exact ⟨label, ends, others, left, right, along.imp fun _ _ => extended.kept⟩
      · rw [Table.get?_insert, extended.edges] at stored stored'
        split at stored <;> split at stored'
        next same same' => exact same.trans same'.symm
        next same _ =>
          cases stored
          exact absurd (sound.taken stored') free
        next _ same =>
          cases stored'
          exact absurd (sound.taken stored) free
        · exact sound.distinct stored stored'
      · rw [Table.get?_insert, extended.edges] at stored
        rw [extended.taken]
        split at stored
        next same =>
          cases stored
          exact List.mem_cons_self
        · exact List.mem_cons_of_mem _ (sound.taken stored)
      · rw [Table.get?_insert, extended.edges]
        split
        · exact ⟨second, rfl⟩
        next different => exact sound.done edge ((List.mem_cons.mp member).resolve_left different)
  · cases paired

end Pairing

theorem search_sound (formedSource : source.WellFormed) (formedTarget : target.WellFormed)
    {plan : Plan} {done : List EdgeId} {pairing result : Pairing}
    (sound : pairing.Sound source target done)
    (found : search admits source target plan pairing = some result) :
    result.Sound source target ((plan.map Prod.fst).reverse ++ done) := by
  induction plan generalizing pairing done with
  | nil =>
    cases found
    exact sound
  | cons entry rest ih =>
    obtain ⟨edge, candidates⟩ := entry
    rw [search] at found
    obtain ⟨candidate, _, tried⟩ := List.exists_of_findSome?_eq_some found
    split at tried
    · cases tried
    next free =>
      obtain ⟨next, paired, later⟩ := Option.bind_eq_some_iff.mp tried
      have result := ih (Pairing.pairEdge_sound formedSource formedTarget sound free paired) later
      rwa [List.map_cons, List.reverse_cons, List.append_assoc, List.singleton_append]

section Completeness

variable {model : Model source.skeleton target.skeleton} {pairing : Pairing}

/-- A pairing that follows a model, as far as it has come. -/
structure Pairing.Follows (model : Model source.skeleton target.skeleton) (rest : List EdgeId)
    (pairing : Pairing) : Prop where
  oneToOne : pairing.OneToOne
  vertices : ∀ {one other}, pairing.forward.get? one = some other → model.branch one other
  taken : ∀ other ∈ pairing.taken, ∀ one ∈ rest, model.image one ≠ other

private theorem pairVertex_succeeds (single : model.Single)
    (admitted : ∀ one other, model.branch one other → admits one other = true)
    (oneToOne : pairing.OneToOne)
    (vertices : ∀ {one other}, pairing.forward.get? one = some other → model.branch one other)
    {first second : VertexId} (inside : model.branch first second) :
    ∃ next, pairing.pairVertex admits first second = some next := by
  rw [Pairing.pairVertex]
  cases known : pairing.forward.get? first with
  | some image =>
    simp only [single (vertices known) inside, if_true]
    exact ⟨pairing, rfl⟩
  | none =>
    have unused : pairing.backward.contains second = false := by
      rw [Table.contains, Option.isSome_eq_false_iff, Option.isNone_iff_eq_none]
      refine Option.eq_none_iff_forall_ne_some.mpr fun other stored => ?_
      have paired := (oneToOne other second).mpr stored
      rw [model.branch_apart (vertices paired) inside, known] at paired
      cases paired
    simp only [unused, admitted first second inside, Bool.not_true, Bool.or_false,
      Bool.false_eq_true, if_false]
    exact ⟨_, rfl⟩

private theorem pairVertices_succeeds (single : model.Single)
    (admitted : ∀ one other, model.branch one other → admits one other = true)
    {pairs : List (VertexId × VertexId)} (oneToOne : pairing.OneToOne)
    (vertices : ∀ {one other}, pairing.forward.get? one = some other → model.branch one other)
    (inside : ∀ pair ∈ pairs, model.branch pair.1 pair.2) :
    ∃ next, pairing.pairVertices admits pairs = some next := by
  induction pairs generalizing pairing with
  | nil => exact ⟨pairing, rfl⟩
  | cons pair rest ih =>
    rw [List.forall_mem_cons] at inside
    obtain ⟨between, paired⟩ := pairVertex_succeeds single admitted oneToOne vertices inside.1
    have extended := Pairing.pairVertex_extends oneToOne paired
    obtain ⟨next, later⟩ :=
      ih extended.oneToOne
        (fun {one other} stored => (extended.origin stored).elim vertices fun new => by
        rw [List.mem_singleton, Prod.mk.injEq] at new
        rw [new.1, new.2]
        exact inside.1) inside.2
    refine ⟨next, ?_⟩
    rw [Pairing.pairVertices, paired]
    exact later

private theorem pairEdge_follows (single : model.Single)
    (admitted : ∀ one other, model.branch one other → admits one other = true) {edge : EdgeId}
    {rest : List EdgeId} (distinct : (edge :: rest).Nodup)
    (present : ∀ one ∈ edge :: rest, source.skeleton.HasEdge one)
    (follows : pairing.Follows model (edge :: rest)) :
    ∃ next, pairing.pairEdge admits source target edge (model.image edge) = some next ∧
      next.Follows model rest := by
  obtain ⟨label, ends, stored⟩ := present edge List.mem_cons_self
  obtain ⟨members, kept, along⟩ := model.image_kept stored
  obtain ⟨one, here, rfl, rfl⟩ := Hypergraph.skeleton_edge_iff.mp stored
  obtain ⟨other, there, same, rfl⟩ := Hypergraph.skeleton_edge_iff.mp kept
  have inside : ∀ pair ∈ one.vertices.zip other.vertices, model.branch pair.1 pair.2 :=
    fun pair member =>
      (List.forall₂_iff_zip.mp along).2 member
  obtain ⟨between, paired⟩ :=
    pairVertices_succeeds single admitted follows.oneToOne follows.vertices inside
  have extended := Pairing.pairVertices_extends follows.oneToOne paired
  have shape : one.shape = other.shape := Prod.ext same.symm along.length_eq
  refine ⟨{ between with
      edges := between.edges.insert edge (model.image edge)
      taken := model.image edge :: between.taken }, ?_,
    extended.oneToOne, fun {vertex image} stored => ?_, fun image member next later => ?_⟩
  · simp only [Pairing.pairEdge, here, there, shape, ne_eq, not_true, if_false, paired,
      Option.map_some]
  · exact (extended.origin stored).elim follows.vertices fun new => inside _ new
  · rcases List.mem_cons.mp member with rfl | old
    · intro equal
      have twice :=
        model.image_injective (present next (List.mem_cons_of_mem _ later))
          (present edge List.mem_cons_self) equal
      exact (List.nodup_cons.mp distinct).1 (twice ▸ later)
    · rw [extended.taken] at old
      exact follows.taken image old next (List.mem_cons_of_mem _ later)

/-- The search misses nothing: in every choice it may go on with the image of the edge. -/
theorem search_succeeds (single : model.Single)
    (admitted : ∀ one other, model.branch one other → admits one other = true) {plan : Plan}
    (distinct : (plan.map Prod.fst).Nodup)
    (planned : ∀ entry ∈ plan, source.skeleton.HasEdge entry.1 ∧ model.image entry.1 ∈ entry.2)
    (follows : pairing.Follows model (plan.map Prod.fst)) :
    ∃ result, search admits source target plan pairing = some result := by
  induction plan generalizing pairing with
  | nil => exact ⟨pairing, rfl⟩
  | cons entry rest ih =>
    obtain ⟨edge, candidates⟩ := entry
    have present : ∀ one ∈ edge :: rest.map Prod.fst, source.skeleton.HasEdge one := by
      intro one member
      obtain ⟨entry, listed, rfl⟩ :=
        List.mem_map.mp (show one ∈ ((edge, candidates) :: rest).map Prod.fst from member)
      exact (planned entry listed).1
    obtain ⟨next, paired, follows'⟩ := pairEdge_follows single admitted distinct present follows
    rw [List.forall_mem_cons] at planned
    obtain ⟨result, later⟩ := ih (List.nodup_cons.mp distinct).2 planned.2 follows'
    have free : model.image edge ∉ pairing.taken :=
      fun taken => follows.taken _ taken edge List.mem_cons_self rfl
    rw [search, ← Option.isSome_iff_exists, List.findSome?_isSome_iff]
    refine ⟨model.image edge, planned.1.2, ?_⟩
    rw [if_neg free, paired]
    exact Option.isSome_iff_exists.mpr ⟨result, later⟩

end Completeness

section Closing

variable {done : List EdgeId} {pairing : Pairing}

/-- As many vertices are paired on both sides, so there is room for the rest if the target
is big enough. -/
theorem close_succeeds (sound : pairing.Sound source target done)
    (room : source.vertexCount ≤ target.vertexCount) :
    ∃ morphism, pairing.close source target = some morphism := by
  have paired : (target.vertexIds.filter pairing.backward.contains).length ≤
      (source.vertexIds.filter pairing.forward.contains).length := by
    refine Listing.length_le_of_subset_map (fun vertex => pairing.backward.getD vertex vertex)
      (Hypergraph.nodup_vertexIds.filter _)
      (fun one member other member' same => ?_) fun vertex member => ?_
    · obtain ⟨source, mapped⟩ := Table.contains_iff.mp (List.mem_filter.mp member).2
      obtain ⟨source', mapped'⟩ := Table.contains_iff.mp (List.mem_filter.mp member').2
      rw [Table.getD_eq, Table.getD_eq, mapped, mapped', Option.getD_some, Option.getD_some] at same
      subst same
      exact Option.some.inj (((sound.oneToOne _ _).mpr mapped).symm.trans
        ((sound.oneToOne _ _).mpr mapped'))
    · obtain ⟨source, mapped⟩ := Table.contains_iff.mp (List.mem_filter.mp member).2
      have forward := (sound.oneToOne source vertex).mpr mapped
      rw [Table.getD_eq, mapped, Option.getD_some]
      exact List.mem_filter.mpr ⟨Hypergraph.mem_vertexIds.mpr (sound.vertices forward).1,
        Table.contains_iff.mpr ⟨vertex, forward⟩⟩
  have counts := List.length_eq_length_filter_add (l := source.vertexIds) pairing.forward.contains
  have counts' := List.length_eq_length_filter_add (l := target.vertexIds) pairing.backward.contains
  have sizes : source.vertexIds.length ≤ target.vertexIds.length := by
    rwa [Hypergraph.length_vertexIds, Hypergraph.length_vertexIds]
  simp only [Pairing.close]
  rw [if_pos (by omega)]
  exact ⟨_, rfl⟩

/-- A vertex of the source with its partner: the one it is paired with, or the next unused one. -/
private def Partners (source target : Hypergraph) (pairing : Pairing) (one other : VertexId) : Prop :=
  pairing.forward.get? one = some other ∨
    (one, other) ∈ (source.vertexIds.filter fun vertex => !pairing.forward.contains vertex).zip
      (target.vertexIds.filter fun vertex => !pairing.backward.contains vertex)

private theorem zip_functional {κ ι : Type} {items : List κ} {others : List ι}
    (distinct : items.Nodup) {one : κ} {first second : ι} (left : (one, first) ∈ items.zip others)
    (right : (one, second) ∈ items.zip others) : first = second := by
  obtain ⟨index, here, there⟩ := Listing.mem_zip_iff.mp left
  obtain ⟨index', here', there'⟩ := Listing.mem_zip_iff.mp right
  rw [Listing.eq_of_nodup distinct here here', there', Option.some.injEq] at there
  exact there.symm

private theorem Partners.functional {one first second : VertexId}
    (left : Partners source target pairing one first)
    (right : Partners source target pairing one second) : first = second := by
  have apart : ∀ {first second}, pairing.forward.get? one = some first → (one, second) ∈
      (source.vertexIds.filter fun vertex => !pairing.forward.contains vertex).zip
        (target.vertexIds.filter fun vertex => !pairing.backward.contains vertex) →
          first = second := by
    intro first second paired member
    have free := (List.mem_filter.mp (List.of_mem_zip member).1).2
    rw [Table.contains, paired] at free
    cases free
  rcases left with left | left <;> rcases right with right | right
  · exact Option.some.inj (left.symm.trans right)
  · exact apart left right
  · exact (apart right left).symm
  · exact zip_functional (Hypergraph.nodup_vertexIds.filter _) left right

private theorem Partners.injective (oneToOne : pairing.OneToOne) {first second other : VertexId}
    (left : Partners source target pairing first other)
    (right : Partners source target pairing second other) : first = second := by
  have apart : ∀ {first second}, pairing.forward.get? first = some other → (second, other) ∈
      (source.vertexIds.filter fun vertex => !pairing.forward.contains vertex).zip
        (target.vertexIds.filter fun vertex => !pairing.backward.contains vertex) →
          first = second := by
    intro first second paired member
    have free := (List.mem_filter.mp (List.of_mem_zip member).2).2
    rw [Table.contains, (oneToOne first other).mp paired] at free
    cases free
  rcases left with left | left <;> rcases right with right | right
  · exact Option.some.inj (((oneToOne first other).mp left).symm.trans
      ((oneToOne second other).mp right))
  · exact apart left right
  · exact (apart right left).symm
  · obtain ⟨index, here, there⟩ := Listing.mem_zip_iff.mp left
    obtain ⟨index', here', there'⟩ := Listing.mem_zip_iff.mp right
    rw [Listing.eq_of_nodup (Hypergraph.nodup_vertexIds.filter _) there there', here',
      Option.some.injEq] at here
    exact here.symm

private theorem get?_close {morphism : Morphism}
    (closed : pairing.close source target = some morphism) :
    (source.vertexIds.filter fun vertex => !pairing.forward.contains vertex).length ≤
        (target.vertexIds.filter fun vertex => !pairing.backward.contains vertex).length ∧
      morphism.edges = pairing.edges ∧
      ∀ {one other}, morphism.vertex? one = some other ↔
        Partners source target pairing one other := by
  simp only [Pairing.close] at closed
  split at closed
  next room =>
    cases closed
    refine ⟨room, rfl, fun {one other} => ?_⟩
    have keys : ((source.vertexIds.filter fun vertex => !pairing.forward.contains vertex).zip
        (target.vertexIds.filter fun vertex => !pairing.backward.contains vertex)).map Prod.fst =
          source.vertexIds.filter fun vertex => !pairing.forward.contains vertex :=
            List.map_fst_zip room
    have distinct : (((source.vertexIds.filter fun vertex => !pairing.forward.contains vertex).zip
        (target.vertexIds.filter fun vertex => !pairing.backward.contains vertex)).map
          Prod.fst).Nodup := by
      rw [keys]
      exact Hypergraph.nodup_vertexIds.filter _
    rw [Morphism.vertex?, Table.get?_insertAll distinct, keys, Partners, or_comm]
    refine or_congr_left ⟨And.right, fun paired => ⟨fun free => ?_, paired⟩⟩
    have unpaired := (List.mem_filter.mp free).2
    rw [Table.contains, paired] at unpaired
    cases unpaired
  · cases closed

private theorem embeds_of_close (sound : pairing.Sound source target done)
    (all : ∀ edge, source.skeleton.HasEdge edge → edge ∈ done) {morphism : Morphism}
    (closed : pairing.close source target = some morphism) : morphism.Embeds source target := by
  obtain ⟨room, edges, partners⟩ := get?_close closed
  have inside : ∀ {one other}, Partners source target pairing one other →
      source.hasVertex one = true ∧ target.hasVertex other = true := by
    intro one other known
    rcases known with paired | member
    · exact sound.vertices paired
    · obtain ⟨left, right⟩ := List.of_mem_zip member
      exact ⟨Hypergraph.mem_vertexIds.mp (List.mem_of_mem_filter left),
        Hypergraph.mem_vertexIds.mp (List.mem_of_mem_filter right)⟩
  refine ⟨fun {one} => ⟨fun known => ?_, fun present => ?_⟩,
    fun known => (inside (partners.mp known)).2,
    fun first second => (partners.mp first).injective sound.oneToOne (partners.mp second),
      fun {edge} => ⟨fun known => ?_, fun present => ?_⟩,
    fun first second => ?_, fun {edge image} stored => ?_⟩
  · obtain ⟨other, known⟩ := known
    exact (inside (partners.mp known)).1
  · cases paired : pairing.forward.get? one with
    | some other => exact ⟨other, partners.mpr (.inl paired)⟩
    | none =>
      have member : one ∈ source.vertexIds.filter fun vertex => !pairing.forward.contains vertex :=
        List.mem_filter.mpr ⟨Hypergraph.mem_vertexIds.mpr present, by simp [Table.contains, paired]⟩
      obtain ⟨index, within, atIndex⟩ := List.mem_iff_getElem.mp member
      refine ⟨_, partners.mpr
          (.inr (Listing.mem_zip_iff.mpr
            ⟨index, ?_, List.getElem?_eq_getElem (Nat.lt_of_lt_of_le within room)⟩))⟩
      rw [List.getElem?_eq_getElem within, atIndex]
  · obtain ⟨image, stored⟩ := known
    rw [Morphism.edge?, edges] at stored
    obtain ⟨label, ends, _, here, _⟩ := sound.edges stored
    exact ⟨label, ends, here⟩
  · rw [Morphism.edge?, edges]
    exact sound.done edge (all edge present)
  · rw [Morphism.edge?, edges] at first second
    exact sound.distinct first second
  · rw [Morphism.edge?, edges] at stored
    obtain ⟨label, ends, others, here, there, along⟩ := sound.edges stored
    exact ⟨label, ends, others, here, there, along.imp fun _ _ paired => partners.mpr (.inl paired)⟩

end Closing

/-- What a search along all edges of the source finds is an embedding. -/
theorem embeds_of_run (formedSource : source.WellFormed) (formedTarget : target.WellFormed)
    {plan : Plan} {morphism : Morphism}
    (all : ∀ edge, source.skeleton.HasEdge edge → edge ∈ plan.map Prod.fst)
    (found : run admits source target plan = some morphism) :
    morphism.Embeds source target := by
  obtain ⟨pairing, searched, closed⟩ := Option.bind_eq_some_iff.mp found
  refine embeds_of_close (search_sound formedSource formedTarget Pairing.sound_start searched)
    (fun edge present => ?_) closed
  rw [List.append_nil, List.mem_reverse]
  exact ((List.mergeSort_perm plan _).map Prod.fst).mem_iff.mpr (all edge present)

/-- If a model with branches of one vertex each stands among the candidates, the search along all
edges finds something. -/
theorem run_succeeds (formedSource : source.WellFormed) (formedTarget : target.WellFormed)
    {model : Model source.skeleton target.skeleton} (single : model.Single)
    (admitted : ∀ one other, model.branch one other → admits one other = true) {plan : Plan}
    (distinct : (plan.map Prod.fst).Nodup)
    (planned : ∀ entry ∈ plan, source.skeleton.HasEdge entry.1 ∧ model.image entry.1 ∈ entry.2)
    (room : source.vertexCount ≤ target.vertexCount) :
    ∃ morphism, run admits source target plan = some morphism := by
  have sorted : List.Perm plan.sorted plan := List.mergeSort_perm plan _
  obtain ⟨pairing, searched⟩ : ∃ pairing, search admits source target plan.sorted {} = some pairing :=
    search_succeeds single admitted ((sorted.map Prod.fst).nodup_iff.mpr distinct)
      (fun entry member => planned entry (sorted.mem_iff.mp member))
      ⟨fun _ _ => ⟨nofun, nofun⟩, nofun, nofun⟩
  obtain ⟨morphism, closed⟩ :=
    close_succeeds (search_sound formedSource formedTarget Pairing.sound_start searched) room
  exact ⟨morphism, Option.bind_eq_some_iff.mpr ⟨pairing, searched, closed⟩⟩

private theorem mem_plan (formed : source.WellFormed) {entry : EdgeId × List EdgeId} :
    (entry ∈ source.edgeList.map fun edge => (edge.id, target.edgesOfShape edge.shape)) ↔
      ∃ edge, source.edge? entry.1 = some edge ∧ target.edgesOfShape edge.shape = entry.2 := by
  rw [List.mem_map]
  constructor
  · intro known
    obtain ⟨edge, member, rfl⟩ := known
    exact ⟨edge, formed.mem_edgeList.mp member, rfl⟩
  · intro known
    obtain ⟨edge, stored, same⟩ := known
    have named := formed.edge_id stored
    exact ⟨edge, formed.mem_edgeList.mpr (named.symm ▸ stored), Prod.ext named same⟩

private theorem nodup_plan (formed : source.WellFormed) :
    ((source.edgeList.map fun edge => (edge.id, target.edgesOfShape edge.shape)).map
      Prod.fst).Nodup := by
  rw [List.map_map]
  exact (show (source.edgeList.map Edge.id).Nodup from formed.edgeList_ids ▸ Hypergraph.nodup_edgeIds)

private theorem embeds_of_found (formedSource : source.WellFormed)
    (formedTarget : target.WellFormed) {morphism : Morphism}
    (found : findEmbedding source target = some morphism) : morphism.Embeds source target := by
  rw [findEmbedding] at found
  split at found
  · cases found
  dsimp only at found
  split at found
  · cases found
  apply embeds_of_run formedSource formedTarget _ found
  intro edge present
  obtain ⟨stored, there⟩ := Hypergraph.skeleton_hasEdge.mp present
  exact List.mem_map.mpr ⟨(edge, _), (mem_plan formedSource).mpr ⟨stored, there, rfl⟩, rfl⟩

private theorem found_of_model (formedSource : source.WellFormed) (formedTarget : target.WellFormed)
    {model : Model source.skeleton target.skeleton} (single : model.Single) :
    mayFit source target = true ∧ ∃ morphism, findEmbedding source target = some morphism := by
  have fits := Minor.mayFit_of_model formedSource formedTarget model
  refine ⟨fits, ?_⟩
  rw [mayFit, Bool.and_eq_true, Bool.and_eq_true, decide_eq_true_iff, decide_eq_true_iff] at fits
  have planned : ∀ entry ∈ source.edgeList.map fun edge => (edge.id, target.edgesOfShape edge.shape),
      source.skeleton.HasEdge entry.1 ∧ model.image entry.1 ∈ entry.2 := by
    intro entry member
    obtain ⟨edge, stored, same⟩ := (mem_plan formedSource).mp member
    refine ⟨Hypergraph.skeleton_hasEdge.mpr ⟨edge, stored⟩, ?_⟩
    obtain ⟨members, kept, along⟩ := model.image_kept (Hypergraph.skeleton_edge stored)
    obtain ⟨other, there, label, rfl⟩ := Hypergraph.skeleton_edge_iff.mp kept
    rw [← same]
    exact formedTarget.mem_edgesOfShape.mpr ⟨other, there, Prod.ext label along.length_eq.symm⟩
  have filled :
      ((source.edgeList.map fun edge => (edge.id, target.edgesOfShape edge.shape)).any fun entry =>
        entry.2.isEmpty) = false := by
    rw [List.any_eq_false]
    intro entry member empty
    have image := (planned entry member).2
    rw [List.isEmpty_iff.mp empty] at image
    cases image
  rw [findEmbedding, if_neg (by omega)]
  simp only [filled, Bool.false_eq_true, if_false]
  exact run_succeeds formedSource formedTarget single (fun _ _ _ => rfl) (nodup_plan formedSource)
    planned fits.1.1

/-- The search finds something just if there is a model with branches of one vertex each. -/
theorem found_iff (formedSource : source.WellFormed) (formedTarget : target.WellFormed) :
    (∃ morphism, findEmbedding source target = some morphism) ↔
    Below false source.skeleton target.skeleton := by
  constructor
  · intro known
    obtain ⟨morphism, found⟩ := known
    exact (embeds_of_found formedSource formedTarget found).below
  · intro below
    obtain ⟨model, single⟩ := below
    exact (found_of_model formedSource formedTarget (single rfl)).2

/-- A graph lies below another in the subgraph order just if it embeds. -/
theorem subgraph_iff (formedSource : source.WellFormed) (formedTarget : target.WellFormed) :
    Order.subgraph.le source target = true ↔ Below false source.skeleton target.skeleton := by
  change (mayFit source target && (findEmbedding source target).isSome) = true ↔ _
  rw [Bool.and_eq_true, Option.isSome_iff_exists]
  constructor
  · intro decided
    exact (found_iff formedSource formedTarget).mp decided.2
  · intro below
    obtain ⟨model, single⟩ := below
    exact found_of_model formedSource formedTarget (single rfl)

/-- To embed is to be included. -/
theorem inclusion_iff (formedSource : source.WellFormed) (formedTarget : target.WellFormed) :
    Nonempty (Inclusion source.skeleton target.skeleton) ↔
    Below false source.skeleton target.skeleton := by
  constructor
  · intro known
    obtain ⟨inclusion⟩ := known
    exact inclusion.below formedSource.closed false
  · intro below
    obtain ⟨morphism, found⟩ := (found_iff formedSource formedTarget).mpr below
    exact ⟨(embeds_of_found formedSource formedTarget found).inclusion⟩

end Embedding

/-- The search finds a morphism just if there is an injective map of the whole graph that keeps labels
and vertex sequences. What it finds is such a map, and the subgraph order says whether there is one. -/
theorem findEmbedding_exact {smaller bigger : Hypergraph} (formedSmaller : smaller.WellFormed)
    (formed : bigger.WellFormed) :
    ((∃ morphism, findEmbedding smaller bigger = some morphism) ↔
      Nonempty (Inclusion smaller.skeleton bigger.skeleton)) ∧
      (∀ morphism, findEmbedding smaller bigger = some morphism → morphism.Embeds smaller bigger) ∧
      (Order.subgraph.le smaller bigger = true ↔
        Nonempty (Inclusion smaller.skeleton bigger.skeleton)) := by
  have included := Embedding.inclusion_iff formedSmaller formed
  refine ⟨?_, fun morphism found => Embedding.embeds_of_found formedSmaller formed found, ?_⟩
  · exact (Embedding.found_iff formedSmaller formed).trans included.symm
  · exact (Embedding.subgraph_iff formedSmaller formed).trans included.symm

/-- A path of two edges goes into a graph where the first candidate for its first edge leads
nowhere, and a vertex without edges goes to what is left. -/
theorem findEmbedding_backtracks : ∃ morphism : Morphism,
    findEmbedding (.ofEdges 4 [("E", [0, 1]), ("E", [1, 2])])
      (.ofEdges 5 [("E", [0, 1]), ("E", [2, 3]), ("E", [3, 4])]) = some morphism ∧
      morphism.Embeds (.ofEdges 4 [("E", [0, 1]), ("E", [1, 2])])
        (.ofEdges 5 [("E", [0, 1]), ("E", [2, 3]), ("E", [3, 4])]) ∧
      Order.subgraph.le (.ofEdges 4 [("E", [0, 1]), ("E", [1, 2])])
        (.ofEdges 5 [("E", [0, 1]), ("E", [2, 3]), ("E", [3, 4])]) = true := by
  let path : Hypergraph := .ofEdges 4 [("E", [0, 1]), ("E", [1, 2])]
  let bigger : Hypergraph := .ofEdges 5 [("E", [0, 1]), ("E", [2, 3]), ("E", [3, 4])]
  let vertex (one : VertexId) : VertexId := ⟨(one.number + 2) % 5⟩
  let edge (one : EdgeId) : EdgeId := ⟨one.number + 2⟩
  have inside : ∀ one ∈ path.vertexIds, bigger.hasVertex (vertex one) = true := by decide +kernel
  have injective : ∀ one ∈ path.vertexIds, ∀ other ∈ path.vertexIds, vertex one = vertex other →
    one = other := by decide +kernel
  have apart : ∀ one ∈ path.edgeIds, ∀ other ∈ path.edgeIds, edge one = edge other →
    one = other := by decide +kernel
  have kept : ∀ one ∈ path.edgeIds, bigger.skeleton.edge? (edge one) =
      (path.skeleton.edge? one).map fun found => (found.1, found.2.map vertex) := by decide +kernel
  have inclusion : Inclusion path.skeleton bigger.skeleton :=
    { vertex, edge
      vertex_inside := fun present => inside _ (Hypergraph.mem_vertexIds.mpr present)
      vertex_injective :=
        fun first second =>
          injective _ (Hypergraph.mem_vertexIds.mpr first) _ (Hypergraph.mem_vertexIds.mpr second)
      edge_kept :=
        fun stored =>
          by rw [kept _ (Hypergraph.mem_edgeIds_iff.mpr ⟨_, _, stored⟩), stored, Option.map_some]
      edge_injective :=
        fun first second =>
          apart _ (Hypergraph.mem_edgeIds_iff.mpr first) _ (Hypergraph.mem_edgeIds_iff.mpr second) }
  have formedPath : path.WellFormed := by decide +kernel
  have formedBigger : bigger.WellFormed := by decide +kernel
  have exact := findEmbedding_exact formedPath formedBigger
  obtain ⟨morphism, found⟩ := exact.1.mpr ⟨inclusion⟩
  exact ⟨morphism, found, exact.2.1 morphism found, exact.2.2.mpr ⟨inclusion⟩⟩

end Coverability
