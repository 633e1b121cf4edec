import Coverability.Proofs.Overlap
import Coverability.Proofs.Spreading

/-! The search for matches. It goes through all partial maps of vertices, for each of them through
all maps of edges that fit, and for each of these through all ways to attach what is left. Which
maps it finds is said through lookups, since a table is determined by them. -/

namespace Coverability.Matching

section Extensions

variable {κ : Type} [Ord κ]

/-- Whether no two keys have the same value. -/
def Injective (table : Table κ κ) : Prop :=
  ∀ {one other value}, table.get? one = some value → table.get? other = some value → one = other

theorem injective_empty : Injective (∅ : Table κ κ) := by
  intro one other value first
  cases first

variable [Std.TransOrd κ] [Std.LawfulEqOrd κ] {candidates : Table κ κ → κ → List κ} {rest : List κ}
  {images table : Table κ κ}

instance [DecidableEq κ] : Decidable (Injective table) :=
  decidable_of_iff table.values.Nodup Table.nodup_values_iff

/-- All ways to leave out the keys listed or to give them one of their candidates. -/
def extensions (candidates : Table κ κ → κ → List κ) : List κ → Table κ κ → List (Table κ κ)
  | [], images => [images]
  | key :: rest, images =>
    extensions candidates rest images ++ (candidates images key).flatMap fun value =>
      extensions candidates rest (images.insert key value)

private theorem free_of_injective (injective : Injective table) {before : Table κ κ} {key value : κ}
    (smaller : ∀ other image, before.get? other = some image → table.get? other = some image)
    (fresh : before.get? key = none) (mapped : table.get? key = some value) :
    value ∉ before.values := by
  intro taken
  obtain ⟨other, old⟩ := Table.mem_values_iff.mp taken
  rw [injective (smaller other value old) mapped, fresh] at old
  cases old

variable [DecidableEq κ]

private theorem extensions_sides (member : table ∈ extensions candidates rest images)
    {key value : κ} (mapped : table.get? key = some value) :
    images.get? key = some value ∨ key ∈ rest ∧ ∃ before, value ∈ candidates before key := by
  induction rest generalizing images with
  | nil => exact .inl (List.mem_singleton.mp member ▸ mapped)
  | cons first rest ih =>
    rw [extensions, List.mem_append, List.mem_flatMap] at member
    rcases member with left | ⟨image, candidate, placed⟩
    · exact (ih left).imp_right fun known => ⟨List.mem_cons_of_mem _ known.1, known.2⟩
    · rcases ih placed with old | known
      · rw [Table.get?_insert] at old
        split at old
        next same =>
          cases old
          exact .inr ⟨same ▸ List.mem_cons_self, images, same ▸ candidate⟩
        · exact .inl old
      · exact .inr ⟨List.mem_cons_of_mem _ known.1, known.2⟩

private theorem injective_insert {key value : κ} (injective : Injective images)
    (fresh : value ∉ images.values) :
    Injective (images.insert key value) := by
  intro one other common first second
  rw [Table.get?_insert] at first second
  split at first <;> split at second
  next same same' => exact same.trans same'.symm
  next same _ =>
    cases first
    exact absurd (Table.mem_values_iff.mpr ⟨other, second⟩) fresh
  next _ same =>
    cases second
    exact absurd (Table.mem_values_iff.mpr ⟨one, first⟩) fresh
  · exact injective first second

theorem injective_insert_iff {key value : κ} (injective : Injective images)
    (fresh : images.get? key = none) :
    Injective (images.insert key value) ↔ value ∉ images.values := by
  constructor
  · intro apart taken
    obtain ⟨other, mapped⟩ := Table.mem_values_iff.mp taken
    have differs : other ≠ key := by
      intro same
      rw [same, fresh] at mapped
      cases mapped
    have atOther : (images.insert key value).get? other =
      some value := by rw [Table.get?_insert, if_neg differs, mapped]
    have atKey : (images.insert key value).get? key =
      some value := by rw [Table.get?_insert, if_pos rfl]
    exact differs (apart atOther atKey)
  · intro free
    exact injective_insert injective free

private theorem extensions_injective
    (free : ∀ images key value, value ∈ candidates images key → value ∉ images.values)
    (injective : Injective images) (member : table ∈ extensions candidates rest images) :
    Injective table := by
  induction rest generalizing images with
  | nil => exact List.mem_singleton.mp member ▸ injective
  | cons first rest ih =>
    rw [extensions, List.mem_append, List.mem_flatMap] at member
    rcases member with left | ⟨image, candidate, placed⟩
    · exact ih injective left
    · exact ih (injective_insert injective (free _ _ _ candidate)) placed

private theorem mem_extensions (distinct : rest.Nodup)
    (outside : ∀ key, key ∉ rest → table.get? key = images.get? key)
    (fresh : ∀ key ∈ rest, images.get? key = none)
    (admitted : ∀ {before : Table κ κ} {key value},
      (∀ other image, before.get? other = some image → table.get? other = some image) →
      before.get? key = none → table.get? key = some value → value ∈ candidates before key) :
    table ∈ extensions candidates rest images := by
  induction rest generalizing images with
  | nil => exact List.mem_singleton.mpr (Table.eq_of_get? fun key => outside key List.not_mem_nil)
  | cons first rest ih =>
    obtain ⟨missing, distinct⟩ := List.nodup_cons.mp distinct
    rw [extensions, List.mem_append, List.mem_flatMap]
    cases mapped : table.get? first with
    | none =>
      refine .inl (ih distinct (fun key apart => ?_) fun key member =>
        fresh key (List.mem_cons_of_mem _ member))
      by_cases same : key = first
      · rw [same, mapped, fresh first List.mem_cons_self]
      · exact outside key fun member => apart ((List.mem_cons.mp member).resolve_left same)
    | some image =>
      have smaller : ∀ other image, images.get? other = some image →
          table.get? other = some image := by
        intro other image old
        rw [outside other fun member => ?_]
        · exact old
        · rw [fresh other member] at old
          cases old
      refine .inr ⟨image, admitted smaller (fresh first List.mem_cons_self) mapped,
        ih distinct (fun key apart => ?_) fun key member => ?_⟩
      · rw [Table.get?_insert]
        split
        next same => rw [same, mapped]
        next other =>
          exact outside key fun member => apart ((List.mem_cons.mp member).resolve_left other)
      · have other : key ≠ first := fun same => missing (same ▸ member)
        rw [Table.get?_insert, if_neg other]
        exact fresh key (List.mem_cons_of_mem _ member)

private theorem extensions_outside (member : table ∈ extensions candidates rest images) {key : κ}
    (apart : key ∉ rest) :
    table.get? key = images.get? key := by
  induction rest generalizing images with
  | nil => rw [List.mem_singleton.mp member]
  | cons first rest ih =>
    rw [List.mem_cons, not_or] at apart
    obtain ⟨differs, apart⟩ := apart
    rw [extensions, List.mem_append, List.mem_flatMap] at member
    rcases member with left | ⟨image, _, placed⟩
    · exact ih left apart
    · rw [ih placed apart, Table.get?_insert, if_neg differs]

/-- What is kept of the tables found may be asked for at each pair instead. A table that is not kept
has no larger one that is, so it does not matter that the search goes no further. -/
theorem extensions_filter {keep : Table κ κ → Prop} [DecidablePred keep]
    {admits : Table κ κ → κ → κ → Bool}
    (told : ∀ {before : Table κ κ} {key value}, keep before → before.get? key = none →
      (admits before key value = true ↔ keep (before.insert key value)))
    (smaller : ∀ {before after : Table κ κ},
      (∀ key value, before.get? key = some value → after.get? key = some value) →
      keep after → keep before)
    (distinct : rest.Nodup) (fresh : ∀ key ∈ rest, images.get? key = none) (start : keep images) :
    extensions (fun before key => (candidates before key).filter (admits before key)) rest images =
      (extensions candidates rest images).filter (keep ·) := by
  induction rest generalizing images with
  | nil => simp [extensions, start]
  | cons first rest ih =>
    obtain ⟨missing, distinct⟩ := List.nodup_cons.mp distinct
    have unset : images.get? first = none := fresh first List.mem_cons_self
    have freshAfter : ∀ image, ∀ key ∈ rest, (images.insert first image).get? key = none := by
      intro image key member
      have other : key ≠ first := fun same => missing (same ▸ member)
      rw [Table.get?_insert, if_neg other]
      exact fresh key (List.mem_cons_of_mem _ member)
    rw [extensions, extensions, List.filter_append, List.filter_flatMap,
      ih distinct (fun key member => fresh key (List.mem_cons_of_mem _ member)) start]
    congr 1
    apply Listing.flatMap_filter
    · intro image _ admitted
      exact ih distinct (freshAfter image) ((told start unset).mp admitted)
    · intro image _ barred
      apply List.filter_eq_nil_iff.mpr
      intro table member kept
      have grown : ∀ key value, (images.insert first image).get? key = some value →
          table.get? key = some value := by
        intro key value mapped
        have outside : key ∉ rest := by
          intro listed
          rw [freshAfter image key listed] at mapped
          cases mapped
        rw [extensions_outside member outside]
        exact mapped
      rw [(told start unset).mpr (smaller grown (of_decide_eq_true kept))] at barred
      cases barred

private theorem nodup_extensions (distinct : rest.Nodup)
    (fresh : ∀ key ∈ rest, images.get? key = none)
    (once : ∀ images key, (candidates images key).Nodup) :
    (extensions candidates rest images).Nodup := by
  -- The first key on which two branches differ tells their tables apart.
  induction rest generalizing images with
  | nil => exact List.nodup_singleton _
  | cons first rest ih =>
    obtain ⟨missing, distinct⟩ := List.nodup_cons.mp distinct
    have atFirst : ∀ {image table}, table ∈ extensions candidates rest (images.insert first image) →
        table.get? first = some image := by
      intro image table placed
      rw [extensions_outside placed missing, Table.get?_insert, if_pos rfl]
    rw [extensions, List.nodup_append', List.nodup_flatMap]
    refine ⟨ih distinct fun key member => fresh key (List.mem_cons_of_mem _ member),
      ⟨fun image _ => ?_, ?_⟩, fun table left right => ?_⟩
    · refine ih distinct fun key member => ?_
      have other : key ≠ first := fun same => missing (same ▸ member)
      rw [Table.get?_insert, if_neg other]
      exact fresh key (List.mem_cons_of_mem _ member)
    · refine (once images first).imp fun {one other} differs table placed placed' => ?_
      exact differs (Option.some.inj ((atFirst placed).symm.trans (atFirst placed')))
    · obtain ⟨image, _, placed⟩ := List.mem_flatMap.mp right
      have skipped := extensions_outside left missing
      rw [fresh first List.mem_cons_self, atFirst placed] at skipped
      cases skipped

end Extensions

variable {matching : Matching}

section Vertices

theorem vertexMaps_eq (rest : List VertexId) (images : Table VertexId VertexId) :
    matching.vertexMaps rest images = extensions matching.vertexCandidates rest images := by
  induction rest generalizing images with
  | nil => rfl
  | cons first rest ih => simp only [vertexMaps, extensions, ih]

theorem mem_vertexCandidates {images : Table VertexId VertexId} {vertex image : VertexId} :
    image ∈ matching.vertexCandidates images vertex ↔ matching.graph.hasVertex image = true ∧
      (matching.contract = false → image ∉ images.values ∧
        (vertex ∈ matching.rule.createdVertices →
          matching.graph.degree image ≤ matching.rule.right.degree vertex)) := by
  rw [vertexCandidates]
  cases contract : matching.contract with
  | true => simp [Hypergraph.mem_vertexIds]
  | false =>
    simp only [Bool.false_eq_true, if_false, List.mem_filter, Hypergraph.mem_vertexIds,
      Bool.and_eq_true, decide_eq_true_eq,
      Bool.not_eq_true', Bool.and_eq_false_imp, decide_eq_false_iff_not, Nat.not_lt, forall_const]

theorem vertexMaps_sides {table : Table VertexId VertexId}
    (member : table ∈ matching.vertexMaps matching.rule.right.vertexIds ∅) {right vertex : VertexId}
    (mapped : table.get? right = some vertex) :
    matching.rule.right.hasVertex right = true ∧ matching.graph.hasVertex vertex = true := by
  rw [vertexMaps_eq] at member
  rcases extensions_sides member mapped with old | ⟨listed, before, candidate⟩
  · cases old
  · exact ⟨Hypergraph.mem_vertexIds.mp listed, (mem_vertexCandidates.mp candidate).1⟩

theorem vertexMaps_injective (rigid : matching.contract = false) {table : Table VertexId VertexId}
    (member : table ∈ matching.vertexMaps matching.rule.right.vertexIds ∅) : Injective table := by
  rw [vertexMaps_eq] at member
  exact extensions_injective (fun _ _ _ candidate =>
    ((mem_vertexCandidates.mp candidate).2 rigid).1) injective_empty member

theorem mem_vertexMaps {table : Table VertexId VertexId}
    (sides : ∀ {right vertex}, table.get? right = some vertex →
      matching.rule.right.hasVertex right = true ∧ matching.graph.hasVertex vertex = true)
    (rigid : matching.contract = false → Injective table ∧
      ∀ {right vertex}, table.get? right = some vertex →
      right ∈ matching.rule.createdVertices →
      matching.graph.degree vertex ≤ matching.rule.right.degree right) :
    table ∈ matching.vertexMaps matching.rule.right.vertexIds ∅ := by
  rw [vertexMaps_eq]
  refine mem_extensions Hypergraph.nodup_vertexIds (fun right apart => ?_) (fun _ _ => rfl)
    fun smaller fresh mapped => ?_
  · refine Option.eq_none_iff_forall_ne_some.mpr fun vertex mapped => ?_
    exact apart (Hypergraph.mem_vertexIds.mpr (sides mapped).1)
  · refine mem_vertexCandidates.mpr ⟨(sides mapped).2,
      fun contract => ⟨?_, (rigid contract).2 mapped⟩⟩
    exact free_of_injective (rigid contract).1 smaller fresh mapped

theorem nodup_vertexMaps : (matching.vertexMaps matching.rule.right.vertexIds ∅).Nodup := by
  rw [vertexMaps_eq]
  refine nodup_extensions Hypergraph.nodup_vertexIds (fun _ _ => rfl) fun images vertex => ?_
  rw [vertexCandidates]
  split
  · exact Hypergraph.nodup_vertexIds
  · exact Hypergraph.nodup_vertexIds.filter _

end Vertices

section Edges

variable {vertices : Table VertexId VertexId}

private def candidates (matching : Matching) (vertices : Table VertexId VertexId)
    (images : Table EdgeId EdgeId) (id : EdgeId) : List EdgeId :=
  match matching.rule.right.edge? id with
  | some edge =>
    matching.edgeCandidates images.values edge.label (edge.vertices.filterMap vertices.get?)
  | none => []

private theorem edgeMaps_eq (rest : List EdgeId) (images : Table EdgeId EdgeId) :
    matching.edgeMaps vertices rest images =
      extensions (candidates matching vertices) rest images := by
  induction rest generalizing images with
  | nil => rfl
  | cons first rest ih =>
    simp only [edgeMaps, extensions, ih]
    rfl

private theorem mem_edgeCandidates (formed : matching.graph.WellFormed) {taken : List EdgeId}
    {label : String} {images : List VertexId} {id : EdgeId} :
    id ∈ matching.edgeCandidates taken label images ↔
      images ≠ [] ∧ id ∉ taken ∧ matching.graph.skeleton.edge? id = some (label, images) := by
  cases images with
  | nil => simp [edgeCandidates]
  | cons first rest =>
    rw [edgeCandidates, List.mem_filter, Table.mem_distinct, formed.mem_incident,
      Hypergraph.skeleton_edge_iff]
    constructor
    · intro known
      obtain ⟨⟨edge, stored, _⟩, free⟩ := known
      simp only [stored, Bool.and_eq_true, decide_eq_true_eq] at free
      exact ⟨nofun, free.1, edge, stored, free.2.1, free.2.2⟩
    · intro known
      obtain ⟨_, free, edge, stored, same, along⟩ := known
      simp only [stored, Bool.and_eq_true, decide_eq_true_eq]
      exact ⟨⟨edge, rfl, along ▸ List.mem_cons_self⟩, free, same, along⟩

private theorem mem_candidates (formed : matching.graph.WellFormed) {images : Table EdgeId EdgeId}
    {right image : EdgeId} :
    image ∈ candidates matching vertices images right ↔ image ∉ images.values ∧ ∃ label ends,
      matching.rule.right.skeleton.edge? right = some (label, ends) ∧
      ends.filterMap vertices.get? ≠ [] ∧
        matching.graph.skeleton.edge? image = some (label, ends.filterMap vertices.get?) := by
  rw [candidates]
  split
  next edge stored =>
    rw [mem_edgeCandidates formed]
    constructor
    · intro known
      exact ⟨known.2.1, edge.label, edge.vertices, Hypergraph.skeleton_edge stored,
        known.1, known.2.2⟩
    · intro known
      obtain ⟨free, label, ends, there, some, image⟩ := known
      rw [Hypergraph.skeleton_edge stored, Option.some.injEq, Prod.mk.injEq] at there
      obtain ⟨rfl, rfl⟩ := there
      exact ⟨some, free, image⟩
  next none =>
    refine ⟨nofun, fun known => ?_⟩
    obtain ⟨_, label, ends, there, _⟩ := known
    obtain ⟨edge, stored, _⟩ := Hypergraph.skeleton_edge_iff.mp there
    rw [stored] at none
    cases none

/-- The edges of the right side all of whose vertices have been placed. -/
def eligible (matching : Matching) (vertices : Table VertexId VertexId) : List EdgeId :=
  (matching.rule.right.edgeList.filter fun edge => edge.vertices.all vertices.contains).map Edge.id

private theorem mem_eligible (formed : matching.rule.right.WellFormed) {right : EdgeId} :
    right ∈ eligible matching vertices ↔
    ∃ label ends, matching.rule.right.skeleton.edge? right = some (label, ends) ∧
      ∀ vertex ∈ ends, vertices.contains vertex = true := by
  simp only [eligible, List.mem_map, List.mem_filter, formed.mem_edgeList, List.all_eq_true]
  constructor
  · intro known
    obtain ⟨edge, ⟨stored, placed⟩, rfl⟩ := known
    exact ⟨edge.label, edge.vertices, Hypergraph.skeleton_edge stored, placed⟩
  · intro known
    obtain ⟨label, ends, there, placed⟩ := known
    obtain ⟨edge, stored, _, rfl⟩ := Hypergraph.skeleton_edge_iff.mp there
    have same := formed.edge_id stored
    exact ⟨edge, ⟨same ▸ stored, placed⟩, same⟩

private theorem nodup_eligible (formed : matching.rule.right.WellFormed) :
    (eligible matching vertices).Nodup := by
  have distinct : (matching.rule.right.edgeList.map Edge.id).Nodup :=
    formed.edgeList_ids ▸ Hypergraph.nodup_edgeIds
  exact distinct.sublist (List.filter_sublist.map _)

private theorem along_filterMap {ends : List VertexId}
    (placed : ∀ vertex ∈ ends, vertices.contains vertex = true) :
    List.Forall₂ (fun first second => vertices.get? first = some second) ends
      (ends.filterMap vertices.get?) := by
  induction ends with
  | nil => exact .nil
  | cons first rest ih =>
    rw [List.forall_mem_cons] at placed
    obtain ⟨image, mapped⟩ := Table.contains_iff.mp placed.1
    rw [List.filterMap_cons_some mapped]
    exact .cons mapped (ih placed.2)

private theorem filterMap_along {ends others : List VertexId}
    (along : List.Forall₂ (fun first second => vertices.get? first = some second) ends others) :
    ends.filterMap vertices.get? = others := by
  induction along with
  | nil => rfl
  | cons head _ ih => rw [List.filterMap_cons_some head, ih]

/-- The images of an edge of the right side that its vertices go along. -/
def Carried (matching : Matching) (vertices : Table VertexId VertexId) (right edge : EdgeId) : Prop :=
  ∃ label ends others, matching.rule.right.skeleton.edge? right = some (label, ends) ∧
    matching.graph.skeleton.edge? edge = some (label, others) ∧
    List.Forall₂ (fun first second => vertices.get? first = some second) ends others

theorem edgeMaps_sides (formed : matching.graph.WellFormed)
    (formedRight : matching.rule.right.WellFormed) {table : Table EdgeId EdgeId}
    (member : table ∈ matching.edgeMaps vertices (eligible matching vertices) ∅)
    {right edge : EdgeId} (mapped : table.get? right = some edge) :
    Carried matching vertices right edge := by
  rw [edgeMaps_eq] at member
  rcases extensions_sides member mapped with old | ⟨listed, before, candidate⟩
  · cases old
  · obtain ⟨label, ends, there, placed⟩ := (mem_eligible formedRight).mp listed
    obtain ⟨_, label', ends', there', _, here⟩ := (mem_candidates formed).mp candidate
    rw [there, Option.some.injEq, Prod.mk.injEq] at there'
    obtain ⟨rfl, rfl⟩ := there'
    exact ⟨label, ends, _, there, here, along_filterMap placed⟩

theorem edgeMaps_injective (formed : matching.graph.WellFormed) {rest : List EdgeId}
    {table : Table EdgeId EdgeId} (member : table ∈ matching.edgeMaps vertices rest ∅) :
    Injective table := by
  rw [edgeMaps_eq] at member
  exact extensions_injective (fun _ _ _ candidate => ((mem_candidates formed).mp candidate).1)
    injective_empty member

/-- An edge without vertices is left out. -/
theorem edgeMaps_ended (formed : matching.graph.WellFormed) {rest : List EdgeId}
    {table : Table EdgeId EdgeId} (member : table ∈ matching.edgeMaps vertices rest ∅)
    {right edge : EdgeId} {label : String} {ends : List VertexId}
    (mapped : table.get? right = some edge)
    (stored : matching.rule.right.skeleton.edge? right = some (label, ends)) : ends ≠ [] := by
  rw [edgeMaps_eq] at member
  rcases extensions_sides member mapped with old | ⟨_, before, candidate⟩
  · cases old
  · obtain ⟨_, label', ends', there, some, _⟩ := (mem_candidates formed).mp candidate
    rw [stored, Option.some.injEq, Prod.mk.injEq] at there
    obtain ⟨rfl, rfl⟩ := there
    rintro rfl
    exact some rfl

theorem mem_edgeMaps (formed : matching.graph.WellFormed)
    (formedRight : matching.rule.right.WellFormed) {table : Table EdgeId EdgeId}
    (ended : ∀ {right edge label ends}, table.get? right = some edge →
      matching.rule.right.skeleton.edge? right = some (label, ends) → ends ≠ [])
    (injective : Injective table)
    (sides : ∀ {right edge}, table.get? right = some edge → Carried matching vertices right edge) :
    table ∈ matching.edgeMaps vertices (eligible matching vertices) ∅ := by
  rw [edgeMaps_eq]
  refine mem_extensions (nodup_eligible formedRight) (fun right apart => ?_) (fun _ _ => rfl)
    fun smaller fresh mapped => ?_
  · refine Option.eq_none_iff_forall_ne_some.mpr fun edge mapped => apart ?_
    obtain ⟨label, ends, others, there, _, along⟩ := sides mapped
    refine (mem_eligible formedRight).mpr ⟨label, ends, there, fun vertex member => ?_⟩
    obtain ⟨image, _, placed⟩ := Listing.along_left along member
    exact Table.contains_iff.mpr ⟨image, placed⟩
  · obtain ⟨label, ends, others, there, here, along⟩ := sides mapped
    have images := filterMap_along along
    refine (mem_candidates formed).mpr ⟨free_of_injective injective smaller fresh mapped, label,
      ends, there, ?_, images ▸ here⟩
    intro empty
    rw [images] at empty
    rw [empty] at along
    exact ended mapped there (List.forall₂_nil_right_iff.mp along)

theorem nodup_edgeMaps (formedRight : matching.rule.right.WellFormed) :
    (matching.edgeMaps vertices (eligible matching vertices) ∅).Nodup := by
  rw [edgeMaps_eq]
  refine nodup_extensions (nodup_eligible formedRight) (fun _ _ => rfl) fun images right => ?_
  rw [candidates]
  split
  · rw [edgeCandidates.eq_def]
    split
    · exact List.nodup_nil
    · exact Table.nodup_distinct.filter _
  · exact List.nodup_nil

end Edges

section Attachments

variable {found : PartialMatch}

theorem mem_blocks {image : VertexId} {block : List VertexId} :
    (image, block) ∈ found.blocks.entries ↔ block = found.block image ∧ block ≠ [] := by
  rw [Table.mem_entries_iff]
  cases stored : found.blocks.get? image with
  | none => simp [PartialMatch.block, Table.getD_eq, stored]
  | some listed =>
    have same : found.block image = listed := by
      rw [PartialMatch.block, Table.getD_eq, stored, Option.getD_some]
    have some : listed ≠ [] := by
      rw [PartialMatch.blocks, Table.get?_group] at stored
      split at stored
      next known =>
        cases stored
        obtain ⟨entry, member, rfl⟩ := List.mem_map.mp known
        rw [ne_eq, List.map_eq_nil_iff, List.filter_eq_nil_iff]
        exact fun none => none entry member (decide_eq_true rfl)
      · cases stored
    rw [Option.some.injEq, same]
    exact ⟨fun equal => ⟨equal.symm, equal ▸ some⟩, fun known => known.1.symm⟩

theorem mem_openPlaces (formed : matching.graph.WellFormed) {image : VertexId} {place : Place} :
    place ∈ matching.openPlaces found image ↔ place.edge ∉ found.edges.values ∧ ∃ label ends,
      matching.graph.skeleton.edge? place.edge = some (label, ends) ∧
      ends[place.position]? = some image := by
  simp only [openPlaces, List.mem_flatMap, List.mem_filter, Table.mem_distinct, decide_eq_true_eq]
  constructor
  · intro known
    obtain ⟨id, ⟨_, free⟩, listed⟩ := known
    cases stored : matching.graph.edge? id with
    | none =>
      rw [stored] at listed
      cases listed
    | some edge =>
      rw [stored] at listed
      obtain ⟨⟨vertex, index⟩, inside, rfl⟩ := List.mem_map.mp listed
      obtain ⟨present, same⟩ := List.mem_filter.mp inside
      obtain rfl : vertex = image := of_decide_eq_true same
      have atIndex : edge.vertices[index]? = some vertex :=
        (List.mem_zipIdx_iff_getElem? (x := (vertex, index))).mp present
      exact ⟨free, edge.label, edge.vertices, Hypergraph.skeleton_edge stored, atIndex⟩
  · intro known
    obtain ⟨free, label, ends, there, atIndex⟩ := known
    obtain ⟨edge, stored, rfl, rfl⟩ := Hypergraph.skeleton_edge_iff.mp there
    refine ⟨place.edge,
      ⟨formed.mem_incident.mpr ⟨edge, stored, List.mem_of_getElem? atIndex⟩, free⟩, ?_⟩
    rw [stored]
    refine List.mem_map.mpr ⟨(image, place.position),
      List.mem_filter.mpr ⟨?_, decide_eq_true rfl⟩, rfl⟩
    exact List.mem_zipIdx_iff_getElem?.mpr atIndex

private theorem collect_eq_some {α : Type} {options : List (Option (List α))} {items : List α} :
    options.foldr (fun first rest => first.bind fun first => rest.map (first ++ ·))
      (some []) = some items ↔
      ∃ parts : List (List α), options = parts.map some ∧ parts.flatten = items := by
  induction options generalizing items with
  | nil =>
    constructor
    · intro same
      cases same
      exact ⟨[], rfl, rfl⟩
    · intro known
      obtain ⟨parts, same, rfl⟩ := known
      rw [List.nil_eq, List.map_eq_nil_iff] at same
      rw [same]
      rfl
  | cons first rest ih =>
    rw [List.foldr_cons, Option.bind_eq_some_iff]
    constructor
    · intro known
      obtain ⟨part, rfl, mapped⟩ := known
      obtain ⟨others, later, rfl⟩ := Option.map_eq_some_iff.mp mapped
      obtain ⟨parts, rfl, rfl⟩ := ih.mp later
      exact ⟨part :: parts, rfl, rfl⟩
    · intro known
      obtain ⟨parts, same, rfl⟩ := known
      cases parts with
      | nil => cases same
      | cons part parts =>
        rw [List.map_cons, List.cons.injEq] at same
        obtain ⟨rfl, later⟩ := same
        exact ⟨part, rfl, Option.map_eq_some_iff.mpr ⟨parts.flatten, ih.mpr ⟨parts, later, rfl⟩, rfl⟩⟩

/-- The vertices of a block that can keep an incidence. -/
def keepers (matching : Matching) (block : List VertexId) : List VertexId :=
  block.filter fun vertex => vertex ∉ matching.rule.createdVertices

/-- What the incidences at one image may choose from. -/
private def offer (matching : Matching) (found : PartialMatch) (image : VertexId)
    (block : List VertexId) :
    Option (List (Place × List VertexId)) :=
  if (keepers matching block).isEmpty && !(matching.openPlaces found image).isEmpty then none
  else if block.length ≤ 1 then some []
  else some ((matching.openPlaces found image).map fun place => (place, keepers matching block))

private theorem choices_eq : matching.choices found =
    (found.blocks.entries.map fun entry => offer matching found entry.1 entry.2).foldr
      (fun first rest => first.bind fun first => rest.map (first ++ ·)) (some []) := rfl

private theorem choices_eq_some {choices : List (Place × List VertexId)} :
    matching.choices found = some choices ↔
    ∃ parts : List (List (Place × List VertexId)), parts.flatten = choices ∧
      List.Forall₂ (fun entry part => offer matching found entry.1 entry.2 = some part)
        found.blocks.entries parts := by
  rw [choices_eq, collect_eq_some]
  exact exists_congr fun parts =>
    and_comm.trans (and_congr_right fun _ => Listing.along_iff_map_eq.symm)

private theorem offer_isSome {image : VertexId} {block : List VertexId}
    (kept : ∀ place ∈ matching.openPlaces found image, keepers matching block ≠ []) :
    ∃ part, offer matching found image block = some part := by
  have unblocked :
      ((keepers matching block).isEmpty && !(matching.openPlaces found image).isEmpty) = false := by
    cases places : matching.openPlaces found image with
    | nil => simp
    | cons place rest => simp [kept place (places ▸ List.mem_cons_self)]
  rw [offer, unblocked]
  simp only [Bool.false_eq_true, if_false]
  split
  · exact ⟨_, rfl⟩
  · exact ⟨_, rfl⟩

private theorem mem_offer {image : VertexId} {block : List VertexId}
    {part : List (Place × List VertexId)} (offered : offer matching found image block = some part) :
    (∀ place ∈ matching.openPlaces found image, keepers matching block ≠ []) ∧
      ∀ place listed, (place, listed) ∈ part ↔
        1 < block.length ∧ place ∈ matching.openPlaces found image ∧
        listed = keepers matching block := by
  rw [offer] at offered
  split at offered
  · cases offered
  next kept =>
    have some : ∀ place ∈ matching.openPlaces found image, keepers matching block ≠ [] := by
      intro place member empty
      refine kept ?_
      rw [empty, Bool.and_eq_true, Bool.not_eq_true', List.isEmpty_eq_false_iff]
      exact ⟨rfl, List.ne_nil_of_mem member⟩
    split at offered
    next short =>
      cases offered
      exact ⟨some, fun place listed => ⟨nofun, fun known => absurd known.1 (Nat.not_lt.mpr short)⟩⟩
    next long =>
      cases offered
      refine ⟨some, fun place listed => ?_⟩
      rw [List.mem_map]
      constructor
      · intro known
        obtain ⟨place, member, same⟩ := known
        cases same
        exact ⟨Nat.lt_of_not_le long, member, rfl⟩
      · intro known
        exact ⟨place, known.2.1, Prod.ext rfl known.2.2.symm⟩

/-- Choices exist if no incidence is left without a vertex to go to. -/
theorem exists_choices
    (kept : ∀ image, found.block image ≠ [] → ∀ place ∈ matching.openPlaces found image,
    keepers matching (found.block image) ≠ []) : ∃ choices,
      matching.choices found = some choices := by
  suffices parts : ∀ entries : List (VertexId × List VertexId), entries ⊆ found.blocks.entries →
      ∃ parts : List (List (Place × List VertexId)),
        List.Forall₂ (fun entry part => offer matching found entry.1 entry.2 = some part)
          entries parts by
    obtain ⟨parts, along⟩ := parts _ (List.Subset.refl _)
    exact ⟨_, choices_eq_some.mpr ⟨parts, rfl, along⟩⟩
  intro entries within
  induction entries with
  | nil => exact ⟨[], .nil⟩
  | cons entry rest ih =>
    obtain ⟨parts, along⟩ := ih fun other member => within (List.mem_cons_of_mem _ member)
    obtain ⟨same, some⟩ := mem_blocks.mp (within List.mem_cons_self)
    obtain ⟨part, offered⟩ :=
      offer_isSome fun place member => same ▸ kept entry.1 (same ▸ some) place member
    exact ⟨part :: parts, .cons offered along⟩

theorem mem_choices {choices : List (Place × List VertexId)}
    (chosen : matching.choices found = some choices) {place : Place} {listed : List VertexId} :
    (place, listed) ∈ choices ↔ ∃ image, 1 < (found.block image).length ∧
      place ∈ matching.openPlaces found image ∧ listed = keepers matching (found.block image) := by
  obtain ⟨parts, rfl, along⟩ := choices_eq_some.mp chosen
  rw [List.mem_flatten]
  constructor
  · intro known
    obtain ⟨part, member, inside⟩ := known
    obtain ⟨⟨image, block⟩, listed, offered⟩ := Listing.along_right along member
    obtain ⟨rfl, _⟩ := mem_blocks.mp listed
    exact ⟨image, ((mem_offer offered).2 _ _).mp inside⟩
  · intro known
    obtain ⟨image, long, member, same⟩ := known
    have some : found.block image ≠ [] := List.ne_nil_of_length_pos (by omega)
    obtain ⟨part, inside, offered⟩ := Listing.along_left along (mem_blocks.mpr ⟨rfl, some⟩)
    exact ⟨part, inside, ((mem_offer offered).2 _ _).mpr ⟨long, member, same⟩⟩

theorem keepers_of_choices {choices : List (Place × List VertexId)}
    (chosen : matching.choices found = some choices) {image : VertexId} {place : Place}
    (matched : found.block image ≠ []) (opens : place ∈ matching.openPlaces found image) :
    keepers matching (found.block image) ≠ [] := by
  obtain ⟨parts, _, along⟩ := choices_eq_some.mp chosen
  obtain ⟨part, _, offered⟩ := Listing.along_left along (mem_blocks.mpr ⟨rfl, matched⟩)
  exact (mem_offer offered).1 place opens

theorem lookup_of_attachments {choices : List (Place × List VertexId)}
    {attached : List (Place × VertexId)} (member : attached ∈ attachments choices) {place : Place}
    {listed : List VertexId} (choice : (place, listed) ∈ choices)
    (only : ∀ other, (place, other) ∈ choices → other = listed) :
    ∃ keeper ∈ listed, attached.lookup place = some keeper := by
  induction choices generalizing attached with
  | nil => cases choice
  | cons first rest ih =>
    obtain ⟨other, offered⟩ := first
    rw [attachments, List.mem_flatMap] at member
    obtain ⟨keeper, inside, placed⟩ := member
    obtain ⟨others, later, rfl⟩ := List.mem_map.mp placed
    by_cases same : place = other
    · subst same
      refine ⟨keeper, only offered List.mem_cons_self ▸ inside, ?_⟩
      rw [List.lookup_cons, beq_self_eq_true]
    · have further : (place, listed) ∈ rest :=
        (List.mem_cons.mp choice).resolve_left fun equal => same (congrArg Prod.fst equal)
      obtain ⟨keeper', inside', found⟩ :=
        ih later further fun other member => only other (List.mem_cons_of_mem _ member)
      refine ⟨keeper', inside', ?_⟩
      rw [List.lookup_cons, beq_false_of_ne same]
      exact found

theorem mem_attachments (pick : Place → VertexId) {choices : List (Place × List VertexId)}
    (picked : ∀ choice ∈ choices, pick choice.1 ∈ choice.2) :
    choices.map (fun choice => (choice.1, pick choice.1)) ∈ attachments choices := by
  induction choices with
  | nil => exact List.mem_singleton.mpr rfl
  | cons first rest ih =>
    rw [List.forall_mem_cons] at picked
    rw [attachments, List.mem_flatMap]
    exact ⟨pick first.1, picked.1, List.mem_map.mpr ⟨_, ih picked.2, rfl⟩⟩

theorem lookup_picked (pick : Place → VertexId) {choices : List (Place × List VertexId)}
    {place : Place} {listed : List VertexId} (choice : (place, listed) ∈ choices) :
    (choices.map fun choice => (choice.1, pick choice.1)).lookup place = some (pick place) := by
  induction choices with
  | nil => cases choice
  | cons first rest ih =>
    rw [List.map_cons, List.lookup_cons]
    by_cases same : place = first.1
    · rw [same, beq_self_eq_true]
    · rw [beq_false_of_ne same]
      exact ih ((List.mem_cons.mp choice).resolve_left fun equal => same (congrArg Prod.fst equal))

end Attachments

end Coverability.Matching
