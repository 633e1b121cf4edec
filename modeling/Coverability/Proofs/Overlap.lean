import Coverability.Predecessor.Match
import Coverability.Proofs.Rewriting

/-! Overlaps of the right side of a rule with a graph. An overlap leaves a context in the graph: the
unmatched part, attached to what the rule preserves. Filled with the right side, the context is a
graph above the given one. -/

namespace Coverability

namespace PartialMatch

/-- The vertices of the right side that go to a vertex of the graph. -/
def block (found : PartialMatch) (vertex : VertexId) : List VertexId := found.blocks.getD vertex []

/-- The vertex of the right side that explains an incidence at a matched vertex. -/
def owner (found : PartialMatch) (place : Place) (vertex : VertexId) : Option VertexId :=
  match found.block vertex with
  | [] => none
  | [only] => some only
  | _ => found.attached.lookup place

def opening (found : PartialMatch) (place : Place) (vertex : VertexId) : VertexId ⊕ VertexId :=
  match found.owner place vertex with
  | some right => .inr right
  | none => .inl vertex

variable {found : PartialMatch}

theorem mem_block {vertex right : VertexId} :
    right ∈ found.block vertex ↔ found.vertices.get? right = some vertex := by
  rw [block, Table.getD_eq, blocks, Table.get?_group]
  split
  next listed =>
    simp only [Option.getD_some, List.filter_map, List.map_map, List.mem_map, List.mem_filter,
      Function.comp_apply, decide_eq_true_eq]
    constructor
    · intro member
      obtain ⟨entry, ⟨inside, rfl⟩, rfl⟩ := member
      exact Table.mem_entries_iff.mp inside
    · intro mapped
      exact ⟨(right, vertex), ⟨Table.mem_entries_iff.mpr mapped, rfl⟩, rfl⟩
  next unlisted =>
    refine ⟨nofun, fun mapped => absurd ?_ unlisted⟩
    exact List.mem_map.mpr ⟨(vertex, right),
      List.mem_map.mpr ⟨(right, vertex), Table.mem_entries_iff.mpr mapped, rfl⟩, rfl⟩

theorem block_eq_nil {vertex : VertexId} :
    found.block vertex = [] ↔ ∀ right, found.vertices.get? right ≠ some vertex := by
  simp only [List.eq_nil_iff_forall_not_mem, mem_block, ne_eq]

theorem owner_eq {place : Place} {vertex keeper : VertexId} (inside : keeper ∈ found.block vertex)
    (attached : 1 < (found.block vertex).length → found.attached.lookup place = some keeper) :
    found.owner place vertex = some keeper := by
  rw [owner]
  cases block : found.block vertex with
  | nil =>
    rw [block] at inside
    cases inside
  | cons first rest =>
    cases rest with
    | nil =>
      rw [block, List.mem_singleton] at inside
      rw [inside]
    | cons second rest => exact attached (by simp [block])

/-- What a match of the right side has to satisfy for its complement to make sense. -/
structure Overlap (rule : Rule) (graph : Hypergraph) (found : PartialMatch) : Prop where
  vertex_sides : ∀ {right vertex}, found.vertices.get? right = some vertex →
    rule.right.hasVertex right = true ∧ graph.hasVertex vertex = true
  edge_sides : ∀ {right edge}, found.edges.get? right = some edge → ∃ label ends others,
    rule.right.skeleton.edge? right = some (label, ends) ∧
    graph.skeleton.edge? edge = some (label, others) ∧
      List.Forall₂ (fun first second => found.vertices.get? first = some second) ends others
  edge_injective : ∀ {one other edge}, found.edges.get? one = some edge →
    found.edges.get? other = some edge → one = other
  /-- Vertices with one image are joined by edges of the right side that can be contracted. -/
  connected : ∀ {one other vertex}, found.vertices.get? one = some vertex →
    found.vertices.get? other = some vertex →
    rule.right.skeleton.Joined (fun edge => found.edges.get? edge = none)
      (fun right => found.vertices.get? right = some vertex) one other
  /-- Every incidence at a matched vertex that no matched edge explains has gone to a preserved vertex. -/
  owned : ∀ {edge label ends index vertex right}, (∀ one, found.edges.get? one ≠ some edge) →
    graph.skeleton.edge? edge = some (label, ends) → ends[index]? = some vertex →
    found.vertices.get? right = some vertex →
      ∃ keeper, found.owner ⟨edge, index⟩ vertex = some keeper ∧
        found.vertices.get? keeper = some vertex ∧ rule.Preserved keeper

namespace Overlap

variable {rule : Rule} {graph : Hypergraph}

theorem opening_end (overlap : found.Overlap rule graph) {edge : EdgeId} {label : String}
    {ends : List VertexId} {index : Nat} {vertex : VertexId} (unmatched : edge ∉ found.edges.values)
    (stored : graph.skeleton.edge? edge = some (label, ends)) (atIndex : ends[index]? = some vertex) :
    found.block vertex = [] ∧ found.opening ⟨edge, index⟩ vertex = .inl vertex ∨
      ∃ keeper, found.vertices.get? keeper = some vertex ∧ rule.Preserved keeper ∧
        found.opening ⟨edge, index⟩ vertex = .inr keeper := by
  by_cases empty : found.block vertex = []
  · exact .inl ⟨empty, by rw [opening, owner, empty]⟩
  · obtain ⟨right, member⟩ := List.exists_mem_of_ne_nil _ empty
    have free : ∀ one, found.edges.get? one ≠ some edge :=
      fun one mapped => unmatched (Table.mem_values_iff.mpr ⟨one, mapped⟩)
    obtain ⟨keeper, owned, mapped, preserved⟩ :=
      overlap.owned free stored atIndex (mem_block.mp member)
    exact .inr ⟨keeper, mapped, preserved, by rw [opening, owned]⟩

theorem find?_matched (overlap : found.Overlap rule graph) {right edge : EdgeId}
    (mapped : found.edges.get? right = some edge) :
    (found.edges.entries.find? fun entry => entry.2 = edge) = some (right, edge) := by
  have member := Table.mem_entries_iff.mpr mapped
  cases search : found.edges.entries.find? fun entry => entry.2 = edge with
  | none =>
    have differs := List.find?_eq_none.mp search _ member
    simp at differs
  | some entry =>
    have same : entry.2 = edge := by simpa using List.find?_some search
    have stored : found.edges.get? entry.1 = some entry.2 :=
      Table.mem_entries_iff.mp (List.mem_of_find?_eq_some search)
    rw [same] at stored
    exact congrArg some (Prod.ext (overlap.edge_injective stored mapped) same)

theorem find?_unmatched {edge : EdgeId} (unmatched : edge ∉ found.edges.values) :
    (found.edges.entries.find? fun entry => entry.2 = edge) = none := by
  rw [List.find?_eq_none]
  intro entry member same
  exact unmatched (List.mem_map.mpr ⟨entry, member, of_decide_eq_true same⟩)

/-- What the overlap leaves of the graph. -/
def context (overlap : found.Overlap rule graph) (formed : graph.WellFormed) :
    Context rule VertexId EdgeId where
  vertex vertex := graph.hasVertex vertex = true ∧ found.block vertex = []
  edge? edge :=
    if edge ∈ found.edges.values then none
    else (graph.skeleton.edge? edge).map fun (label, ends) =>
      (label, ends.zipIdx.map fun entry => found.opening ⟨edge, entry.2⟩ entry.1)
  closed := by
    intro edge label ends stored place member
    split at stored
    · cases stored
    next unmatched =>
      obtain ⟨⟨label', vertices⟩, known, same⟩ := Option.map_eq_some_iff.mp stored
      cases same
      obtain ⟨⟨vertex, index⟩, inside, rfl⟩ := List.mem_map.mp member
      have atIndex := List.mem_zipIdx_iff_getElem?.mp inside
      rcases overlap.opening_end unmatched known atIndex with ⟨empty, opened⟩ |
        ⟨keeper, _, preserved, opened⟩
      · rw [opened]
        exact ⟨formed.closed _ _ _ known vertex (List.mem_of_getElem? atIndex), empty⟩
      · rw [opened]
        exact preserved

variable {overlap : found.Overlap rule graph} {formed : graph.WellFormed}

theorem context_edge {edge : EdgeId} {label : String} {places : List (VertexId ⊕ VertexId)} :
    (overlap.context formed).edge? edge = some (label, places) ↔ edge ∉ found.edges.values ∧
      ∃ ends, graph.skeleton.edge? edge = some (label, ends) ∧
        (ends.zipIdx.map fun entry => found.opening ⟨edge, entry.2⟩ entry.1) = places := by
  simp only [context]
  split
  next matched =>
    constructor
    · intro stored
      cases stored
    · intro known
      exact absurd matched known.1
  next unmatched =>
    rw [Option.map_eq_some_iff]
    constructor
    · intro stored
      obtain ⟨⟨label', ends⟩, known, same⟩ := stored
      cases same
      exact ⟨unmatched, ends, known, rfl⟩
    · intro stored
      obtain ⟨_, ends, known, rfl⟩ := stored
      exact ⟨⟨label, ends⟩, known, rfl⟩

/-- Where an edge of the graph is after the step. -/
def image (found : PartialMatch) (edge : EdgeId) : EdgeId ⊕ EdgeId :=
  match found.edges.entries.find? fun entry => entry.2 = edge with
  | some entry => .inr entry.1
  | none => .inl edge

/-- The vertices after the step that make up a vertex of the graph. -/
def Branch (found : PartialMatch) (graph : Hypergraph) (vertex : VertexId) :
    VertexId ⊕ VertexId → Prop
  | .inl kept => kept = vertex ∧ graph.hasVertex vertex = true ∧ found.block vertex = []
  | .inr right => found.vertices.get? right = some vertex

theorem image_matched (overlap : found.Overlap rule graph) {right edge : EdgeId}
    (mapped : found.edges.get? right = some edge) :
    image found edge = .inr right := by
  rw [image, overlap.find?_matched mapped]

theorem image_unmatched {edge : EdgeId} (unmatched : edge ∉ found.edges.values) :
    image found edge = .inl edge := by
  rw [image, find?_unmatched unmatched]

private theorem matched_of_image {edge right : EdgeId} (same : image found edge = .inr right) :
    found.edges.get? right = some edge := by
  rw [image] at same
  split at same
  next entry search =>
    cases same
    have equal : entry.2 = edge := by simpa using List.find?_some search
    rw [← equal]
    exact Table.mem_entries_iff.mp (List.mem_of_find?_eq_some search)
  · cases same

private theorem image_inl {edge kept : EdgeId} (same : image found edge = .inl kept) :
    kept = edge := by
  rw [image] at same
  split at same
  · cases same
  · exact (Sum.inl.inj same).symm

/-- After the step the graph lies below what its context has become. -/
def model (overlap : found.Overlap rule graph) (formed : graph.WellFormed) :
    Skeleton.Model graph.skeleton (overlap.context formed).after where
  image := image found
  branch := Branch found graph
  branch_inside {vertex member} inside := by
    cases member with
    | inl kept =>
      obtain ⟨rfl, present, empty⟩ := inside
      exact ⟨present, present, empty⟩
    | inr right => exact (overlap.vertex_sides inside).symm
  branch_apart {one other member} first second := by
    cases member with
    | inl kept => exact first.1.symm.trans second.1
    | inr right => exact Option.some.inj (first.symm.trans second)
  branch_nonempty {vertex} present := by
    by_cases empty : found.block vertex = []
    · exact ⟨.inl vertex, rfl, present, empty⟩
    · obtain ⟨right, member⟩ := List.exists_mem_of_ne_nil _ empty
      exact ⟨.inr right, mem_block.mp member⟩
  branch_joined {vertex first second} atFirst atSecond := by
    cases first <;> cases second
    case inl.inl one other =>
      rw [show one = other from atFirst.1.trans atSecond.1.symm]
      exact .refl
    case inl.inr one right => exact absurd atSecond (block_eq_nil.mp atFirst.2.2 right)
    case inr.inl right other => exact absurd atFirst (block_eq_nil.mp atSecond.2.2 right)
    case inr.inr one other =>
      refine Relation.ReflTransGen.lift Sum.inr (fun left right link => ?_) one other
        (overlap.connected atFirst atSecond)
      obtain ⟨here, there, edge, label, ends, free, known, leftOn, rightOn⟩ := link
      refine ⟨here, there, .inr edge, label, _, fun source _ same => ?_,
        Context.fill_side.mpr ⟨ends, known, rfl⟩,
        List.mem_map_of_mem leftOn, List.mem_map_of_mem rightOn⟩
      rw [matched_of_image same] at free
      cases free
  image_injective {one other} _ _ same := by
    cases target : image found other with
    | inl kept => exact (image_inl (same.trans target)).symm.trans (image_inl target)
    | inr right =>
      exact Option.some.inj ((matched_of_image (same.trans target)).symm.trans
        (matched_of_image target))
  image_kept {edge label ends} stored := by
    by_cases matched : edge ∈ found.edges.values
    · obtain ⟨right, mapped⟩ := Table.mem_values_iff.mp matched
      obtain ⟨label', rightEnds, others, there, here, along⟩ := overlap.edge_sides mapped
      rw [stored, Option.some.injEq, Prod.mk.injEq] at here
      obtain ⟨rfl, rfl⟩ := here
      rw [image_matched overlap mapped]
      refine ⟨_, Context.fill_side.mpr ⟨rightEnds, there, rfl⟩, ?_⟩
      rw [List.forall₂_map_right_iff]
      exact along.flip
    · rw [image_unmatched matched]
      refine ⟨_, Context.after_context.mpr (context_edge.mpr ⟨matched, ends, stored, rfl⟩), ?_⟩
      refine Listing.along_of_getElem? (by simp) fun index vertex place atVertex atPlace => ?_
      rw [Listing.getElem?_map_zipIdx, atVertex, Option.map_some, Option.some.injEq] at atPlace
      subst atPlace
      rcases overlap.opening_end matched stored atVertex with ⟨empty, opened⟩ |
        ⟨keeper, mapped, _, opened⟩
      · rw [opened]
        exact ⟨rfl, formed.closed _ _ _ stored vertex (List.mem_of_getElem? atVertex), empty⟩
      · rw [opened]
        exact mapped

theorem model_single (overlap : found.Overlap rule graph) (formed : graph.WellFormed)
    (injective : ∀ {one other vertex}, found.vertices.get? one = some vertex →
      found.vertices.get? other = some vertex → one = other) :
    (overlap.model formed).Single := by
  intro vertex first second atFirst atSecond
  cases first <;> cases second
  case inl.inl one other => exact congrArg Sum.inl (atFirst.1.trans atSecond.1.symm)
  case inl.inr one right => exact absurd atSecond (block_eq_nil.mp atFirst.2.2 right)
  case inr.inl right other => exact absurd atFirst (block_eq_nil.mp atSecond.2.2 right)
  case inr.inr one other => exact congrArg Sum.inr (injective atFirst atSecond)

end Overlap

end PartialMatch

end Coverability
