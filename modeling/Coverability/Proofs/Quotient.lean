import Coverability.Proofs.Blocks
import Coverability.Proofs.Merging

/-! What merging makes of a graph. Some vertices stand for others: they are left, and each takes the
place of those it stands for in every edge. Merges made one after another make one such replacement, and
the graph is told up to the choice of the vertices that are left by which vertices come to be one. -/

namespace Coverability

open Relation (EqvGen)
open Skeleton (Iso)

/-- The edge with every vertex replaced by the one that stands for it. -/
def Edge.through (edge : Edge) (stand : VertexId → VertexId) : Edge :=
  { edge with vertices := edge.vertices.map stand }

namespace Hypergraph

variable {graph now after last : Hypergraph} {stand next : VertexId → VertexId}
  {kept merged : VertexId}

/-- The second graph is the first with every vertex replaced by the one that stands for it. -/
structure Quotient (graph : Hypergraph) (stand : VertexId → VertexId)
    (after : Hypergraph) : Prop where
  formed : after.WellFormed
  name : after.name = graph.name
  nextId : after.nextId = graph.nextId
  vertex_iff : ∀ vertex, after.hasVertex vertex = true ↔ graph.hasVertex vertex = true ∧
    stand vertex = vertex
  inside : ∀ vertex, graph.hasVertex vertex = true → after.hasVertex (stand vertex) = true
  edges : ∀ id, after.edge? id = (graph.edge? id).map (Edge.through · stand)

namespace Quotient

theorem refl (formed : graph.WellFormed) : graph.Quotient id graph where
  formed := formed
  name := rfl
  nextId := rfl
  vertex_iff vertex := by simp
  inside vertex present := present
  edges id := by simp [Edge.through]

theorem congr (quotient : graph.Quotient stand after)
    (same : ∀ vertex, stand vertex = next vertex) : graph.Quotient next after :=
  (funext same : stand = next) ▸ quotient

theorem stand_stand (quotient : graph.Quotient stand after) {vertex : VertexId}
    (present : graph.hasVertex vertex = true) :
    stand (stand vertex) = stand vertex :=
  ((quotient.vertex_iff _).mp (quotient.inside vertex present)).2

theorem trans (quotient : graph.Quotient stand now) (other : now.Quotient next after) :
    graph.Quotient (next ∘ stand) after where
  formed := other.formed
  name := other.name.trans quotient.name
  nextId := other.nextId.trans quotient.nextId
  inside vertex present := other.inside _ (quotient.inside vertex present)
  edges id := by
    rw [other.edges, quotient.edges, Option.map_map]
    simp [Edge.through, Function.comp_def]
  vertex_iff vertex := by
    rw [other.vertex_iff, quotient.vertex_iff]
    constructor
    · intro known
      obtain ⟨⟨present, fixed⟩, still⟩ := known
      exact ⟨present, (congrArg next fixed).trans still⟩
    · intro known
      obtain ⟨present, fixed⟩ := known
      have left : after.hasVertex (next (stand vertex)) = true :=
        other.inside _ (quotient.inside vertex present)
      rw [show next (stand vertex) = vertex from fixed, other.vertex_iff, quotient.vertex_iff] at left
      exact left

/-- Two graphs made by bringing the same vertices together are isomorphic by a map that
fixes every edge. -/
def iso (formed : graph.WellFormed) (quotient : graph.Quotient stand after)
    (other : graph.Quotient next last)
    (same : ∀ one other, stand one = stand other ↔ next one = next other) :
    Iso after.skeleton last.skeleton where
  vertex := next
  edge := id
  vertex_inside := fun present => other.inside _ ((quotient.vertex_iff _).mp present).1
  vertex_injective := by
    intro first second atFirst atSecond equal
    have equal : stand first = stand second := (same first second).mpr equal
    rwa [((quotient.vertex_iff _).mp atFirst).2, ((quotient.vertex_iff _).mp atSecond).2] at equal
  vertex_surjective := by
    intro target present
    obtain ⟨known, fixed⟩ := (other.vertex_iff target).mp present
    have equal : next (stand target) = next target := (same _ _).mp (quotient.stand_stand known)
    exact ⟨stand target, quotient.inside target known, equal.trans fixed⟩
  edge_kept := by
    intro one label ends stored
    obtain ⟨edge, found, rfl, rfl⟩ := skeleton_edge_iff.mp stored
    rw [quotient.edges] at found
    obtain ⟨old, known, rfl⟩ := Option.map_eq_some_iff.mp found
    have there : last.edge? one = some (old.through next) := by
      rw [other.edges, known, Option.map_some]
    have ends : (old.vertices.map stand).map next = old.vertices.map next := by
      rw [List.map_map]
      apply List.map_congr_left
      intro vertex member
      exact (same _ _).mp (quotient.stand_stand (formed.has_ends known member))
    exact (skeleton_edge there).trans (congrArg some (Prod.ext rfl ends.symm))
  edge_injective := fun _ _ equal => equal
  edge_surjective := by
    intro target stored
    obtain ⟨edge, found⟩ := skeleton_hasEdge.mp stored
    rw [other.edges] at found
    obtain ⟨old, known, rfl⟩ := Option.map_eq_some_iff.mp found
    exact ⟨target, skeleton_hasEdge.mpr ⟨old.through stand,
      by rw [quotient.edges, known, Option.map_some]⟩, rfl⟩

end Quotient

theorem redirect_quotient (formed : graph.WellFormed) (atKept : graph.hasVertex kept = true)
    (different : merged ≠ kept) :
    graph.Quotient (fun vertex => if vertex = merged then kept else vertex)
      (graph.redirect merged kept) where
  formed := redirect_wellFormed formed atKept different
  name := rfl
  nextId := nextId_redirect
  edges id := edge?_redirect formed
  vertex_iff vertex := by
    rw [hasVertex_redirect]
    by_cases same : vertex = merged
    · simp [same, different.symm]
    · simp [same]
  inside vertex present := by
    rw [hasVertex_redirect]
    by_cases same : vertex = merged
    · simp [same, different.symm, atKept]
    · simp [same, present]

theorem mergeVertices_quotient (formed : graph.WellFormed) (atKept : graph.hasVertex kept = true)
    (atMerged : graph.hasVertex merged = true) :
    ∃ after, graph.mergeVertices kept merged = (.ok kept, after) ∧
      graph.Quotient (fun vertex => if vertex = merged then kept else vertex) after := by
  rw [mergeVertices]
  by_cases same : kept = merged
  · rw [if_pos same]
    exact ⟨graph, rfl, (Quotient.refl formed).congr fun vertex => by grind⟩
  · have known : ([kept, merged].find? fun vertex => !graph.hasVertex vertex) =
      none := by simp [atKept, atMerged]
    rw [if_neg same, known]
    exact ⟨_, rfl, redirect_quotient formed atKept (Ne.symm same)⟩

/-! ### Sets of vertices -/

/-- The first vertex comes to stand for the listed ones. -/
def gathered (kept : VertexId) (listed : List VertexId) (vertex : VertexId) : VertexId :=
  if vertex ∈ listed then kept else vertex

theorem mergeAllVertices_quotient {rest : List VertexId} (formed : graph.WellFormed)
    (distinct : (kept :: rest).Nodup)
    (present : ∀ vertex ∈ kept :: rest, graph.hasVertex vertex = true) :
    ∃ after, graph.mergeAllVertices kept rest = (.ok kept, after) ∧
      graph.Quotient (gathered kept rest) after := by
  induction rest generalizing graph with
  | nil => exact ⟨graph, rfl, (Quotient.refl formed).congr fun vertex => by simp [gathered]⟩
  | cons merged rest ih =>
    obtain ⟨atKept, atMerged, atRest⟩ : graph.hasVertex kept = true ∧ graph.hasVertex merged = true ∧
        ∀ vertex ∈ rest, graph.hasVertex vertex = true := by simpa using present
    obtain ⟨now, result, step⟩ := mergeVertices_quotient formed atKept atMerged
    have still : ∀ vertex ∈ kept :: rest, now.hasVertex vertex = true := by
      intro vertex member
      rw [step.vertex_iff]
      grind
    obtain ⟨after, results, run⟩ := ih step.formed (by grind) still
    refine ⟨after, ?_, (step.trans run).congr ?_⟩
    · rw [mergeAllVertices, result]
      exact results
    · intro vertex
      grind [gathered]

/-- The edges hold the first vertex in place of the rest, which are gone, and nothing else has changed. -/
theorem mergeVertexSet_gathers {rest : List VertexId} (formed : graph.WellFormed)
    (distinct : (kept :: rest).Nodup)
    (present : ∀ vertex ∈ kept :: rest, graph.hasVertex vertex = true) :
    ∃ after, graph.mergeVertexSet (kept :: rest) = (.ok kept, after) ∧
      graph.Quotient (gathered kept (kept :: rest)) after := by
  obtain ⟨after, result, quotient⟩ := mergeAllVertices_quotient formed distinct present
  refine ⟨after, result, quotient.congr ?_⟩
  intro vertex
  grind [gathered]

/-- Merges one group of vertices after another. -/
def mergeGroups (graph : Hypergraph) : List (List VertexId) → Except Fault Unit × Hypergraph
  | [] => (.ok (), graph)
  | group :: rest =>
    match graph.mergeVertexSet group with
    | (.ok _, graph) => graph.mergeGroups rest
    | (.error fault, graph) => (.error fault, graph)

/-- Merging the groups one after another makes one vertex of the listed ones. A group takes any of
the vertices that are left, and its first vertex is left in turn. -/
inductive Gathers : List VertexId → List (List VertexId) → Prop where
  | done {vertex : VertexId} : Gathers [vertex] []
  | merge {listed : List VertexId} {first : VertexId} {others : List VertexId}
      {groups : List (List VertexId)}
      (distinct : (first :: others).Nodup) (within : ∀ vertex ∈ first :: others, vertex ∈ listed)
      (later : Gathers (listed.filter (· ∉ others)) groups) :
        Gathers listed ((first :: others) :: groups)

theorem mergeGroups_gathers {listed : List VertexId} {groups : List (List VertexId)}
    (formed : graph.WellFormed) (gathers : Gathers listed groups)
    (present : ∀ vertex ∈ listed, graph.hasVertex vertex = true) :
    ∃ kept ∈ listed, ∃ last, graph.mergeGroups groups = (.ok (), last) ∧
      graph.Quotient (gathered kept listed) last := by
  induction gathers generalizing graph with
  | @done vertex =>
    refine ⟨vertex, List.mem_singleton.mpr rfl, graph, rfl, (Quotient.refl formed).congr ?_⟩
    intro other
    simp [gathered, eq_comm]
  | @merge listed first others groups distinct within _ ih =>
    obtain ⟨now, result, step⟩ :=
      mergeVertexSet_gathers formed distinct fun vertex member =>
        present vertex (within vertex member)
    have still : ∀ vertex ∈ listed.filter (· ∉ others), now.hasVertex vertex = true := by
      intro vertex member
      rw [step.vertex_iff]
      grind [gathered]
    obtain ⟨kept, member, last, results, run⟩ := ih step.formed still
    refine ⟨kept, (List.mem_filter.mp member).1, last, ?_, (step.trans run).congr ?_⟩
    · rw [mergeGroups, result]
      exact results
    · intro vertex
      grind [gathered]

/-- The graphs are isomorphic by a map that fixes every edge and every vertex that is not listed. -/
def IsomorphicOff (listed : List VertexId) (first second : Hypergraph) : Prop :=
  ∃ iso : Iso first.skeleton second.skeleton, (∀ id, iso.edge id = id) ∧
    ∀ vertex, vertex ∉ listed → iso.vertex vertex = vertex

private theorem gathered_eq_iff {listed : List VertexId} (member : kept ∈ listed)
    {one other : VertexId} :
    gathered kept listed one = gathered kept listed other ↔ one = other ∨ one ∈ listed ∧
    other ∈ listed := by
  grind [gathered]

private theorem isomorphicOff_of_gathered {listed others : List VertexId} {first second : VertexId}
    (formed : graph.WellFormed) (quotient : graph.Quotient (gathered first listed) after)
    (atFirst : first ∈ listed) (other : graph.Quotient (gathered second others) last)
    (atSecond : second ∈ others) (same : ∀ vertex, vertex ∈ listed ↔ vertex ∈ others) :
    IsomorphicOff listed after last := by
  have kernel : ∀ one other, gathered first listed one = gathered first listed other ↔
      gathered second others one = gathered second others other := by
    intro one other
    rw [gathered_eq_iff atFirst, gathered_eq_iff atSecond, same, same]
  refine ⟨quotient.iso formed other kernel, fun id => rfl, ?_⟩
  intro vertex outside
  exact if_neg (mt (same vertex).mpr outside)

/-- Distinct vertices are replaced by the first of them. Merged in another order, or in groups one
after another, they make the same graph up to a map that fixes every edge and every other vertex. -/
theorem mergeVertexSet_exact {first : VertexId} {rest : List VertexId} (formed : graph.WellFormed)
    (distinct : (first :: rest).Nodup)
    (present : ∀ vertex ∈ first :: rest, graph.hasVertex vertex = true) :
    ∃ after, graph.mergeVertexSet (first :: rest) = (.ok first, after) ∧
      after.WellFormed ∧ after.name = graph.name ∧ after.nextId = graph.nextId ∧
      (∀ vertex, after.hasVertex vertex = true ↔ graph.hasVertex vertex = true ∧ vertex ∉ rest) ∧
      (∀ id, after.edge? id = (graph.edge? id).map fun edge =>
        { edge with
          vertices := edge.vertices.map fun vertex =>
            if vertex ∈ first :: rest then first else vertex }) ∧
      (∀ others, List.Perm others (first :: rest) → ∃ kept last, others.head? = some kept ∧
        graph.mergeVertexSet others = (.ok kept, last) ∧ IsomorphicOff (first :: rest) after last) ∧
      ∀ groups, Gathers (first :: rest) groups → ∃ last, graph.mergeGroups groups = (.ok (), last) ∧
        IsomorphicOff (first :: rest) after last := by
  obtain ⟨after, result, quotient⟩ := mergeVertexSet_gathers formed distinct present
  refine ⟨after, result, quotient.formed, quotient.name, quotient.nextId, ?_, quotient.edges, ?_, ?_⟩
  · intro vertex
    rw [quotient.vertex_iff]
    grind [gathered]
  · intro others perm
    cases others with
    | nil => exact absurd perm.symm.eq_nil (List.cons_ne_nil first rest)
    | cons kept others =>
      obtain ⟨last, results, other⟩ := mergeVertexSet_gathers formed (perm.nodup_iff.mpr distinct)
        fun vertex member => present vertex (perm.mem_iff.mp member)
      exact ⟨kept, last, rfl, results,
        isomorphicOff_of_gathered formed quotient List.mem_cons_self other List.mem_cons_self
        fun vertex => perm.mem_iff.symm⟩
  · intro groups gathers
    obtain ⟨kept, member, last, results, other⟩ := mergeGroups_gathers formed gathers present
    exact ⟨last, results,
      isomorphicOff_of_gathered formed quotient List.mem_cons_self other member fun vertex => .rfl⟩

/-- An edge runs through three vertices and another touches one of them twice. They are merged at
once, backwards, and two at a time. -/
theorem mergeVertexSet_folds : ∃ after back folded,
    (ofEdges 4 [("E", [0, 1, 2]), ("F", [2, 3, 2])]).mergeVertexSet [⟨0⟩, ⟨1⟩, ⟨2⟩] =
      (.ok ⟨0⟩, after) ∧
      after.edge? ⟨5⟩ = some ⟨⟨5⟩, "F", [⟨0⟩, ⟨3⟩, ⟨0⟩]⟩ ∧
      (ofEdges 4 [("E", [0, 1, 2]), ("F", [2, 3, 2])]).mergeVertexSet [⟨2⟩, ⟨1⟩, ⟨0⟩] =
        (.ok ⟨2⟩, back) ∧
      IsomorphicOff [⟨0⟩, ⟨1⟩, ⟨2⟩] after back ∧
      (ofEdges 4 [("E", [0, 1, 2]), ("F", [2, 3, 2])]).mergeGroups [[⟨1⟩, ⟨2⟩], [⟨1⟩, ⟨0⟩]] =
        (.ok (), folded) ∧
      IsomorphicOff [⟨0⟩, ⟨1⟩, ⟨2⟩] after folded := by
  have formed : (ofEdges 4 [("E", [0, 1, 2]), ("F", [2, 3, 2])]).WellFormed := by decide +kernel
  have distinct : ([⟨0⟩, ⟨1⟩, ⟨2⟩] : List VertexId).Nodup := by decide
  have present : ∀ vertex ∈ ([⟨0⟩, ⟨1⟩, ⟨2⟩] : List VertexId),
      (ofEdges 4 [("E", [0, 1, 2]), ("F", [2, 3, 2])]).hasVertex vertex = true := by decide +kernel
  obtain ⟨after, result, _, _, _, _, edges, orders, groupings⟩ :=
    mergeVertexSet_exact formed distinct present
  obtain ⟨kept, back, head, backwards, isomorphic⟩ := orders [⟨2⟩, ⟨1⟩, ⟨0⟩] (by decide)
  cases Option.some.inj head
  have gathers : Gathers [⟨0⟩, ⟨1⟩, ⟨2⟩] [[⟨1⟩, ⟨2⟩], [⟨1⟩, ⟨0⟩]] :=
    .merge (by decide) (by decide) (.merge (by decide) (by decide) .done)
  obtain ⟨folded, twice, same⟩ := groupings [[⟨1⟩, ⟨2⟩], [⟨1⟩, ⟨0⟩]] gathers
  refine ⟨after, back, folded, result, ?_, backwards, isomorphic, twice, same⟩
  rw [edges]
  decide +kernel

/-! ### Edges -/

/-- Both edges are there, with one label and one arity. -/
def Mergeable (graph : Hypergraph) (kept merged : EdgeId) : Prop :=
  ∃ first second, graph.edge? kept = some first ∧ graph.edge? merged = some second ∧
    first.shape = second.shape

/-- Two edges have the vertices at the position. -/
def Opposite (first second : Edge) (position : Nat) (one other : VertexId) : Prop :=
  first.vertices[position]? = some one ∧ second.vertices[position]? = some other

/-- The positions that are done have brought the vertices of a relation together, and the later ones
bring their own together as well. Where both edges already hold one vertex, the relation has
connected the two before. -/
theorem mergePositions_quotient {first second : Edge} {positions : List Nat}
    {pair : VertexId → VertexId → Prop} {kept merged : EdgeId} (formed : graph.WellFormed)
    (atKept : graph.edge? kept = some first) (atMerged : graph.edge? merged = some second)
    (within : ∀ position ∈ positions, position < first.arity ∧ position < second.arity)
    (quotient : graph.Quotient stand now)
    (told : ∀ one other, stand one = stand other ↔ EqvGen pair one other) :
    ∃ next last, now.mergePositions kept merged positions = (.ok (), last) ∧
      graph.Quotient next last ∧ ∀ one other, next one = next other ↔
      EqvGen (fun two three => pair two three ∨
        ∃ position ∈ positions, Opposite first second position two three) one other := by
  induction positions generalizing now stand pair with
  | nil =>
    refine ⟨stand, now, rfl, quotient, ?_⟩
    simpa using told
  | cons position rest ih =>
    obtain ⟨inFirst, inSecond⟩ := within position List.mem_cons_self
    obtain ⟨one, atFirst⟩ : ∃ one, first.vertices[position]? = some one :=
      ⟨_, List.getElem?_eq_getElem inFirst⟩
    obtain ⟨other, atSecond⟩ : ∃ other, second.vertices[position]? = some other :=
      ⟨_, List.getElem?_eq_getElem inSecond⟩
    have read : ∀ {id edge vertex}, graph.edge? id = some edge →
        edge.vertices[position]? = some vertex →
        ((now.edge? id).bind fun found => found.vertices[position]?) = some (stand vertex) ∧
        now.hasVertex (stand vertex) = true := by
      intro id edge vertex stored there
      constructor
      · rw [quotient.edges, stored, Option.map_some, Option.bind_some, Edge.through,
          List.getElem?_map, there, Option.map_some]
      · exact quotient.inside vertex (formed.has_ends stored (List.mem_of_getElem? there))
    obtain ⟨readKept, oneThere⟩ := read atKept atFirst
    obtain ⟨readMerged, otherThere⟩ := read atMerged atSecond
    obtain ⟨joined, result, step⟩ := mergeVertices_quotient quotient.formed oneThere otherThere
    obtain ⟨next, last, results, run, kernel⟩ :=
      ih (fun place member => within place (List.mem_cons_of_mem _ member))
        (quotient.trans step) (eqvGen_join told one other)
    refine ⟨next, last, ?_, run, ?_⟩
    · rw [mergePositions]
      simp only [readKept, readMerged, result]
      exact results
    · have here : ∀ two three, Opposite first second position two three ↔
          two = one ∧ three = other := by
        intro two three
        simp only [Opposite, atFirst, atSecond, Option.some.injEq, eq_comm]
      simpa only [List.mem_cons, exists_eq_or_imp, here, or_assoc] using kernel

private theorem mergeEdges_joins {first second : Edge} {kept merged : EdgeId}
    (formed : graph.WellFormed) (different : kept ≠ merged) (atKept : graph.edge? kept = some first)
    (atMerged : graph.edge? merged = some second) (same : first.shape = second.shape) :
    ∃ stand last, graph.mergeEdges kept merged = (.ok kept, last.deleteEdge merged) ∧
      graph.Quotient stand last ∧
      ∀ one other, stand one = stand other ↔
        EqvGen (fun two three => ∃ position, Opposite first second position two three) one other := by
  have arity : first.arity = second.arity := congrArg Prod.snd same
  have within : ∀ position ∈ List.range first.arity, position < first.arity ∧
      position < second.arity :=
    fun position member => ⟨List.mem_range.mp member, arity ▸ List.mem_range.mp member⟩
  obtain ⟨stand, last, result, quotient, kernel⟩ :=
    mergePositions_quotient formed atKept atMerged within (Quotient.refl formed)
      fun one other => eq_iff_eqvGen
  refine ⟨stand, last, ?_, quotient, ?_⟩
  · rw [mergeEdges, if_neg different]
    simp only [atKept, atMerged, same, ne_eq, not_true_eq_false, if_false, result]
  · have listed : ∀ two three,
        (∃ position ∈ List.range first.arity, Opposite first second position two three) ↔
        ∃ position, Opposite first second position two three := by
      intro two three
      apply exists_congr
      intro position
      apply and_iff_right_of_imp
      intro there
      exact List.mem_range.mpr (List.getElem?_eq_some_iff.mp there.1).1
    simpa only [listed, false_or] using kernel

private theorem mergeEdges_fails {kept merged : EdgeId} (different : kept ≠ merged)
    (apart : ¬graph.Mergeable kept merged) :
    ∃ fault, graph.mergeEdges kept merged = (.error fault, graph) ∧
      (fault = .mergeOfUnknownEdge kept merged ∨
      ∃ first second, graph.edge? kept = some first ∧ graph.edge? merged = some second ∧
        fault = .mergeOfShapes first.label first.arity second.label second.arity) := by
  rw [mergeEdges, if_neg different]
  split
  next first second atKept atMerged =>
    have unlike : first.shape ≠ second.shape :=
      fun same => apart ⟨first, second, atKept, atMerged, same⟩
    rw [if_pos unlike]
    exact ⟨_, rfl, .inr ⟨first, second, atKept, atMerged, rfl⟩⟩
  · exact ⟨_, rfl, .inl rfl⟩

/-- Merging two edges fails just if one is missing or their shapes differ, and then nothing has
changed. Otherwise the vertices at each position come to be one, with what follows from that by
equivalence, and the second edge is gone. -/
theorem mergeEdges_exact {kept merged : EdgeId} (formed : graph.WellFormed)
    (different : kept ≠ merged) :
    ((∃ fault, (graph.mergeEdges kept merged).1 = .error fault) ↔ ¬graph.Mergeable kept merged) ∧
      (∀ fault, (graph.mergeEdges kept merged).1 = .error fault →
        (graph.mergeEdges kept merged).2 = graph ∧
        (fault = .mergeOfUnknownEdge kept merged ∨
          ∃ first second, graph.edge? kept = some first ∧ graph.edge? merged = some second ∧
          fault = .mergeOfShapes first.label first.arity second.label second.arity)) ∧
      ∀ first second, graph.edge? kept = some first → graph.edge? merged = some second →
        first.shape = second.shape →
        ∃ stand after, graph.mergeEdges kept merged = (.ok kept, after) ∧
          (∀ one other, stand one = stand other ↔
            EqvGen (fun two three => ∃ position, Opposite first second position two three)
              one other) ∧
          after.WellFormed ∧ after.name = graph.name ∧ after.nextId = graph.nextId ∧
          (∀ vertex, after.hasVertex vertex = true ↔ graph.hasVertex vertex = true ∧
            stand vertex = vertex) ∧
          (∀ vertex, graph.hasVertex vertex = true → after.hasVertex (stand vertex) = true) ∧
          ∀ id, after.edge? id = if id = merged then none
            else (graph.edge? id).map fun edge =>
              { edge with vertices := edge.vertices.map stand } := by
  have failed : ∀ fault, (graph.mergeEdges kept merged).1 = .error fault →
      ¬graph.Mergeable kept merged := by
    intro fault result known
    obtain ⟨first, second, atKept, atMerged, same⟩ := known
    obtain ⟨_, _, succeeded, _⟩ := mergeEdges_joins formed different atKept atMerged same
    rw [succeeded] at result
    cases result
  refine ⟨?_, ?_, ?_⟩
  · constructor
    · intro known
      obtain ⟨fault, result⟩ := known
      exact failed fault result
    · intro apart
      obtain ⟨fault, result, _⟩ := mergeEdges_fails different apart
      exact ⟨fault, congrArg Prod.fst result⟩
  · intro fault result
    obtain ⟨found, stopped, reason⟩ := mergeEdges_fails different (failed fault result)
    rw [stopped] at result
    cases result
    exact ⟨congrArg Prod.snd stopped, reason⟩
  · intro first second atKept atMerged same
    obtain ⟨stand, last, result, quotient, kernel⟩ :=
      mergeEdges_joins formed different atKept atMerged same
    refine ⟨stand, _, result, kernel, deleteEdge_wellFormed quotient.formed,
      name_deleteEdge.trans quotient.name, nextId_deleteEdge.trans quotient.nextId, ?_, ?_, ?_⟩
    · intro vertex
      rw [hasVertex_deleteEdge]
      exact quotient.vertex_iff vertex
    · intro vertex present
      rw [hasVertex_deleteEdge]
      exact quotient.inside vertex present
    · intro id
      rw [edge?_deleteEdge, quotient.edges]
      rfl

/-- An edge runs through three vertices and the other crosses it, so that the merges at the first
two positions leave nothing to do at the third. A third edge comes to touch the one vertex twice. -/
theorem mergeEdges_crossed : ∃ (stand : VertexId → VertexId) (after : Hypergraph),
    (ofEdges 4 [("E", [0, 1, 2]), ("E", [1, 2, 0]), ("F", [2, 0, 3])]).mergeEdges ⟨4⟩ ⟨5⟩ =
      (.ok ⟨4⟩, after) ∧
      stand ⟨0⟩ = stand ⟨2⟩ ∧ stand ⟨0⟩ ≠ stand ⟨3⟩ ∧ after.hasVertex (stand ⟨0⟩) = true ∧
      after.edge? ⟨5⟩ = none ∧
      after.edge? ⟨6⟩ = some ⟨⟨6⟩, "F", [stand ⟨0⟩, stand ⟨0⟩, stand ⟨3⟩]⟩ := by
  have formed : (ofEdges 4 [("E", [0, 1, 2]), ("E", [1, 2, 0]), ("F", [2, 0, 3])]).WellFormed := by
    decide +kernel
  have atKept : (ofEdges 4 [("E", [0, 1, 2]), ("E", [1, 2, 0]), ("F", [2, 0, 3])]).edge? ⟨4⟩ =
      some ⟨⟨4⟩, "E", [⟨0⟩, ⟨1⟩, ⟨2⟩]⟩ := by decide +kernel
  have atMerged : (ofEdges 4 [("E", [0, 1, 2]), ("E", [1, 2, 0]), ("F", [2, 0, 3])]).edge? ⟨5⟩ =
      some ⟨⟨5⟩, "E", [⟨1⟩, ⟨2⟩, ⟨0⟩]⟩ := by decide +kernel
  have stored : (ofEdges 4 [("E", [0, 1, 2]), ("E", [1, 2, 0]), ("F", [2, 0, 3])]).edge? ⟨6⟩ =
      some ⟨⟨6⟩, "F", [⟨2⟩, ⟨0⟩, ⟨3⟩]⟩ := by decide +kernel
  have different : (⟨4⟩ : EdgeId) ≠ ⟨5⟩ := by decide
  obtain ⟨_, _, merges⟩ := mergeEdges_exact formed different
  obtain ⟨stand, after, result, kernel, _, _, _, _, inside, edges⟩ := merges _ _ atKept atMerged rfl
  have joined : stand ⟨0⟩ = stand ⟨2⟩ := (kernel _ _).mpr (EqvGen.symm _ _ (.rel _ _ ⟨2, rfl, rfl⟩))
  have apart : stand ⟨0⟩ ≠ stand ⟨3⟩ := by
    intro same
    have agrees : ∀ one other : VertexId,
        (∃ position,
          Opposite ⟨⟨4⟩, "E", [⟨0⟩, ⟨1⟩, ⟨2⟩]⟩ ⟨⟨5⟩, "E", [⟨1⟩, ⟨2⟩, ⟨0⟩]⟩ position one other) →
        decide (one = ⟨3⟩) = decide (other = ⟨3⟩) := by
      intro one other known
      obtain ⟨position, first, second⟩ := known
      rcases position with _ | _ | _ | position <;> cases first <;> cases second <;> rfl
    cases eqvGen_value agrees ((kernel _ _).mp same)
  refine ⟨stand, after, result, joined, apart, inside _ (by decide +kernel), ?_, ?_⟩
  · rw [edges, if_pos rfl]
  · rw [edges, if_neg (by decide), stored]
    simp [joined]

end Hypergraph

end Coverability
