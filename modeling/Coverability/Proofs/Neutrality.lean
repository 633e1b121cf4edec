import Coverability.Proofs.RigidMatches

/-! What contraction adds to the search for matches. The matches that keep the vertices apart are
the same with and without it, in one order. Where vertices may share images the search does not ask
for room at the image of a created vertex. To ask for it leaves out no match, since a match that
ends up there would leave an edge dangling. -/

namespace Coverability

namespace Matching

variable {rule : Rule} {graph : Hypergraph} {contract : Bool} {found : PartialMatch}
  {vertices : Table VertexId VertexId}

/-- The matches that place the vertices in a given way. -/
def completions (matching : Matching) (vertices : Table VertexId VertexId) : List PartialMatch :=
  (matching.edgeMaps vertices (eligible matching vertices) ∅).flatMap fun edges =>
    matching.finish { vertices, edges }

/-- The maps that send a vertex to any image that is still free. -/
def freeMaps (rule : Rule) (graph : Hypergraph) : List (Table VertexId VertexId) :=
  extensions (fun images _ => graph.vertexIds.filter fun image => image ∉ images.values)
    rule.right.vertexIds ∅

/-- The search that keeps vertices apart but does not ask for room at the image of a created one. -/
def freeMatches (rule : Rule) (graph : Hypergraph) : List PartialMatch :=
  (freeMaps rule graph).flatMap (completions ⟨rule, graph, false⟩)

/-- Every created vertex has at least as many incidences in the rule as its image has in the graph. -/
def Roomy (rule : Rule) (graph : Hypergraph) (vertices : Table VertexId VertexId) : Prop :=
  ∀ right vertex, vertices.get? right = some vertex → right ∈ rule.createdVertices →
    graph.degree vertex ≤ rule.right.degree right

instance : DecidablePred (Roomy rule graph) := fun vertices =>
  decidable_of_iff (∀ entry ∈ vertices.entries, entry.1 ∈ rule.createdVertices →
    graph.degree entry.2 ≤ rule.right.degree entry.1)
    ⟨fun room _ _ mapped => room _ (Table.mem_entries_iff.mpr mapped),
      fun room _ member => room _ _ (Table.mem_entries_iff.mp member)⟩

private theorem all_eq {matching : Matching} : matching.all =
    (matching.vertexMaps matching.rule.right.vertexIds ∅).flatMap matching.completions := rfl

private theorem edgeMaps_contract (rest : List EdgeId) (images : Table EdgeId EdgeId) :
    edgeMaps ⟨rule, graph, contract⟩ vertices rest images =
      edgeMaps ⟨rule, graph, false⟩ vertices rest images := by
  induction rest generalizing images with
  | nil => rfl
  | cons first rest ih =>
    simp only [edgeMaps, ih]
    rfl

private theorem completions_contract :
    completions ⟨rule, graph, contract⟩ vertices = completions ⟨rule, graph, false⟩ vertices := by
  rw [completions, edgeMaps_contract]
  rfl

private theorem mem_completions {matching : Matching} : found ∈ matching.completions vertices ↔
    ∃ edges ∈ matching.edgeMaps vertices (eligible matching vertices) ∅,
      found ∈ matching.finish { vertices, edges } := List.mem_flatMap

private theorem vertices_of_completions {matching : Matching}
    (member : found ∈ matching.completions vertices) : found.vertices = vertices := by
  obtain ⟨edges, _, finished⟩ := mem_completions.mp member
  obtain ⟨_, _, _, _, _, _, rfl⟩ := mem_finish.mp finished
  rfl

private theorem filter_completions {matching : Matching} {maps : List (Table VertexId VertexId)} :
    (maps.flatMap matching.completions).filter (fun found => Injective found.vertices) =
      (maps.filter fun vertices => Injective vertices).flatMap matching.completions := by
  rw [List.filter_flatMap]
  symm
  apply Listing.flatMap_filter
  · intro vertices _ injective
    symm
    apply List.filter_eq_self.mpr
    intro found member
    rwa [vertices_of_completions member]
  · intro vertices _ shared
    apply List.filter_eq_nil_iff.mpr
    intro found member
    rw [vertices_of_completions member, shared]
    exact Bool.false_ne_true

private theorem injective_vertexMaps :
    (vertexMaps ⟨rule, graph, true⟩ rule.right.vertexIds ∅).filter
      (fun vertices => Injective vertices) = freeMaps rule graph := by
  rw [vertexMaps_eq]
  symm
  refine extensions_filter ?_ ?_ Hypergraph.nodup_vertexIds (fun _ _ => rfl) ?_
  · intro before key value injective fresh
    rw [decide_eq_true_iff]
    exact (injective_insert_iff injective fresh).symm
  · intro before after grown injective one other value first second
    exact injective (grown one value first) (grown other value second)
  · exact injective_empty

/-- The matches with contraction that keep the vertices apart are those of the search for free images. -/
theorem injective_all :
    (all ⟨rule, graph, true⟩).filter (fun found => Injective found.vertices) =
      freeMatches rule graph := by
  have contracting : completions ⟨rule, graph, true⟩ = completions ⟨rule, graph, false⟩ :=
    funext fun _ => completions_contract
  rw [all_eq, filter_completions, injective_vertexMaps, contracting]
  rfl

private theorem roomy_vertexMaps :
    vertexMaps ⟨rule, graph, false⟩ rule.right.vertexIds ∅ =
      (freeMaps rule graph).filter fun vertices => Roomy rule graph vertices := by
  have tested : vertexCandidates ⟨rule, graph, false⟩ = fun images key =>
      (graph.vertexIds.filter fun image => image ∉ images.values).filter fun image =>
        key ∈ rule.createdVertices → graph.degree image ≤ rule.right.degree key := by
    funext images key
    rw [List.filter_filter, vertexCandidates]
    apply List.filter_congr
    intro image _
    grind
  rw [vertexMaps_eq, tested]
  refine extensions_filter ?_ ?_ Hypergraph.nodup_vertexIds (fun _ _ => rfl) ?_
  · intro before key value room fresh
    rw [decide_eq_true_iff]
    constructor
    · intro enough right vertex mapped
      rw [Table.get?_insert] at mapped
      split at mapped
      next same =>
        cases mapped
        exact same ▸ enough
      · exact room right vertex mapped
    · intro room
      exact room key value (by rw [Table.get?_insert, if_pos rfl])
  · intro before after grown room right vertex mapped
    exact room right vertex (grown right vertex mapped)
  · intro right vertex mapped
    cases mapped

private theorem completions_eq_nil (formed : graph.WellFormed) (formedRight : rule.right.WellFormed)
    (placed : vertices ∈ freeMaps rule graph) (tight : ¬Roomy rule graph vertices) :
    completions ⟨rule, graph, false⟩ vertices = [] := by
  -- One of the incidences at the image could not be matched, and it would be left dangling.
  rw [← injective_vertexMaps, List.mem_filter, decide_eq_true_iff] at placed
  obtain ⟨mapped, injective⟩ := placed
  apply List.eq_nil_iff_forall_not_mem.mpr
  intro found member
  have same : found.vertices = vertices := vertices_of_completions member
  obtain ⟨edges, placedEdges, finished⟩ := mem_completions.mp member
  obtain ⟨rigid, _⟩ :=
    rigid_of_finish formed formedRight injective (vertexMaps_sides mapped) placedEdges finished
  apply tight
  intro right vertex at' created
  exact degree_le_of_covered formed formedRight rigid created (same ▸ at')

/-- Asking for room at the images of created vertices leaves out no match. -/
theorem freeMatches_eq (formed : graph.WellFormed) (formedRight : rule.right.WellFormed) :
    freeMatches rule graph = all ⟨rule, graph, false⟩ := by
  rw [all_eq, roomy_vertexMaps]
  symm
  apply Listing.flatMap_filter
  · intro vertices _ _
    rfl
  · intro vertices placed tight
    exact completions_eq_nil formed formedRight placed (of_decide_eq_false tight)

end Matching

namespace MatchSource

variable {source : MatchSource} {rule : Rule} {graph : Hypergraph}

/-- What a source finds with contraction and keeps the vertices apart is what it finds without, in
the same order, and is answered by the same complements. Nor does it change anything to look for
room at the images of created vertices. -/
theorem reset_neutral (accepted : rule.validate = .ok ()) (formedRight : rule.right.WellFormed)
    (formed : graph.WellFormed) :
    ∃ listed kept : List PartialMatch,
      ((source.withContraction true).reset rule graph).2 =
        (.ok (), { source with
          contract := true
          loaded := some ⟨rule, graph, listed⟩
          pending := listed }) ∧
      ((source.withContraction false).reset rule graph).2 =
        (.ok (), { source with
          contract := false
          loaded := some ⟨rule, graph, kept⟩
          pending := kept }) ∧
      kept = listed.filter (fun found => Matching.Injective found.vertices) ∧
      ((source.withContraction true).reset rule graph).2.2.yields =
        listed.map (LoadedMatches.yield ⟨rule, graph, listed⟩) ∧
      ((source.withContraction false).reset rule graph).2.2.yields =
        kept.map (LoadedMatches.yield ⟨rule, graph, listed⟩) ∧
      kept = Matching.freeMatches rule graph := by
  have loads : ∀ contract, ((source.withContraction contract).reset rule graph).2 = (.ok (),
      { source with
        contract
        loaded := some ⟨rule, graph, Matching.all ⟨rule, graph, contract⟩⟩
        pending := Matching.all ⟨rule, graph, contract⟩ }) := by
    intro contract
    rw [reset, accepted]
    rfl
  have answers : ∀ contract found, ((source.withContraction contract).reset rule graph).2.2.yields =
      (Matching.all ⟨rule, graph, contract⟩).map (LoadedMatches.yield ⟨rule, graph, found⟩) := by
    intro contract found
    rw [loads]
    rfl
  have free : Matching.all ⟨rule, graph, false⟩ = Matching.freeMatches rule graph :=
    (Matching.freeMatches_eq formed formedRight).symm
  exact ⟨_, _, loads true, loads false, free.trans Matching.injective_all.symm, answers true _,
    answers false _, free⟩

/-- A rule that gives a vertex a new neighbour. -/
def budding : Rule where
  id := "bud"
  name := ""
  left := .ofEdges 1 []
  right := .ofEdges 2 [("E", [0, 1])]
  vertexMap := .ofList [(⟨0⟩, ⟨0⟩)]

/-- A path of three vertices. -/
def shortPath : Hypergraph := .ofEdges 3 [("E", [0, 1]), ("E", [1, 2])]

/-- At the end of a path the new neighbour is found apart from the old vertex, and each vertex of
the path may stand for both. The middle vertex has too many edges to be the new neighbour alone. -/
theorem reset_budding : ∃ listed kept : List PartialMatch,
    ((({} : MatchSource).withContraction true).reset budding shortPath).2 =
      (.ok (), { contract := true, loaded := some ⟨budding, shortPath, listed⟩, pending := listed }) ∧
    kept = listed.filter (fun found => Matching.Injective found.vertices) ∧
    ((({} : MatchSource).withContraction true).reset budding shortPath).2.2.yields =
      listed.map (LoadedMatches.yield ⟨budding, shortPath, listed⟩) ∧
    ((({} : MatchSource).withContraction false).reset budding shortPath).2.2.yields =
      kept.map (LoadedMatches.yield ⟨budding, shortPath, listed⟩) ∧
    kept = Matching.freeMatches budding shortPath ∧ listed.length = 4 ∧ kept.length = 1 := by
  have accepted : budding.validate = .ok () := by decide +kernel
  have formedRight : budding.right.WellFormed := by decide +kernel
  have formed : shortPath.WellFormed := by decide +kernel
  have four : ((({} : MatchSource).withContraction true).reset budding shortPath).2.2.matchCount =
    4 := by decide +kernel
  have one : ((({} : MatchSource).withContraction false).reset budding shortPath).2.2.matchCount =
    1 := by decide +kernel
  obtain ⟨listed, kept, contracting, rigid, same, every, few, free⟩ :=
    reset_neutral accepted formedRight formed
  rw [contracting] at four
  rw [rigid] at one
  exact ⟨listed, kept, contracting, same, every, few, free, four, one⟩

end MatchSource

end Coverability
