import Coverability.Hypergraph.Morphism
import Coverability.Proofs.Comparison
import Coverability.Proofs.Consistency
import Coverability.Proofs.Merging

/-! Histories of calls on a graph. After any calls, also those that fail half way, the tables agree
with each other, and no number is given twice, whatever has been deleted since. A call either adds,
one number after the other, or takes no number at all. -/

namespace Coverability.Hypergraph

/-- A call that changes a graph. The graph that is copied is taken to be well formed: each vertex of
an edge is one of its vertices, and so has an image once the vertices have been copied. -/
inductive Call where
  | addVertex
  | addVertices (count : Nat)
  | addEdge (label : String) (ends : List VertexId)
  | deleteEdge (id : EdgeId)
  | deleteVertex (vertex : VertexId)
  | deleteVertexReporting (vertex : VertexId)
  | setName (name : String)
  | mergeVertices (kept merged : VertexId)
  | mergeVertexSet (vertices : List VertexId)
  | mergeEdges (kept merged : EdgeId)
  | mergeEdgeSet (edges : List EdgeId)
  | copy (source : Hypergraph)
  | copyGlued (source : Hypergraph) (glue : Table VertexId VertexId)

/-- The graph after a call, whatever the call answers: what was done before a fault stays. -/
def Call.run (graph : Hypergraph) (call : Call) : Hypergraph :=
  match call with
  | addVertex => graph.addVertex.2
  | addVertices count => (graph.addVertices count).2
  | addEdge label ends => ((graph.addEdge label ends).toOption.map Prod.snd).getD graph
  | deleteEdge id => graph.deleteEdge id
  | deleteVertex vertex => graph.deleteVertex vertex
  | deleteVertexReporting vertex => ((graph.deleteVertex? vertex).map Prod.snd).getD graph
  | setName name => { graph with name }
  | mergeVertices kept merged => (graph.mergeVertices kept merged).2
  | mergeVertexSet vertices => (graph.mergeVertexSet vertices).2
  | mergeEdges kept merged => (graph.mergeEdges kept merged).2
  | mergeEdgeSet edges => (graph.mergeEdgeSet edges).2
  | copy source => (graph.disjointCopy source).2
  | copyGlued source glue => (graph.glueCopy source glue).2

/-- The graph after a history of calls. -/
def afterCalls (graph : Hypergraph) (calls : List Call) : Hypergraph := calls.foldl Call.run graph

/-- The numbers that a call has given to vertices and edges: those that name something now and
did not before. -/
def minted (before after : Hypergraph) : List Nat :=
  (after.vertexIds.filter fun vertex => !before.hasVertex vertex).map Id.number ++
    (after.edgeIds.filter fun edge => !before.hasEdge edge).map Id.number

/-- The numbers that the calls of a history have given, one call after the other. -/
def mintedBy (graph : Hypergraph) : List Call → List Nat
  | [] => []
  | call :: rest => graph.minted (call.run graph) ++ mintedBy (call.run graph) rest

/-- The tables agree, no number names two things, and none of those in use is still to be given. -/
structure Coherent (graph : Hypergraph) : Prop where
  formed : graph.WellFormed
  numbered : graph.Numbered
  distinct : (graph.vertexIds.map Id.number ++ graph.edgeIds.map Id.number).Nodup

variable {graph larger after last : Hypergraph} {count more number : Nat}

/-- Whether the number names a vertex or an edge. -/
def Holds (graph : Hypergraph) (number : Nat) : Prop :=
  graph.hasVertex ⟨number⟩ = true ∨ graph.hasEdge ⟨number⟩ = true

private theorem mem_vertexNumbers : number ∈ graph.vertexIds.map Id.number ↔
    graph.hasVertex ⟨number⟩ = true := by
  rw [List.mem_map, ← mem_vertexIds]
  constructor
  · intro known
    obtain ⟨vertex, member, same⟩ := known
    exact same ▸ member
  · intro member
    exact ⟨_, member, rfl⟩

private theorem mem_edgeNumbers :
    number ∈ graph.edgeIds.map Id.number ↔ graph.hasEdge ⟨number⟩ = true := by
  have listed : (⟨number⟩ : EdgeId) ∈ graph.edgeIds ↔ graph.hasEdge ⟨number⟩ = true :=
    Table.mem_keys_iff_contains
  rw [List.mem_map, ← listed]
  constructor
  · intro known
    obtain ⟨edge, member, same⟩ := known
    exact same ▸ member
  · intro member
    exact ⟨_, member, rfl⟩

theorem mem_minted : number ∈ graph.minted after ↔
    after.hasVertex ⟨number⟩ = true ∧ graph.hasVertex ⟨number⟩ = false ∨
      after.hasEdge ⟨number⟩ = true ∧ graph.hasEdge ⟨number⟩ = false := by
  have edges {edge : EdgeId} : edge ∈ after.edgeIds ↔ after.hasEdge edge = true :=
    Table.mem_keys_iff_contains
  simp only [minted, List.mem_append, List.mem_map, List.mem_filter, mem_vertexIds, edges,
    Bool.not_eq_true']
  constructor
  · intro known
    rcases known with ⟨vertex, new, rfl⟩ | ⟨edge, new, rfl⟩
    · exact .inl new
    · exact .inr new
  · intro known
    rcases known with new | new
    · exact .inl ⟨_, new, rfl⟩
    · exact .inr ⟨_, new, rfl⟩

theorem Numbered.below (numbered : graph.Numbered) (held : graph.Holds number) :
    number < graph.nextId := by
  rcases held with present | present
  · exact numbered.vertices_below _ (mem_vertexIds.mpr present)
  · exact numbered.edges_below _ (Table.mem_keys_iff_contains.mpr present)

theorem Numbered.mem_minted (numbered : graph.Numbered) (above : graph.nextId ≤ number)
    (held : after.Holds number) :
    number ∈ graph.minted after := by
  have absent : ¬graph.Holds number := fun old => Nat.not_lt.mpr above (numbered.below old)
  rw [Holds, not_or, Bool.not_eq_true, Bool.not_eq_true] at absent
  exact Hypergraph.mem_minted.mpr (held.imp (⟨·, absent.1⟩) (⟨·, absent.2⟩))

theorem Coherent.apart (coherent : graph.Coherent) (vertex : graph.hasVertex ⟨number⟩ = true) :
    graph.hasEdge ⟨number⟩ = false := by
  rw [← Bool.not_eq_true]
  intro edge
  have apart := (List.nodup_append.mp coherent.distinct).2.2
  exact apart _ (mem_vertexNumbers.mpr vertex) _ (mem_edgeNumbers.mpr edge) rfl

theorem Coherent.of_apart (formed : graph.WellFormed) (numbered : graph.Numbered)
    (apart : ∀ number, graph.hasVertex ⟨number⟩ = true → graph.hasEdge ⟨number⟩ = false) :
    graph.Coherent := by
  have injective {kind : Kind} : Function.Injective (@Id.number kind) := fun one other same => by
    cases one
    cases other
    exact congrArg Id.mk same
  refine ⟨formed, numbered,
    List.nodup_append.mpr ⟨nodup_vertexIds.map injective, nodup_edgeIds.map injective, ?_⟩⟩
  intro number vertex other edge same
  subst same
  have absent := apart number (mem_vertexNumbers.mp vertex)
  rw [mem_edgeNumbers.mp edge] at absent
  cases absent

/-- What is new is among what is there, so it is not listed twice either. -/
theorem Coherent.nodup_minted (coherent : after.Coherent) : (graph.minted after).Nodup :=
  coherent.distinct.sublist ((List.filter_sublist.map _).append (List.filter_sublist.map _))

theorem Shrinks.minted_eq_nil (shrinks : graph.Shrinks after) : graph.minted after = [] := by
  apply List.eq_nil_iff_forall_not_mem.mpr
  intro number new
  rcases mem_minted.mp new with ⟨present, absent⟩ | ⟨present, absent⟩
  · rw [shrinks.vertices _ present] at absent
    cases absent
  · rw [shrinks.edges _ present] at absent
    cases absent

theorem Shrinks.coherent (shrinks : graph.Shrinks after) (coherent : graph.Coherent) :
    after.Coherent := by
  apply Coherent.of_apart shrinks.formed
  · constructor
    · intro vertex member
      rw [shrinks.nextId]
      exact coherent.numbered.vertices_below vertex
        (mem_vertexIds.mpr (shrinks.vertices vertex (mem_vertexIds.mp member)))
    · intro edge member
      rw [shrinks.nextId]
      have present := shrinks.edges edge (Table.mem_keys_iff_contains.mp member)
      exact coherent.numbered.edges_below edge (Table.mem_keys_iff_contains.mpr present)
  · intro number vertex
    rw [← Bool.not_eq_true]
    intro edge
    have absent := coherent.apart (shrinks.vertices _ vertex)
    rw [shrinks.edges _ edge] at absent
    cases absent

theorem setName_shrinks (formed : graph.WellFormed) (name : String) :
    graph.Shrinks { graph with name } :=
  ⟨formed.named name, rfl, fun _ => id, fun _ => id⟩

/-- What a graph becomes when vertices and edges are added, so many in all. -/
inductive Mints (graph : Hypergraph) : Nat → Hypergraph → Prop where
  | none : Mints graph 0 graph
  | addVertex {count : Nat} {larger : Hypergraph} (mints : Mints graph count larger) :
    Mints graph (count + 1) larger.addVertex.2
  | addEdge {count : Nat} {larger after : Hypergraph} {label : String} {ends : List VertexId}
      {fresh : EdgeId}
      (mints : Mints graph count larger) (added : larger.addEdge label ends = .ok (fresh, after)) :
        Mints graph (count + 1) after

namespace Mints

theorem trans (first : graph.Mints count larger) (second : larger.Mints more last) :
    graph.Mints (count + more) last := by
  induction second with
  | none => exact first
  | addVertex _ ih => exact .addVertex ih
  | addEdge _ added ih => exact .addEdge ih added

theorem nextId (mints : graph.Mints count larger) (start : graph.nextId < wordRange) :
    larger.nextId = (graph.nextId + count) % wordRange := by
  induction mints with
  | none => exact (Nat.mod_eq_of_lt start).symm
  | @addVertex count larger _ ih =>
    change (larger.nextId + 1) % wordRange = _
    rw [ih, Nat.mod_add_mod, Nat.add_assoc]
  | @addEdge count larger after label ends fresh _ added ih =>
    rw [nextId_addEdge added]
    change (larger.nextId + 1) % wordRange = _
    rw [ih, Nat.mod_add_mod, Nat.add_assoc]

private theorem holds_addVertex :
    graph.addVertex.2.Holds number ↔ number = graph.nextId ∨ graph.Holds number := by
  have edges : graph.addVertex.2.hasEdge ⟨number⟩ = graph.hasEdge ⟨number⟩ := rfl
  simp only [Holds, hasVertex_addVertex, edges, Bool.or_eq_true, decide_eq_true_eq,
    Id.mk.injEq, or_assoc]

private theorem hasEdge_addEdge {label : String} {ends : List VertexId} {fresh : EdgeId}
    (added : graph.addEdge label ends = .ok (fresh, after)) (id : EdgeId) :
    after.hasEdge id = (decide (id = ⟨graph.nextId⟩) || graph.hasEdge id) := by
  rw [(addEdge_ok added).2.2]
  exact Table.contains_insert

private theorem holds_addEdge {label : String} {ends : List VertexId} {fresh : EdgeId}
    (added : graph.addEdge label ends = .ok (fresh, after)) :
    after.Holds number ↔ number = graph.nextId ∨ graph.Holds number := by
  simp only [Holds, hasVertex_addEdge added, hasEdge_addEdge added, Bool.or_eq_true,
    decide_eq_true_eq, Id.mk.injEq]
  exact or_left_comm

/-- Until numbers run out, each one that is counted past is in use, whatever is added later. -/
theorem holds (mints : graph.Mints count larger) (start : graph.nextId < wordRange)
    (from_start : graph.nextId ≤ number) (counted : number < graph.nextId + count)
    (inside : number < wordRange) : larger.Holds number := by
  induction mints with
  | none => omega
  | @addVertex count larger mints ih =>
    apply holds_addVertex.mpr
    by_cases earlier : number < graph.nextId + count
    · exact .inr (ih earlier)
    · left
      rw [mints.nextId start, Nat.mod_eq_of_lt (by omega)]
      omega
  | @addEdge count larger after label ends fresh mints added ih =>
    apply (holds_addEdge added).mpr
    by_cases earlier : number < graph.nextId + count
    · exact .inr (ih earlier)
    · left
      rw [mints.nextId start, Nat.mod_eq_of_lt (by omega)]
      omega

/-- As many numbers are given as there are additions, or all that were left. -/
theorem count_le (mints : graph.Mints count larger) (numbered : graph.Numbered)
    (start : graph.nextId < wordRange) :
    min count (wordRange - graph.nextId) ≤ (graph.minted larger).length := by
  have numbers : ∀ number ∈ List.range' graph.nextId (min count (wordRange - graph.nextId)),
      number ∈ graph.minted larger := by
    intro number member
    rw [List.mem_range'_1] at member
    exact numbered.mem_minted member.1 (mints.holds start member.1 (by omega) (by omega))
  have fits := Listing.length_le_of_subset List.nodup_range' numbers
  rwa [List.length_range'] at fits

theorem coherent (mints : graph.Mints count larger) (coherent : graph.Coherent)
    (few : graph.nextId + count < wordRange) :
    larger.Coherent := by
  induction mints with
  | none => exact coherent
  | @addVertex count larger mints ih =>
    have known := ih (by omega)
    have next := mints.nextId (by omega)
    rw [Nat.mod_eq_of_lt (by omega)] at next
    have room : larger.HasRoom := by
      unfold HasRoom
      omega
    apply Coherent.of_apart (addVertex_wellFormed known.formed known.numbered)
      (addVertex_numbered known.numbered room)
    intro number present
    change larger.hasEdge ⟨number⟩ = false
    rw [hasVertex_addVertex, Bool.or_eq_true, decide_eq_true_eq, Id.mk.injEq] at present
    rcases present with rfl | old
    · rw [← Bool.not_eq_true]
      intro edge
      exact Nat.lt_irrefl _ (known.numbered.below (.inr edge))
    · exact known.apart old
  | @addEdge count larger after label ends fresh mints added ih =>
    have known := ih (by omega)
    have next := mints.nextId (by omega)
    rw [Nat.mod_eq_of_lt (by omega)] at next
    have room : larger.HasRoom := by
      unfold HasRoom
      omega
    apply Coherent.of_apart (addEdge_wellFormed added known.formed known.numbered)
      (addEdge_numbered added known.numbered room)
    intro number present
    rw [hasVertex_addEdge added] at present
    rw [hasEdge_addEdge added, known.apart present, Bool.or_false,
      decide_eq_false_iff_not, Id.mk.injEq]
    intro same
    subst same
    exact Nat.lt_irrefl _ (known.numbered.below (.inl present))

/-- What is there was there before or has a number that had not been given. -/
theorem new (mints : graph.Mints count larger) (start : graph.nextId + count ≤ wordRange) :
    (∀ vertex, larger.hasVertex vertex = true → graph.hasVertex vertex = true ∨
      graph.nextId ≤ vertex.number) ∧
      ∀ edge, larger.hasEdge edge = true → graph.hasEdge edge = true ∨
        graph.nextId ≤ edge.number := by
  induction mints with
  | none => exact ⟨fun _ => .inl, fun _ => .inl⟩
  | @addVertex count larger mints ih =>
    obtain ⟨vertices, edges⟩ := ih (by omega)
    refine ⟨?_, edges⟩
    intro vertex present
    rw [hasVertex_addVertex, Bool.or_eq_true, decide_eq_true_eq] at present
    rcases present with rfl | old
    · right
      change graph.nextId ≤ larger.nextId
      rw [mints.nextId (by omega), Nat.mod_eq_of_lt (by omega)]
      omega
    · exact vertices vertex old
  | @addEdge count larger after label ends fresh mints added ih =>
    obtain ⟨vertices, edges⟩ := ih (by omega)
    refine ⟨?_, ?_⟩
    · intro vertex present
      rw [hasVertex_addEdge added] at present
      exact vertices vertex present
    · intro edge present
      rw [hasEdge_addEdge added, Bool.or_eq_true, decide_eq_true_eq] at present
      rcases present with rfl | old
      · right
        change graph.nextId ≤ larger.nextId
        rw [mints.nextId (by omega), Nat.mod_eq_of_lt (by omega)]
        omega
      · exact edges edge old

theorem minted_perm (mints : graph.Mints count larger) (numbered : graph.Numbered)
    (known : larger.Coherent) (few : graph.nextId + count < wordRange) :
    (graph.minted larger).Perm (List.range' graph.nextId count) := by
  apply (List.perm_ext_iff_of_nodup known.nodup_minted List.nodup_range').mpr
  intro number
  rw [List.mem_range'_1]
  constructor
  · intro listed
    have next := mints.nextId (by omega)
    rw [Nat.mod_eq_of_lt few] at next
    rcases mem_minted.mp listed with ⟨present, absent⟩ | ⟨present, absent⟩
    · have below := known.numbered.below (.inl present)
      rcases (mints.new (by omega)).1 _ present with old | above
      · rw [absent] at old
        cases old
      · exact ⟨above, by omega⟩
    · have below := known.numbered.below (.inr present)
      rcases (mints.new (by omega)).2 _ present with old | above
      · rw [absent] at old
        cases old
      · exact ⟨above, by omega⟩
  · intro ⟨above, below⟩
    exact numbered.mem_minted above (mints.holds (by omega) above below (by omega))

end Mints

theorem addVertices_mints (graph : Hypergraph) (count : Nat) :
    graph.Mints count (graph.addVertices count).2 := by
  induction count generalizing graph with
  | zero => exact .none
  | succ count ih =>
    have first : graph.Mints 1 graph.addVertex.2 := .addVertex .none
    have all := first.trans (ih graph.addVertex.2)
    rwa [Nat.add_comm] at all

theorem copyVertices_mints (graph : Hypergraph) (glue image : Table VertexId VertexId)
    (vertices : List VertexId) :
    ∃ count, graph.Mints count (graph.copyVertices glue image vertices).2 := by
  induction vertices generalizing graph image with
  | nil => exact ⟨0, .none⟩
  | cons vertex rest ih =>
    rw [copyVertices]
    split
    next existing _ =>
      split
      · exact ih graph _
      · exact ⟨0, .none⟩
    · obtain ⟨count, later⟩ := ih graph.addVertex.2 (image.insert vertex graph.addVertex.1)
      have first : graph.Mints 1 graph.addVertex.2 := .addVertex .none
      exact ⟨1 + count, first.trans later⟩

theorem copyEdges_mints (graph : Hypergraph) (morphism : Morphism) (edges : List Edge) :
    ∃ count, graph.Mints count (graph.copyEdges morphism edges).2 := by
  induction edges generalizing graph morphism with
  | nil => exact ⟨0, .none⟩
  | cons edge rest ih =>
    rw [copyEdges]
    split
    next id after added =>
      obtain ⟨count, later⟩ := ih after { morphism with edges := morphism.edges.insert edge.id id }
      have first : graph.Mints 1 after := .addEdge .none added
      exact ⟨1 + count, first.trans later⟩
    · exact ⟨0, .none⟩

theorem glueCopy_mints (graph source : Hypergraph) (glue : Table VertexId VertexId) :
    ∃ count, graph.Mints count (graph.glueCopy source glue).2 := by
  obtain ⟨count, first⟩ := graph.copyVertices_mints glue ∅ source.vertexIds
  rw [glueCopy]
  split
  next image after same =>
    rw [same] at first
    obtain ⟨more, later⟩ := after.copyEdges_mints { vertices := image } source.edgeList
    exact ⟨count + more, first.trans later⟩
  next fault after same =>
    rw [same] at first
    exact ⟨count, first⟩

/-- The tables agree, and the numbers that have been given are the next ones, each once. -/
structure Continues (graph after : Hypergraph) (given : List Nat) : Prop where
  coherent : after.Coherent
  nextId : after.nextId = graph.nextId + given.length
  next : given.Perm (List.range' graph.nextId given.length)

theorem Continues.refl (coherent : graph.Coherent) : graph.Continues graph [] := ⟨coherent, rfl, .nil⟩

theorem Continues.trans {given further : List Nat} (first : graph.Continues after given)
    (second : after.Continues last further) :
    graph.Continues last (given ++ further) where
  coherent := second.coherent
  nextId := by rw [second.nextId, first.nextId, List.length_append, Nat.add_assoc]
  next := by
    have later := second.next
    rw [first.nextId] at later
    rw [List.length_append, ← List.range'_append_1]
    exact first.next.append later

theorem Shrinks.continues (shrinks : graph.Shrinks after) (coherent : graph.Coherent) :
    graph.Continues after (graph.minted after) := by
  rw [shrinks.minted_eq_nil]
  exact ⟨shrinks.coherent coherent, shrinks.nextId, .nil⟩

/-- Were there more additions than numbers left, then all that are left would have been given. -/
theorem Mints.continues (mints : graph.Mints count after) (coherent : graph.Coherent)
    (few : graph.nextId + (graph.minted after).length < wordRange) :
    graph.Continues after (graph.minted after) := by
  have given := mints.count_le coherent.numbered (by omega)
  have room : graph.nextId + count < wordRange := by omega
  have known := mints.coherent coherent room
  have next := mints.minted_perm coherent.numbered known room
  have length : (graph.minted after).length = count := by simpa using next.length_eq
  refine ⟨known, ?_, ?_⟩
  · rw [length, mints.nextId (by omega), Nat.mod_eq_of_lt room]
  · rwa [length]

/-- One call, whether or not it succeeds. -/
theorem Call.run_continues (call : Call) (coherent : graph.Coherent)
    (few : graph.nextId + (graph.minted (call.run graph)).length < wordRange) :
    graph.Continues (call.run graph) (graph.minted (call.run graph)) := by
  have formed := coherent.formed
  cases call with
  | addVertex => exact (Mints.addVertex .none).continues coherent few
  | addVertices count => exact (graph.addVertices_mints count).continues coherent few
  | addEdge label ends =>
    cases added : graph.addEdge label ends with
    | ok result =>
      have same : (Call.addEdge label ends).run graph =
        result.2 := by simp [run, added, Except.toOption]
      rw [same] at few ⊢
      exact (Mints.addEdge .none added).continues coherent few
    | error fault =>
      have same : (Call.addEdge label ends).run graph = graph := by simp [run, added, Except.toOption]
      rw [same]
      exact (Shrinks.refl formed).continues coherent
  | deleteEdge id => exact (deleteEdge_shrinks formed id).continues coherent
  | deleteVertex vertex => exact (deleteVertex_shrinks formed vertex).continues coherent
  | deleteVertexReporting vertex => exact (deleteVertex_shrinks formed vertex).continues coherent
  | setName name => exact (setName_shrinks formed name).continues coherent
  | mergeVertices kept merged => exact (mergeVertices_shrinks formed kept merged).continues coherent
  | mergeVertexSet vertices => exact (mergeVertexSet_shrinks formed vertices).continues coherent
  | mergeEdges kept merged => exact (mergeEdges_shrinks formed kept merged).continues coherent
  | mergeEdgeSet edges => exact (mergeEdgeSet_shrinks formed edges).continues coherent
  | copy source =>
    obtain ⟨count, mints⟩ := graph.glueCopy_mints source ∅
    exact mints.continues coherent few
  | copyGlued source glue =>
    obtain ⟨count, mints⟩ := graph.glueCopy_mints source glue
    exact mints.continues coherent few

theorem afterCalls_continues (coherent : graph.Coherent) (calls : List Call)
    (few : graph.nextId + (mintedBy graph calls).length < wordRange) :
    graph.Continues (afterCalls graph calls) (mintedBy graph calls) := by
  induction calls generalizing graph with
  | nil => exact .refl coherent
  | cons call rest ih =>
    rw [mintedBy, List.length_append] at few
    have step := call.run_continues coherent (by omega)
    have later : (call.run graph).nextId + (mintedBy (call.run graph) rest).length < wordRange := by
      rw [step.nextId]
      omega
    exact step.trans (ih step.coherent later)

theorem named_coherent (name : String) : (named name).Coherent :=
  have built := (Built.named name).formed
  ⟨built.1, built.2, List.nodup_nil⟩

/-- Whatever is called on an empty graph, as long as numbers last, the tables agree, the index lists an
edge at a vertex as often as the vertex occurs in it, and no call gives a number that was given before. -/
theorem afterCalls_coherent (name : String) (calls : List Call)
    (few : (mintedBy (named name) calls).length < wordRange) :
    (afterCalls (named name) calls).Coherent ∧
      (∀ vertex id, ((afterCalls (named name) calls).incident vertex).count id =
        (afterCalls (named name) calls).occurrences id vertex) ∧
      (afterCalls (named name) calls).Recomputed ∧
      (mintedBy (named name) calls).Nodup ∧ (afterCalls (named name) calls).nextId =
        (mintedBy (named name) calls).length := by
  have start : (named name).nextId = 0 := rfl
  have continues := afterCalls_continues (named_coherent name) calls (by omega)
  have formed := continues.coherent.formed
  refine ⟨continues.coherent, fun vertex id => formed.count_incident, formed.recomputed, ?_, ?_⟩
  · exact continues.next.nodup_iff.mpr List.nodup_range'
  · rw [continues.nextId, start, Nat.zero_add]

/-- Merging two parallel edges makes a loop, and then a merge and two copies stop half way, at what
the graph lacks. -/
def mixedCalls : List Call :=
  [.addVertices 4, .addEdge "A" [⟨0⟩, ⟨1⟩, ⟨1⟩], .addEdge "A" [⟨1⟩, ⟨0⟩, ⟨2⟩],
    .mergeEdgeSet [⟨4⟩, ⟨5⟩], .addEdge "B" [⟨9⟩],
    .mergeVertexSet [⟨3⟩, ⟨0⟩, ⟨9⟩], .copyGlued (ofEdges 2 []) (Table.empty.insert ⟨1⟩ ⟨9⟩),
    .copy (ofEdges 1 [("B", [0])]),
    .deleteVertexReporting ⟨3⟩, .setName "rest", .addVertex, .mergeVertices ⟨7⟩ ⟨9⟩,
    .deleteEdge ⟨8⟩, .deleteVertex ⟨9⟩]

theorem afterCalls_mixed : mintedBy (named "") mixedCalls = [0, 1, 2, 3, 4, 5, 6, 7, 8, 9] ∧
    (afterCalls (named "") mixedCalls).Coherent ∧
      (∀ vertex id, ((afterCalls (named "") mixedCalls).incident vertex).count id =
        (afterCalls (named "") mixedCalls).occurrences id vertex) ∧
      (afterCalls (named "") mixedCalls).Recomputed ∧
      (mintedBy (named "") mixedCalls).Nodup ∧
      (afterCalls (named "") mixedCalls).nextId = (mintedBy (named "") mixedCalls).length :=
  ⟨by decide +kernel, afterCalls_coherent "" mixedCalls (by decide +kernel)⟩

end Coverability.Hypergraph
