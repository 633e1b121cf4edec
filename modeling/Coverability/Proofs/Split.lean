import Coverability.Predecessor.Complement
import Coverability.Proofs.Construction
import Coverability.Proofs.Matches

/-! Splitting the shared images of an overlap. First every matched vertex gets a place of its own,
the first of a block at the image itself. Then every edge at a shared image is replaced by one along
the right side, or as the overlap attaches it. -/

namespace Coverability

namespace PartialMatch

variable {found : PartialMatch} {vertex right : VertexId}

theorem nodup_block : (found.block vertex).Nodup := by
  have swapped : (found.vertices.entries.map fun entry => (entry.2, entry.1)).map Prod.snd =
      found.vertices.keys := by
    rw [List.map_map]
    rfl
  rw [block, Table.getD_eq, blocks, Table.get?_group]
  split
  · have distinct : found.vertices.keys.Nodup := Table.nodup_keys
    rw [← swapped] at distinct
    exact distinct.sublist (List.filter_sublist.map _)
  · exact .nil

/-- The matched vertices of the right side, block by block. -/
def order (found : PartialMatch) : List VertexId := found.blocks.entries.flatMap Prod.snd

theorem mem_order : right ∈ found.order ↔ ∃ vertex, found.vertices.get? right = some vertex := by
  rw [order, List.mem_flatMap]
  constructor
  · intro known
    obtain ⟨⟨vertex, block⟩, listed, member⟩ := known
    obtain ⟨rfl, _⟩ := Matching.mem_blocks.mp listed
    exact ⟨vertex, mem_block.mp member⟩
  · intro known
    obtain ⟨vertex, mapped⟩ := known
    have member := mem_block.mpr mapped
    exact ⟨(vertex, found.block vertex),
      Matching.mem_blocks.mpr ⟨rfl, List.ne_nil_of_mem member⟩, member⟩

theorem nodup_order : found.order.Nodup := by
  refine List.nodup_flatMap.mpr ⟨fun entry listed => ?_, ?_⟩
  · rw [(Matching.mem_blocks.mp listed).1]
    exact nodup_block
  · have distinct : (found.blocks.entries.map Prod.fst).Nodup := Table.nodup_keys
    rw [List.Nodup, List.pairwise_map] at distinct
    refine distinct.imp_of_mem
      fun {one other} first second different right inside inside' => different ?_
    rw [(Matching.mem_blocks.mp first).1] at inside
    rw [(Matching.mem_blocks.mp second).1] at inside'
    exact Option.some.inj ((mem_block.mp inside).symm.trans (mem_block.mp inside'))

/-- The first vertex of a block. -/
def IsHead (found : PartialMatch) (right : VertexId) : Prop :=
  ∃ vertex rest, found.block vertex = right :: rest

theorem head_mapped {rest : List VertexId} (block : found.block vertex = right :: rest) :
    found.vertices.get? right = some vertex :=
  mem_block.mp (block ▸ List.mem_cons_self)

/-- A vertex of the right side at the image that it keeps. -/
def anchor (found : PartialMatch) (right : VertexId) : VertexId := found.vertices.getD right right

theorem anchor_eq (mapped : found.vertices.get? right = some vertex) :
    found.anchor right = vertex := by
  rw [anchor, Table.getD_eq, mapped, Option.getD_some]

/-- The vertex that takes the place of a vertex of the graph before its edges have been replaced. -/
def start (found : PartialMatch) (vertex : VertexId) : VertexId ⊕ VertexId :=
  match found.block vertex with
  | [] => .inl vertex
  | first :: _ => .inr first

/-- Whether an edge has an end that several vertices share. -/
def Splits (found : PartialMatch) (graph : Hypergraph) (edge : EdgeId) : Prop :=
  ∃ label ends, graph.skeleton.edge? edge = some (label, ends) ∧
    ∃ old ∈ ends, 1 < (found.block old).length

theorem start_anchor : Sum.elim id found.anchor (found.start vertex) = vertex := by
  rw [start]
  split
  · rfl
  next first rest block => exact anchor_eq (head_mapped block)

end PartialMatch

/-- A table holds the places of the listed vertices. -/
def Tracks (table : Table VertexId VertexId) (done : List VertexId)
    (place : VertexId → VertexId) : Prop :=
  ∀ one image, table.get? one = some image ↔ one ∈ done ∧ place one = image

theorem Tracks.empty {place : VertexId → VertexId} : Tracks ∅ [] place :=
  fun _ _ => ⟨nofun, fun known => nomatch known.1⟩

theorem Tracks.congr {table : Table VertexId VertexId} {done : List VertexId}
    {place : VertexId → VertexId} (tracks : Tracks table done place) (place' : VertexId → VertexId)
    (same : ∀ one ∈ done, place' one = place one) : Tracks table done place' := by
  intro one image
  rw [tracks]
  exact and_congr_right fun inside => by rw [same one inside]

theorem Tracks.insert {table : Table VertexId VertexId} {done : List VertexId}
    {place : VertexId → VertexId} (tracks : Tracks table done place) (place' : VertexId → VertexId)
    (next : VertexId) (same : ∀ one, one ≠ next → place' one = place one) :
    Tracks (table.insert next (place' next)) (done ++ [next]) place' := by
  intro one image
  rw [Table.get?_insert]
  split
  next equal =>
    subst equal
    simp
  next different =>
    rw [tracks, same one different]
    simp [different]

/-- The next vertex gets a new place. -/
theorem Tracks.update {α : Type} [DecidableEq α] {table : Table VertexId VertexId}
    {done : List VertexId} {vertex : α ⊕ VertexId → VertexId}
    (tracks : Tracks table done (vertex <| .inr ·)) (next fresh : VertexId) :
    Tracks (table.insert next fresh) (done ++ [next])
      (Function.update vertex (.inr next) fresh <| .inr ·) := by
  have tracked := tracks.insert (Function.update vertex (.inr next) fresh <| .inr ·) next
    fun one different => Function.update_of_ne (mt Sum.inr.inj different) _ _
  rwa [Function.update_self] at tracked

namespace Split

variable {rule : Rule} {graph : Hypergraph} {found : PartialMatch}

section Copies

open Classical in
/-- Gives a matched vertex a place. -/
private noncomputable def addCopy (found : PartialMatch) (split : Split) (right : VertexId) : Split :=
  if found.IsHead right then { split with copies := split.copies.insert right (found.anchor right) }
  else { split with
    graph := split.graph.addVertex.2
    copies := split.copies.insert right split.graph.addVertex.1 }

private theorem addBlock_eq (split : Split) (vertex : VertexId) :
    split.addBlock vertex (found.block vertex) =
      (found.block vertex).foldl (addCopy found) split := by
  cases block : found.block vertex with
  | nil => rfl
  | cons first others =>
    have head : addCopy found split first =
        { split with copies := split.copies.insert first vertex } := by
      rw [addCopy, if_pos ⟨vertex, others, block⟩,
        PartialMatch.anchor_eq (PartialMatch.head_mapped block)]
    rw [addBlock, List.foldl_cons, head]
    refine List.foldl_ext _ _ _ fun split other member => ?_
    rw [addCopy, if_neg]
    intro isHead
    obtain ⟨vertex', rest, block'⟩ := isHead
    have here : found.vertices.get? other = some vertex :=
      PartialMatch.mem_block.mp (block ▸ List.mem_cons_of_mem _ member)
    obtain rfl : vertex = vertex' :=
      Option.some.inj (here.symm.trans (PartialMatch.head_mapped block'))
    rw [block, List.cons.injEq] at block'
    have distinct : (found.block vertex).Nodup := PartialMatch.nodup_block
    rw [block] at distinct
    exact (List.nodup_cons.mp distinct).1 (block'.1 ▸ member)

private theorem addBlocks_eq (split : Split) :
    found.blocks.entries.foldl (fun split entry => split.addBlock entry.1 entry.2) split =
      found.order.foldl (addCopy found) split := by
  rw [PartialMatch.order, List.foldl_flatMap]
  refine List.foldl_ext _ _ _ fun split entry listed => ?_
  rw [(Matching.mem_blocks.mp listed).1]
  exact addBlock_eq split entry.1

/-- The graph with places for some matched vertices, where the edges run along given vertices. -/
def fan (found : PartialMatch) (graph : Hypergraph) (placed : VertexId → Prop)
    (edge? : EdgeId → Option (String × List (VertexId ⊕ VertexId))) :
    Skeleton (VertexId ⊕ VertexId) EdgeId where
  vertex := Sum.elim (fun vertex => graph.hasVertex vertex = true ∧ found.block vertex = []) placed
  edge? := edge?

/-- Where an edge of the graph runs before it has been replaced. -/
def unsplit (found : PartialMatch) (graph : Hypergraph) (edge : EdgeId) :
    Option (String × List (VertexId ⊕ VertexId)) :=
  (graph.skeleton.edge? edge).map fun (label, ends) => (label, ends.map found.start)

private theorem unsplit_eq {edge : EdgeId} {label : String} {places : List (VertexId ⊕ VertexId)} :
    unsplit found graph edge = some (label, places) ↔
    ∃ ends, graph.skeleton.edge? edge = some (label, ends) ∧ ends.map found.start = places := by
  simp [unsplit]

private theorem shows_heads (overlap : found.Overlap rule graph) (formed : graph.WellFormed)
    (numbered : graph.Numbered) :
    graph.Shows (fan found graph found.IsHead (unsplit found graph))
      (Sum.elim id found.anchor) id := by
  have hasEdge : ∀ {edge}, (fan found graph found.IsHead (unsplit found graph)).HasEdge edge ↔
      graph.skeleton.HasEdge edge := by
    intro edge
    simp only [Skeleton.HasEdge, fan, unsplit_eq]
    constructor
    · intro known
      obtain ⟨label, _, ends, stored, _⟩ := known
      exact ⟨label, ends, stored⟩
    · intro known
      obtain ⟨label, ends, stored⟩ := known
      exact ⟨label, _, ends, stored, rfl⟩
  refine (Hypergraph.Shows.self formed numbered).rename
    ⟨Sum.elim id found.anchor, id, ?_, ?_, ?_, ?_, ?_, ?_⟩ ?_ (fun _ => rfl) fun _ => rfl
  · intro one inside
    cases one with
    | inl vertex => exact inside.1
    | inr right =>
      obtain ⟨vertex, rest, block⟩ := inside
      have mapped := PartialMatch.head_mapped block
      rw [Sum.elim_inr, PartialMatch.anchor_eq mapped]
      exact (overlap.vertex_sides mapped).2
  · intro one other first second same
    have apart : ∀ {vertex right}, found.block vertex = [] → found.IsHead right →
        found.anchor right ≠ vertex := by
      intro vertex right empty isHead same
      obtain ⟨vertex', rest, block⟩ := isHead
      rw [PartialMatch.anchor_eq (PartialMatch.head_mapped block)] at same
      rw [same, empty] at block
      cases block
    cases one <;> cases other
    case inl.inl one other => exact congrArg Sum.inl same
    case inl.inr one other => exact absurd same.symm (apart first.2 second)
    case inr.inl one other => exact absurd same (apart second.2 first)
    case inr.inr one other =>
      obtain ⟨vertex, rest, block⟩ := first
      obtain ⟨vertex', rest', block'⟩ := second
      rw [Sum.elim_inr, Sum.elim_inr, PartialMatch.anchor_eq (PartialMatch.head_mapped block),
        PartialMatch.anchor_eq (PartialMatch.head_mapped block')] at same
      rw [same, block', List.cons.injEq] at block
      exact congrArg Sum.inr block.1.symm
  · intro target inside
    cases block : found.block target with
    | nil => exact ⟨.inl target, ⟨inside, block⟩, rfl⟩
    | cons first rest =>
      exact ⟨.inr first, ⟨target, rest, block⟩,
        PartialMatch.anchor_eq (PartialMatch.head_mapped block)⟩
  · intro edge label places stored
    obtain ⟨ends, known, rfl⟩ := unsplit_eq.mp stored
    rw [List.map_map]
    refine known.trans (congrArg some (Prod.ext rfl ?_))
    exact (List.map_id ends).symm.trans
      (List.map_congr_left fun vertex _ => PartialMatch.start_anchor.symm)
  · exact fun _ _ same => same
  · exact fun inside => ⟨_, hasEdge.mpr inside, rfl⟩
  · intro edge label places stored place member
    obtain ⟨ends, known, rfl⟩ := unsplit_eq.mp stored
    obtain ⟨vertex, inside, rfl⟩ := List.mem_map.mp member
    rw [PartialMatch.start]
    split
    next empty => exact ⟨formed.closed _ _ _ known vertex inside, empty⟩
    next first rest block => exact ⟨vertex, rest, block⟩

/-- The state of a split in which some matched vertices have a place. -/
private structure Copying (found : PartialMatch) (graph : Hypergraph)
    (done : List VertexId) (split : Split) (vertex : VertexId ⊕ VertexId → VertexId) :
    Prop where
  shows : split.graph.Shows
    (fan found graph (fun right => found.IsHead right ∨ right ∈ done) (unsplit found graph)) vertex id
  kept : ∀ old, vertex (.inl old) = old
  heads : ∀ {right}, found.IsHead right → vertex (.inr right) = found.anchor right
  copies : Tracks split.copies done (vertex <| .inr ·)
  renamed : split.renamed = ∅
  edges : ∀ id, split.graph.edge? id = graph.edge? id
  count : split.graph.nextId ≤ graph.nextId + done.length

private theorem addCopy_copying {done : List VertexId} {split : Split}
    {vertex : VertexId ⊕ VertexId → VertexId} {right : VertexId}
    (copying : Copying found graph done split vertex) (new : right ∉ done)
    (room : split.graph.HasRoom) :
    ∃ vertex, Copying found graph (done ++ [right]) (addCopy found split right) vertex := by
  rw [addCopy]
  split
  next head =>
    refine ⟨vertex, copying.shows.congr _ (fun one => ?_) fun _ => rfl, copying.kept, copying.heads,
      ?_, copying.renamed, copying.edges, ?_⟩
    · cases one with
      | inl old => exact Iff.rfl
      | inr other => exact Listing.or_mem_concat_iff found.IsHead done head other
    · rw [← copying.heads head]
      exact copying.copies.insert _ right fun _ _ => rfl
    · have before := copying.count
      rw [List.length_append]
      change split.graph.nextId ≤ _
      omega
  next other =>
    have fresh : ¬(found.IsHead right ∨ right ∈ done) := fun known => known.elim other new
    refine ⟨_, copying.shows.addVertex (.inr right) _ room fresh (fun one => ?_) fun _ => rfl,
      fun old => ?_, fun {head} isHead => ?_, ?_, copying.renamed, copying.edges, ?_⟩
    · cases one with
      | inl old => simp [fan]
      | inr source => simp [fan, or_assoc]
    · exact (Function.update_of_ne Sum.inl_ne_inr _ _).trans (copying.kept old)
    · refine (Function.update_of_ne (fun same => ?_) _ _).trans (copying.heads isHead)
      exact other (Sum.inr.inj same ▸ isHead)
    · exact copying.copies.update right _
    · rw [List.length_append, List.length_singleton]
      have next := Hypergraph.nextId_addVertex room
      have before := copying.count
      change split.graph.addVertex.2.nextId ≤ _
      omega

private theorem length_order (overlap : found.Overlap rule graph) :
    found.order.length ≤ rule.right.vertexCount := by
  have within : ∀ right ∈ found.order, right ∈ rule.right.vertexIds := by
    intro right member
    obtain ⟨vertex, mapped⟩ := PartialMatch.mem_order.mp member
    exact Hypergraph.mem_vertexIds.mpr (overlap.vertex_sides mapped).1
  exact Nat.le_trans (Listing.length_le_of_subset PartialMatch.nodup_order within)
    (Nat.le_of_eq Hypergraph.length_vertexIds)

private theorem addBlocks_copying (overlap : found.Overlap rule graph) (formed : graph.WellFormed)
    (numbered : graph.Numbered) (room : graph.nextId + rule.right.vertexCount < wordRange) :
    ∃ vertex, Copying found graph found.order
      (found.blocks.entries.foldl (fun split entry => split.addBlock entry.1 entry.2) { graph })
      vertex := by
  rw [addBlocks_eq]
  refine Listing.foldl_prefix (fun done split => ∃ vertex, Copying found graph done split vertex)
    found.order ?_ ?_
  · refine ⟨_, (shows_heads overlap formed numbered).congr _ (fun one => ?_) fun _ => rfl,
      fun _ => rfl, fun _ => rfl, ?_, rfl, fun _ => rfl, Nat.le_refl _⟩
    · cases one <;> simp [fan]
    · exact Tracks.empty
  · intro done right rest split listed copying
    obtain ⟨vertex, copying⟩ := copying
    refine addCopy_copying copying (Listing.not_mem_of_split PartialMatch.nodup_order listed) ?_
    have length := length_order overlap
    rw [listed, List.length_append, List.length_cons] at length
    have before := copying.count
    rw [Hypergraph.HasRoom]
    omega

end Copies

section Edges

/-- The vertex that takes the place of a vertex of the graph on an edge that has been replaced. -/
def goal (rule : Rule) (found : PartialMatch) (edge : EdgeId) (entry : VertexId × Nat) :
    VertexId ⊕ VertexId :=
  match found.edges.entries.find? fun matched => matched.2 = edge with
  | some matched =>
    match (rule.right.edge? matched.1).bind fun owner => owner.vertices[entry.2]? with
    | some right => .inr right
    | none => .inl entry.1
  | none => found.opening ⟨edge, entry.2⟩ entry.1

/-- Where an edge of the graph runs once it has been replaced. -/
def rerouted (rule : Rule) (found : PartialMatch) (graph : Hypergraph) (edge : EdgeId) :
    Option (String × List (VertexId ⊕ VertexId)) :=
  (graph.skeleton.edge? edge).map fun (label, ends) => (label, ends.zipIdx.map (goal rule found edge))

/-- The edge of the right side that a matched edge follows. -/
def follows (rule : Rule) (found : PartialMatch) (edge : EdgeId) : Option Edge :=
  (found.edges.entries.find? fun entry => entry.2 = edge).bind fun entry => rule.right.edge? entry.1

/-- An incidence stays where it is, or goes to a vertex of the right side that the split looks up. -/
theorem goal_cases (overlap : found.Overlap rule graph) {edge : EdgeId} {label : String}
    {ends : List VertexId} {index : Nat} {vertex : VertexId}
    (stored : graph.skeleton.edge? edge = some (label, ends)) (atIndex : ends[index]? = some vertex) :
    found.block vertex = [] ∧ goal rule found edge (vertex, index) = .inl vertex ∨
      ∃ right, found.vertices.get? right = some vertex ∧
        goal rule found edge (vertex, index) = .inr right ∧
        (1 < (found.block vertex).length → (match follows rule found edge with
          | some owner => owner.vertices[index]?
          | none => found.attached.lookup (⟨edge, index⟩ : Place)) = some right) := by
  by_cases matched : edge ∈ found.edges.values
  · obtain ⟨source, mapped⟩ := Table.mem_values_iff.mp matched
    obtain ⟨label', rightEnds, others, there, here, along⟩ := overlap.edge_sides mapped
    rw [stored, Option.some.injEq, Prod.mk.injEq] at here
    obtain ⟨rfl, rfl⟩ := here
    obtain ⟨owner, known, rfl, rfl⟩ := Hypergraph.skeleton_edge_iff.mp there
    obtain ⟨right, atRight, placed⟩ := Listing.along_getElem? along.flip atIndex
    have search := overlap.find?_matched mapped
    refine .inr ⟨right, placed, ?_, fun _ => ?_⟩
    · rw [goal, search]
      simp only [known, Option.bind_some, atRight]
    · rw [follows, search]
      simp only [Option.bind_some, known, atRight]
  · have search := PartialMatch.Overlap.find?_unmatched matched
    rcases overlap.opening_end matched stored atIndex with ⟨empty, opened⟩ |
      ⟨keeper, mapped, _, opened⟩
    · exact .inl ⟨empty, by rw [goal, search]; exact opened⟩
    · refine .inr ⟨keeper, mapped, by rw [goal, search]; exact opened, fun long => ?_⟩
      rw [follows, search]
      rw [PartialMatch.opening] at opened
      split at opened
      next owner owned =>
        cases opened
        rw [PartialMatch.owner] at owned
        split at owned
        · cases owned
        next only block =>
          rw [block] at long
          exact absurd long (Nat.lt_irrefl _)
        · exact owned
      · cases opened

private theorem anchor_goal (overlap : found.Overlap rule graph) {edge : EdgeId} {label : String}
    {ends : List VertexId} {index : Nat} {vertex : VertexId}
    (stored : graph.skeleton.edge? edge = some (label, ends)) (atIndex : ends[index]? = some vertex)
    (short : ¬1 < (found.block vertex).length) :
    goal rule found edge (vertex, index) = found.start vertex := by
  rw [PartialMatch.start]
  rcases goal_cases overlap stored atIndex with ⟨empty, same⟩ | ⟨right, mapped, same, _⟩
  · rw [same, empty]
  · have member := PartialMatch.mem_block.mpr mapped
    rcases block : found.block vertex with _ | ⟨first, _ | ⟨second, rest⟩⟩
    · rw [block] at member
      cases member
    · rw [block, List.mem_singleton] at member
      rw [same, member]
    · exact absurd (by simp [block]) short

private theorem rerouted_of_short (overlap : found.Overlap rule graph) {edge : EdgeId}
    (short : ∀ label ends,
    graph.skeleton.edge? edge = some (label, ends) →
    ∀ vertex ∈ ends, ¬1 < (found.block vertex).length) :
    rerouted rule found graph edge = unsplit found graph edge := by
  rw [rerouted, unsplit]
  cases stored : graph.skeleton.edge? edge with
  | none => rfl
  | some known =>
    obtain ⟨label, ends⟩ := known
    refine congrArg some (Prod.ext rfl (List.ext_getElem? fun index => ?_))
    rw [Listing.getElem?_map_zipIdx, List.getElem?_map]
    cases atIndex : ends[index]? with
    | none => rfl
    | some vertex =>
      exact congrArg some
        (anchor_goal overlap stored atIndex
          (short label ends stored vertex (List.mem_of_getElem? atIndex)))

/-- The images that several vertices share. -/
def shared (found : PartialMatch) : List VertexId :=
  (found.blocks.entries.filter fun entry => 1 < entry.2.length).map Prod.fst

theorem mem_shared {vertex : VertexId} : vertex ∈ shared found ↔ 1 < (found.block vertex).length := by
  simp only [shared, List.mem_map, List.mem_filter, decide_eq_true_eq]
  constructor
  · intro known
    obtain ⟨⟨image, block⟩, ⟨listed, long⟩, rfl⟩ := known
    exact (Matching.mem_blocks.mp listed).1 ▸ long
  · intro long
    exact ⟨(vertex, found.block vertex),
      ⟨Matching.mem_blocks.mpr ⟨rfl, List.ne_nil_of_length_pos (by omega)⟩, long⟩, rfl⟩

variable {first split : Split} {vertex : VertexId ⊕ VertexId → VertexId}

private theorem Copying.start (copying : Copying found graph found.order first vertex)
    (old : VertexId) : vertex (found.start old) = old := by
  rw [PartialMatch.start]
  split
  · exact copying.kept old
  next head rest block =>
    rw [copying.heads ⟨old, rest, block⟩, PartialMatch.anchor_eq (PartialMatch.head_mapped block)]

private theorem reroute_ok (overlap : found.Overlap rule graph)
    (copying : Copying found graph found.order first vertex) (same : split.copies = first.copies)
    {edge : EdgeId} {label : String} {ends : List VertexId} {index : Nat} {old : VertexId}
    (stored : graph.skeleton.edge? edge = some (label, ends)) (atIndex : ends[index]? = some old) :
    split.reroute found (shared found) (follows rule found edge) edge index old =
      .ok (vertex (goal rule found edge (old, index))) := by
  unfold reroute
  split
  next short => rw [anchor_goal overlap stored atIndex (mem_shared.not.mp short), copying.start]
  next long =>
    rw [not_not, mem_shared] at long
    rcases goal_cases overlap stored atIndex with ⟨empty, _⟩ | ⟨right, mapped, placed, sought⟩
    · rw [empty] at long
      cases long
    · have copied := (copying.copies right _).mpr ⟨PartialMatch.mem_order.mpr ⟨old, mapped⟩, rfl⟩
      rw [← same] at copied
      have goes := sought long
      cases owner : follows rule found edge with
      | none =>
        rw [owner] at goes
        simp only [goes, Option.bind_some, copied, placed]
      | some owner =>
        rw [owner] at goes
        simp only [goes, Option.bind_some, copied, placed]

/-- Where the edges of the graph run once some of them have been replaced. -/
private def partlyRerouted (rule : Rule) (found : PartialMatch) (graph : Hypergraph)
    (done : List EdgeId) (edge : EdgeId) :
    Option (String × List (VertexId ⊕ VertexId)) :=
  if edge ∈ done then rerouted rule found graph edge else unsplit found graph edge

/-- The state of a split in which some edges have been replaced. -/
private structure Replacing (rule : Rule) (found : PartialMatch) (graph : Hypergraph)
    (first : Split) (vertex : VertexId ⊕ VertexId → VertexId) (done : List EdgeId)
    (split : Split) : Prop where
  copies : split.copies = first.copies
  shows : split.graph.Shows
    (fan found graph (· ∈ found.order) (partlyRerouted rule found graph done)) vertex
    fun edge => split.renamed.getD edge edge
  fresh : ∀ edge, edge ∉ done → split.renamed.get? edge = none
  count : split.graph.nextId ≤ first.graph.nextId + done.length

private theorem goal_inside (overlap : found.Overlap rule graph) (formed : graph.WellFormed)
    {edge : EdgeId} {label : String} {ends : List VertexId}
    (stored : graph.skeleton.edge? edge = some (label, ends))
    (edge? : EdgeId → Option (String × List (VertexId ⊕ VertexId))) :
    ∀ place ∈ ends.zipIdx.map (goal rule found edge),
      (fan found graph (· ∈ found.order) edge?).vertex place := by
  intro place member
  obtain ⟨⟨old, index⟩, inside, rfl⟩ := List.mem_map.mp member
  have atIndex : ends[index]? = some old := List.mem_zipIdx_iff_getElem?.mp inside
  rcases goal_cases overlap stored atIndex with ⟨empty, same⟩ | ⟨right, mapped, same, _⟩
  · rw [same]
    exact ⟨formed.closed _ _ _ stored old (List.mem_of_getElem? atIndex), empty⟩
  · rw [same]
    exact PartialMatch.mem_order.mpr ⟨old, mapped⟩

private theorem partlyRerouted_concat {done : List EdgeId} {id : EdgeId} {label : String}
    {ends : List VertexId} (stored : graph.skeleton.edge? id = some (label, ends))
    (other : EdgeId) : partlyRerouted rule found graph (done ++ [id]) other =
      if other = id then some (label, ends.zipIdx.map (goal rule found id))
        else partlyRerouted rule found graph done other := by
  by_cases equal : other = id
  · subst equal
    simp only [partlyRerouted, List.mem_append, List.mem_singleton, or_true, if_true, rerouted,
      stored, Option.map_some]
  · simp only [partlyRerouted, List.mem_append, List.mem_singleton, equal, or_false, if_false]

private theorem Replacing.unreplaced (copying : Copying found graph found.order first vertex)
    {done : List EdgeId} (replacing : Replacing rule found graph first vertex done split)
    {id : EdgeId} {label : String} {ends : List VertexId}
    (stored : graph.skeleton.edge? id = some (label, ends)) (new : id ∉ done) :
    split.renamed.getD id id = id ∧
      (fan found graph (· ∈ found.order) (partlyRerouted rule found graph done)).edge? id =
        some (label, ends.map found.start) ∧
      split.graph.skeleton.edge? id = some (label, ends) := by
  have unnamed : split.renamed.getD id id =
    id := by rw [Table.getD_eq, replacing.fresh id new, Option.getD_none]
  have before : (fan found graph (· ∈ found.order) (partlyRerouted rule found graph done)).edge?
      id = some (label, ends.map found.start) := by
    simp only [fan, partlyRerouted, if_neg new, unsplit, stored, Option.map_some]
  have same : (ends.map found.start).map vertex = ends := by
    rw [List.map_map]
    exact (List.map_congr_left fun old _ => copying.start old).trans (List.map_id ends)
  have here := replacing.shows.edge_kept before
  rw [unnamed, same] at here
  exact ⟨unnamed, before, here⟩

private theorem replaceEdge_replacing (overlap : found.Overlap rule graph) (formed : graph.WellFormed)
    (copying : Copying found graph found.order first vertex) {done : List EdgeId}
    (replacing : Replacing rule found graph first vertex done split) {id : EdgeId}
    (present : graph.skeleton.HasEdge id) (new : id ∉ done) (room : split.graph.HasRoom) :
    ∃ after, replaceEdge rule found (shared found) split id = .ok after ∧
      Replacing rule found graph first vertex (done ++ [id]) after := by
  obtain ⟨label, ends, stored⟩ := present
  obtain ⟨unnamed, before, here⟩ := replacing.unreplaced copying stored new
  obtain ⟨edge, known, rfl, rfl⟩ := Hypergraph.skeleton_edge_iff.mp here
  obtain ⟨fresh, result, replaced, next, shows⟩ := replacing.shows.replaceEdge id
    (fan found graph (· ∈ found.order) (partlyRerouted rule found graph (done ++ [id]))) room
      ⟨_, _, before⟩ (goal_inside overlap formed stored _)
    (fun _ => Iff.rfl) (partlyRerouted_concat stored)
  rw [unnamed] at replaced
  have routes :
      (edge.vertices.zipIdx.mapM fun entry =>
        split.reroute found (shared found) (follows rule found id) id entry.2 entry.1) =
      .ok ((edge.vertices.zipIdx.map (goal rule found id)).map vertex) := by
    rw [List.map_map]
    refine Listing.mapM_ok fun entry member => ?_
    exact reroute_ok overlap copying replacing.copies stored (List.mem_zipIdx_iff_getElem?.mp member)
  refine ⟨{ split with graph := result, renamed := split.renamed.insert id fresh }, ?_,
    replacing.copies, ?_, fun other unlisted => ?_, ?_⟩
  · rw [replaceEdge, known]
    change ((edge.vertices.zipIdx.mapM fun entry =>
      split.reroute found (shared found) (follows rule found id) id entry.2 entry.1) >>= _) = _
    rw [routes]
    change ((split.graph.deleteEdge id).addEdge edge.label _ >>= _) = _
    rw [replaced]
    rfl
  · refine cast (congrArg _ (funext fun other => ?_)) shows
    change Function.update (fun edge => split.renamed.getD edge edge) id fresh other =
      (split.renamed.insert id fresh).getD other other
    rw [Function.update_apply, Table.getD_eq, Table.getD_eq, Table.get?_insert]
    split <;> rfl
  · rw [List.mem_append, List.mem_singleton, not_or] at unlisted
    rw [Table.get?_insert, if_neg unlisted.2]
    exact replacing.fresh other unlisted.1
  · rw [List.length_append, List.length_singleton]
    have before := replacing.count
    change result.nextId ≤ _
    omega

private theorem mem_moved (copying : Copying found graph found.order first vertex) {id : EdgeId} :
    id ∈ Table.distinct ((shared found).flatMap first.graph.incident) ↔ found.Splits graph id := by
  simp only [PartialMatch.Splits, Table.mem_distinct, List.mem_flatMap, mem_shared,
    copying.shows.formed.mem_incident, copying.edges]
  constructor
  · intro known
    obtain ⟨old, long, edge, stored, member⟩ := known
    exact ⟨edge.label, edge.vertices, Hypergraph.skeleton_edge stored, old, member, long⟩
  · intro known
    obtain ⟨label, ends, stored, old, member, long⟩ := known
    obtain ⟨edge, there, _, rfl⟩ := Hypergraph.skeleton_edge_iff.mp stored
    exact ⟨old, long, edge, there, member⟩

private theorem length_moved (copying : Copying found graph found.order first vertex) :
    (Table.distinct ((shared found).flatMap first.graph.incident)).length ≤ graph.edgeCount := by
  refine Nat.le_trans (Listing.length_le_of_subset Table.nodup_distinct fun id member => ?_)
    (Nat.le_of_eq Hypergraph.length_edgeIds)
  obtain ⟨label, ends, stored, _⟩ := (mem_moved copying).mp member
  exact Hypergraph.mem_edgeIds_iff.mpr ⟨label, ends, stored⟩

private theorem replacing_start (copying : Copying found graph found.order first vertex) :
    Replacing rule found graph first vertex [] first := by
  refine ⟨rfl, ?_, fun edge _ => by rw [copying.renamed]; rfl, Nat.le_refl _⟩
  have names : (fun edge => first.renamed.getD edge edge) = id := by
    funext edge
    rw [copying.renamed]
    rfl
  rw [names]
  have edges : ∀ one, partlyRerouted rule found graph [] one = unsplit found graph one :=
    fun one => if_neg List.not_mem_nil
  refine copying.shows.congr _ (fun one => ?_) edges
  cases one with
  | inl old => exact Iff.rfl
  | inr right =>
    refine ⟨.inr, fun known => known.elim (fun head => ?_) id⟩
    obtain ⟨old, rest, block⟩ := head
    exact PartialMatch.mem_order.mpr ⟨old, PartialMatch.head_mapped block⟩

private theorem replaceAll (overlap : found.Overlap rule graph) (formed : graph.WellFormed)
    (copying : Copying found graph found.order first vertex)
    (room : first.graph.nextId + graph.edgeCount < wordRange) : ∃ split,
      (Table.distinct ((shared found).flatMap first.graph.incident)).foldlM
        (replaceEdge rule found (shared found)) first = .ok split ∧
      Replacing rule found graph first vertex
        (Table.distinct ((shared found).flatMap first.graph.incident)) split := by
  refine Listing.foldlM_prefix (Replacing rule found graph first vertex)
    _ (replacing_start copying) ?_
  intro done id rest split listed replacing
  have inside : id ∈ Table.distinct ((shared found).flatMap first.graph.incident) := by
    rw [listed]
    exact List.mem_append_right _ List.mem_cons_self
  obtain ⟨label, ends, stored, _⟩ := (mem_moved copying).mp inside
  refine replaceEdge_replacing overlap formed copying replacing ⟨label, ends, stored⟩
    (Listing.not_mem_of_split Table.nodup_distinct listed) ?_
  have counted := length_moved copying
  rw [listed, List.length_append, List.length_cons] at counted
  have before := replacing.count
  rw [Hypergraph.HasRoom]
  omega

/-- What a split leaves where it is: the vertices of the graph, as places of the first vertices of
their blocks if they are matched, and the edges that have no end to be split. -/
structure Steady (found : PartialMatch) (graph : Hypergraph) (split : Split)
    (vertex : VertexId ⊕ VertexId → VertexId) : Prop where
  kept : ∀ old, vertex (.inl old) = old
  heads : ∀ {right}, found.IsHead right → vertex (.inr right) = found.anchor right
  edges : ∀ {edge}, ¬found.Splits graph edge → split.renamed.getD edge edge = edge

/-- The split graph is the given one, where every matched vertex of the right side has a place of
its own and every edge runs as the overlap says. -/
theorem ofMatch_ok (overlap : found.Overlap rule graph) (formed : graph.WellFormed)
    (numbered : graph.Numbered)
    (room : graph.nextId + rule.right.vertexCount + graph.edgeCount < wordRange) :
    ∃ split vertex, ofMatch rule graph found = .ok split ∧
      split.graph.Shows (fan found graph (· ∈ found.order) (rerouted rule found graph)) vertex
        (fun edge => split.renamed.getD edge edge) ∧
      Tracks split.copies found.order (vertex <| .inr ·) ∧ Steady found graph split vertex ∧
      split.graph.nextId ≤ graph.nextId + rule.right.vertexCount + graph.edgeCount := by
  obtain ⟨vertex, copying⟩ := addBlocks_copying overlap formed numbered (by omega)
  have placed := length_order overlap
  have before := copying.count
  obtain ⟨split, folded, replacing⟩ := replaceAll overlap formed copying (by omega)
  refine ⟨split, vertex, folded, ?_, ?_, ⟨copying.kept, copying.heads, fun {edge} whole => ?_⟩, ?_⟩
  · refine replacing.shows.congr _ (fun _ => Iff.rfl) fun id => ?_
    change rerouted rule found graph id = partlyRerouted rule found graph _ id
    rw [partlyRerouted]
    split
    · rfl
    next unmoved =>
      refine rerouted_of_short overlap fun label ends stored old member long => unmoved ?_
      exact (mem_moved copying).mpr ⟨label, ends, stored, old, member, long⟩
  · rw [replacing.copies]
    exact copying.copies
  · rw [Table.getD_eq, replacing.fresh edge fun moved => whole ((mem_moved copying).mp moved),
      Option.getD_none]
  · have now := replacing.count
    have counted := length_moved copying
    omega

end Edges

end Split

end Coverability
