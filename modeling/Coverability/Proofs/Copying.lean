import Coverability.Hypergraph.Morphism
import Coverability.Proofs.Operations

/-! What it is to copy one graph into another along a glue. The vertices come first. They have their
turns in ascending order: one that is not glued gets the next number, and one that is glued goes
where it is glued, if that is there by then. Then come the edges, and what has been copied so far is
told by an invariant, which each edge keeps. In the end every vertex that is not glued and every
edge has a copy of its own, and nothing else has changed. -/

namespace Coverability

/-- The copy of an edge that runs between the images of its vertices. -/
def Edge.along (edge : Edge) (image : Table VertexId VertexId) (id : EdgeId) : Edge :=
  ⟨id, edge.label, edge.vertices.map fun vertex => image.getD vertex vertex⟩

namespace Hypergraph

variable {graph larger last target source current ground result : Hypergraph}
  {glue image : Table VertexId VertexId} {count more : Nat} {vertex place existing : VertexId}
  {vertices rest : List VertexId}

theorem Numbered.vertex_lt (numbered : target.Numbered) (present : target.hasVertex place = true) :
    place.number < target.nextId :=
  numbered.vertices_below place (mem_vertexIds.mpr present)

theorem Numbered.edge_lt (numbered : target.Numbered) {copy : EdgeId} {stored : Edge}
    (found : target.edge? copy = some stored) :
    copy.number < target.nextId :=
  numbered.edges_below copy (mem_edgeIds.mpr ⟨stored, found⟩)

/-- So many vertices have been added under the next numbers, and nothing else has changed. -/
structure Enlarged (graph : Hypergraph) (count : Nat) (larger : Hypergraph) : Prop where
  formed : graph.WellFormed → larger.WellFormed
  numbered : larger.Numbered
  name : larger.name = graph.name
  nextId : larger.nextId = graph.nextId + count
  edges : larger.edges = graph.edges
  vertex_iff : ∀ vertex, larger.hasVertex vertex = true ↔
    graph.hasVertex vertex = true ∨ graph.nextId ≤ vertex.number ∧
    vertex.number < graph.nextId + count
  stored : ∀ vertex, graph.hasVertex vertex = true →
    larger.vertices.get? vertex = graph.vertices.get? vertex
  listed : ∀ vertex, graph.hasVertex vertex = true → larger.incident vertex = graph.incident vertex

namespace Enlarged

theorem refl (numbered : graph.Numbered) : graph.Enlarged 0 graph where
  formed := id
  numbered := numbered
  name := rfl
  nextId := rfl
  edges := rfl
  vertex_iff _ :=
    ⟨.inl, fun known => known.resolve_right fun within => absurd within.2 (Nat.not_lt.mpr within.1)⟩
  stored _ _ := rfl
  listed _ _ := rfl

theorem trans (first : graph.Enlarged count larger) (second : larger.Enlarged more last) :
    graph.Enlarged (count + more) last where
  formed := second.formed ∘ first.formed
  numbered := second.numbered
  name := second.name.trans first.name
  nextId := by rw [second.nextId, first.nextId, Nat.add_assoc]
  edges := second.edges.trans first.edges
  vertex_iff vertex := by
    rw [second.vertex_iff, first.vertex_iff, first.nextId, or_assoc]
    apply or_congr_right
    omega
  stored vertex present :=
    (second.stored vertex ((first.vertex_iff vertex).mpr (.inl present))).trans
      (first.stored vertex present)
  listed vertex present :=
    (second.listed vertex ((first.vertex_iff vertex).mpr (.inl present))).trans
      (first.listed vertex present)

end Enlarged

theorem addVertex_enlarged (numbered : graph.Numbered) (room : graph.HasRoom) :
    graph.Enlarged 1 graph.addVertex.2 where
  formed formed := addVertex_wellFormed formed numbered
  numbered := addVertex_numbered numbered room
  name := rfl
  nextId := nextId_addVertex room
  edges := rfl
  vertex_iff vertex := by
    obtain ⟨number⟩ := vertex
    rw [hasVertex_addVertex, Bool.or_eq_true, decide_eq_true_iff, Id.mk.injEq, or_comm]
    apply or_congr_right
    dsimp only
    omega
  stored vertex present := by
    have old := numbered.vertex_lt present
    have different : vertex ≠ ⟨graph.nextId⟩ :=
      fun same => absurd (congrArg Id.number same) (Nat.ne_of_lt old)
    change (graph.vertices.insert _ _).get? vertex = _
    rw [Table.get?_insert, if_neg different]
  listed vertex present := by
    have old := numbered.vertex_lt present
    have different : vertex ≠ ⟨graph.nextId⟩ :=
      fun same => absurd (congrArg Id.number same) (Nat.ne_of_lt old)
    change (graph.incidence.insert _ _).getD vertex [] = _
    rw [Table.getD_eq, Table.get?_insert, if_neg different]
    rfl

theorem addVertices_enlarged (numbered : graph.Numbered) (room : graph.nextId + count < wordRange) :
    graph.Enlarged count (graph.addVertices count).2 := by
  induction count generalizing graph with
  | zero => exact .refl numbered
  | succ count ih =>
    have spare : graph.HasRoom := by
      unfold HasRoom
      omega
    have first := addVertex_enlarged numbered spare
    have later := ih first.numbered (by rw [first.nextId]; omega)
    have all := first.trans later
    rwa [Nat.add_comm] at all

/-- The listed vertices that are not glued. -/
def loose (glue : Table VertexId VertexId) (vertices : List VertexId) : List VertexId :=
  vertices.filter fun vertex => (glue.get? vertex).isNone

/-- Where a vertex goes: to what it is glued to, or else to the number that comes with its turn. -/
def seatFrom (start : Nat) (glue : Table VertexId VertexId) (vertices : List VertexId)
    (vertex : VertexId) : VertexId :=
  (glue.get? vertex).getD ⟨start + (loose glue vertices).idxOf vertex⟩

theorem loose_cons_glued (glued : glue.get? vertex = some existing) :
    loose glue (vertex :: rest) = loose glue rest := by
  simp [loose, glued]

theorem loose_cons_free (free : glue.get? vertex = none) :
    loose glue (vertex :: rest) = vertex :: loose glue rest := by
  simp [loose, free]

/-- The graph once a vertex has had its turn. -/
def afterTurn (graph : Hypergraph) (glue : Table VertexId VertexId)
    (vertex : VertexId) : Hypergraph :=
  if (glue.get? vertex).isNone then graph.addVertex.2 else graph

theorem afterTurn_glued (glued : glue.get? vertex = some existing) :
    graph.afterTurn glue vertex = graph := by
  simp [afterTurn, glued]

theorem afterTurn_free (free : glue.get? vertex = none) :
    graph.afterTurn glue vertex = graph.addVertex.2 := by
  simp [afterTurn, free]

theorem addVertices_loose_cons : (graph.addVertices (loose glue (vertex :: rest)).length).2 =
    ((graph.afterTurn glue vertex).addVertices (loose glue rest).length).2 := by
  cases glued : glue.get? vertex with
  | none => rw [loose_cons_free glued, afterTurn_free glued]; rfl
  | some existing => rw [loose_cons_glued glued, afterTurn_glued glued]

/-- After the first few vertices comes one that is glued to what is not there in its turn. -/
def Dangles (graph : Hypergraph) (glue : Table VertexId VertexId) (vertices before : List VertexId)
    (existing : VertexId) : Prop :=
  ∃ vertex after, vertices = before ++ vertex :: after ∧ glue.get? vertex = some existing ∧
    (graph.addVertices (loose glue before).length).2.hasVertex existing = false

theorem dangles_cons {before : List VertexId} : graph.Dangles glue (vertex :: rest) before existing ↔
    before = [] ∧ glue.get? vertex = some existing ∧ graph.hasVertex existing = false ∨
      ∃ others, before = vertex :: others ∧
        (graph.afterTurn glue vertex).Dangles glue rest others existing := by
  constructor
  · intro dangles
    obtain ⟨found, after, split, glued, absent⟩ := dangles
    rcases List.cons_eq_append_iff.mp split with ⟨rfl, same⟩ | ⟨others, rfl, later⟩
    · cases same
      exact .inl ⟨rfl, glued, absent⟩
    · rw [addVertices_loose_cons] at absent
      exact .inr ⟨others, rfl, found, after, later, glued, absent⟩
  · intro known
    rcases known with ⟨rfl, glued, absent⟩ | ⟨others, rfl, found, after, rfl, glued, absent⟩
    · exact ⟨vertex, rest, rfl, glued, absent⟩
    · rw [← addVertices_loose_cons] at absent
      exact ⟨found, after, rfl, glued, absent⟩

theorem nextId_afterTurn (room : graph.nextId + (loose glue (vertex :: rest)).length < wordRange) :
    (graph.afterTurn glue vertex).nextId + (loose glue rest).length =
      graph.nextId + (loose glue (vertex :: rest)).length := by
  cases glued : glue.get? vertex with
  | some existing => rw [afterTurn_glued glued, loose_cons_glued glued]
  | none =>
    rw [loose_cons_free glued, List.length_cons] at room ⊢
    have spare : graph.HasRoom := by
      unfold HasRoom
      omega
    rw [afterTurn_free glued, nextId_addVertex spare]
    omega

theorem seatFrom_cons_self (start : Nat) :
    seatFrom start glue (vertex :: rest) vertex = (glue.get? vertex).getD ⟨start⟩ := by
  cases glued : glue.get? vertex with
  | some existing => simp [seatFrom, glued]
  | none => simp [seatFrom, glued, loose_cons_free]

theorem seatFrom_cons_other (room : graph.nextId + (loose glue (vertex :: rest)).length < wordRange)
    {other : VertexId} (different : other ≠ vertex) :
    seatFrom graph.nextId glue (vertex :: rest) other =
      seatFrom (graph.afterTurn glue vertex).nextId glue rest other := by
  have next := nextId_afterTurn room
  cases glued : glue.get? vertex with
  | some existing => rw [afterTurn_glued glued, seatFrom, seatFrom, loose_cons_glued glued]
  | none =>
    rw [loose_cons_free glued, List.length_cons] at next
    have later : (graph.afterTurn glue vertex).nextId = graph.nextId + 1 := by omega
    rw [later, seatFrom, seatFrom, loose_cons_free glued, List.idxOf_cons_ne _ (Ne.symm different),
      Nat.succ_eq_add_one, Nat.add_right_comm, Nat.add_assoc]

/-- One vertex has its turn, if what it is glued to is there. -/
theorem copyVertices_cons
    (there : ∀ goal, glue.get? vertex = some goal → current.hasVertex goal = true) :
    current.copyVertices glue image (vertex :: rest) =
      (current.afterTurn glue vertex).copyVertices glue
        (image.insert vertex ((glue.get? vertex).getD ⟨current.nextId⟩)) rest := by
  rw [copyVertices]
  cases glued : glue.get? vertex with
  | some goal => simp only [there goal glued, if_true, afterTurn_glued glued, Option.getD_some]
  | none =>
    rw [afterTurn_free glued]
    rfl

/-- Every vertex has its turn, or one of them dangles. -/
theorem copyVertices_cases (image : Table VertexId VertexId) (distinct : rest.Nodup)
    (room : current.nextId + (loose glue rest).length < wordRange) :
    (∃ before existing, current.Dangles glue rest before existing ∧
      current.copyVertices glue image rest =
      (.error (.unknownGlueTarget existing), (current.addVertices (loose glue before).length).2)) ∨
    (∀ before existing, ¬current.Dangles glue rest before existing) ∧
      ∃ final, current.copyVertices glue image rest =
        (.ok final, (current.addVertices (loose glue rest).length).2) ∧
        ∀ vertex, final.get? vertex = if vertex ∈ rest
          then some (seatFrom current.nextId glue rest vertex) else image.get? vertex := by
  -- The graph as it is in the turn of the first vertex decides whether this one dangles; the others
  -- meet the graph after it.
  induction rest generalizing current image with
  | nil =>
    refine .inr ⟨?_, image, rfl, fun _ => rfl⟩
    intro before existing dangles
    obtain ⟨vertex, after, split, _⟩ := dangles
    cases before <;> cases split
  | cons first rest ih =>
    obtain ⟨new, distinct⟩ := List.nodup_cons.mp distinct
    by_cases there : ∀ goal, glue.get? first = some goal → current.hasVertex goal = true
    · have spare := nextId_afterTurn room ▸ room
      rw [copyVertices_cons there, addVertices_loose_cons]
      rcases ih (image.insert first ((glue.get? first).getD ⟨current.nextId⟩)) distinct spare with
        ⟨before, existing, dangles, outcome⟩ | ⟨safe, final, outcome, images⟩
      · refine .inl ⟨first :: before, existing, dangles_cons.mpr (.inr ⟨before, rfl, dangles⟩), ?_⟩
        rw [outcome, addVertices_loose_cons]
      · refine .inr ⟨?_, final, outcome, ?_⟩
        · intro before existing dangles
          rcases dangles_cons.mp dangles with ⟨_, glued, absent⟩ | ⟨others, _, later⟩
          · cases (there existing glued).symm.trans absent
          · exact safe others existing later
        · intro vertex
          rw [images]
          by_cases same : vertex = first
          · subst same
            rw [if_neg new, if_pos List.mem_cons_self, Table.get?_insert, if_pos rfl,
              seatFrom_cons_self]
          · rw [seatFrom_cons_other room same, Table.get?_insert, if_neg same]
            simp only [List.mem_cons, same, false_or]
    · obtain ⟨goal, glued, absent⟩ : ∃ goal, glue.get? first = some goal ∧
          current.hasVertex goal = false := by
        simpa only [not_forall, Bool.not_eq_true, exists_prop] using there
      refine .inl ⟨[], goal, dangles_cons.mpr (.inl ⟨rfl, glued, absent⟩), ?_⟩
      simp only [copyVertices, glued, absent, Bool.false_eq_true, if_false]
      rfl

theorem length_loose_le {before : List VertexId} (split : before <+: vertices) :
    (loose glue before).length ≤ (loose glue vertices).length :=
  (split.filter _).length_le

/-- A vertex that dangles is glued to what was not there before and is not the copy of a vertex
before it either. -/
theorem dangles_iff (numbered : graph.Numbered)
    (room : graph.nextId + (loose glue vertices).length < wordRange) {before : List VertexId} :
    graph.Dangles glue vertices before existing ↔
    ∃ vertex after, vertices = before ++ vertex :: after ∧ glue.get? vertex = some existing ∧
      graph.hasVertex existing = false ∧
      ¬(graph.nextId ≤ existing.number ∧
        existing.number < graph.nextId + (loose glue before).length) := by
  refine exists_congr fun vertex => exists_congr fun after =>
    and_congr_right fun split => and_congr_right fun _ => ?_
  have fewer : (loose glue before).length ≤ (loose glue vertices).length :=
    length_loose_le (split ▸ List.prefix_append _ _)
  have enlarged :=
    addVertices_enlarged numbered (Nat.lt_of_le_of_lt (Nat.add_le_add_left fewer _) room)
  rw [← Bool.not_eq_true, enlarged.vertex_iff, not_or, Bool.not_eq_true]

theorem mem_loose : vertex ∈ loose glue vertices ↔ vertex ∈ vertices ∧ glue.get? vertex = none := by
  rw [loose, List.mem_filter, Option.isNone_iff_eq_none]

/-- All vertices have had their turn. Those that are not glued have the next numbers, each
one of its own. -/
structure Seated (target : Hypergraph) (glue : Table VertexId VertexId) (vertices : List VertexId)
    (image : Table VertexId VertexId) (ground : Hypergraph) : Prop where
  enlarged : target.Enlarged (loose glue vertices).length ground
  defined : ∀ {vertex}, (∃ place, image.get? vertex = some place) ↔ vertex ∈ vertices
  glued : ∀ {vertex existing}, vertex ∈ vertices → glue.get? vertex = some existing →
    image.get? vertex = some existing
  fresh : ∀ {vertex place}, glue.get? vertex = none → image.get? vertex = some place →
    target.nextId ≤ place.number ∧ place.number < ground.nextId
  apart : ∀ {one other place}, glue.get? one = none → glue.get? other = none →
    image.get? one = some place →
    image.get? other = some place → one = other
  present : ∀ {vertex place}, image.get? vertex = some place → ground.hasVertex place = true
  vertex_iff : ∀ {place}, ground.hasVertex place = true ↔
    target.hasVertex place = true ∨ ∃ vertex, glue.get? vertex = none ∧ image.get? vertex = some place

/-- Where a vertex that is not glued goes. -/
theorem seatFrom_free {start : Nat} (free : glue.get? vertex = none) :
    seatFrom start glue vertices vertex = ⟨start + (loose glue vertices).idxOf vertex⟩ := by
  rw [seatFrom, free, Option.getD_none]

theorem seatFrom_glued {start : Nat} (glued : glue.get? vertex = some existing) :
    seatFrom start glue vertices vertex = existing := by
  rw [seatFrom, glued, Option.getD_some]

/-- Where nothing dangles, everything is there that a vertex is glued to. -/
theorem hasVertex_of_safe (numbered : target.Numbered)
    (room : target.nextId + (loose glue vertices).length < wordRange)
    (safe : ∀ before existing, ¬target.Dangles glue vertices before existing)
    (member : vertex ∈ vertices) (glued : glue.get? vertex = some existing) :
    (target.addVertices (loose glue vertices).length).2.hasVertex existing = true := by
  obtain ⟨before, after, split⟩ := List.append_of_mem member
  by_contra absent
  rw [(addVertices_enlarged numbered room).vertex_iff, not_or, Bool.not_eq_true] at absent
  refine safe before existing
    ((dangles_iff numbered room).mpr ⟨vertex, after, split, glued, absent.1,
      fun within => absent.2 ⟨within.1, ?_⟩⟩)
  have fewer : (loose glue before).length ≤ (loose glue vertices).length :=
    length_loose_le (split ▸ List.prefix_append _ _)
  omega

theorem seated_of_seats (numbered : target.Numbered) (distinct : vertices.Nodup)
    (room : target.nextId + (loose glue vertices).length < wordRange)
    (safe : ∀ before existing, ¬target.Dangles glue vertices before existing)
    (images : ∀ vertex, image.get? vertex = if vertex ∈ vertices
      then some (seatFrom target.nextId glue vertices vertex) else none) :
    target.Seated glue vertices image (target.addVertices (loose glue vertices).length).2 := by
  have enlarged := addVertices_enlarged numbered room
  have seat : ∀ {vertex place}, image.get? vertex = some place ↔
      vertex ∈ vertices ∧ seatFrom target.nextId glue vertices vertex = place := by
    intro vertex place
    rw [images]
    by_cases member : vertex ∈ vertices <;> simp [member]
  have number : ∀ {vertex place}, glue.get? vertex = none → image.get? vertex = some place →
      (loose glue vertices).idxOf vertex < (loose glue vertices).length ∧
      place = ⟨target.nextId + (loose glue vertices).idxOf vertex⟩ := by
    intro vertex place free known
    obtain ⟨member, rfl⟩ := seat.mp known
    exact ⟨List.idxOf_lt_length_of_mem (mem_loose.mpr ⟨member, free⟩), seatFrom_free free⟩
  have fresh : ∀ {vertex place}, glue.get? vertex = none → image.get? vertex = some place →
      target.nextId ≤ place.number ∧ place.number < target.nextId + (loose glue vertices).length := by
    intro vertex place free known
    obtain ⟨below, rfl⟩ := number free known
    exact ⟨Nat.le_add_right _ _, Nat.add_lt_add_left below _⟩
  refine ⟨enlarged, ?_, ?_, ?_, ?_, ?_, ?_⟩
  · intro vertex
    simp only [seat, exists_and_left, exists_eq', and_true]
  · intro vertex existing member glued
    exact seat.mpr ⟨member, seatFrom_glued glued⟩
  · intro vertex place free known
    rw [enlarged.nextId]
    exact fresh free known
  · intro one other place freeOne freeOther first second
    obtain ⟨_, same⟩ := number freeOne first
    obtain ⟨_, again⟩ := number freeOther second
    rw [same, Id.mk.injEq, Nat.add_left_cancel_iff] at again
    exact (List.idxOf_inj (mem_loose.mpr ⟨(seat.mp first).1, freeOne⟩)).mp again
  · intro vertex place known
    cases glued : glue.get? vertex with
    | none => exact (enlarged.vertex_iff place).mpr (.inr (fresh glued known))
    | some existing =>
      obtain ⟨member, rfl⟩ := seat.mp known
      rw [seatFrom_glued glued]
      exact hasVertex_of_safe numbered room safe member glued
  · intro place
    rw [enlarged.vertex_iff]
    refine or_congr_right ⟨fun within => ?_, fun ⟨vertex, free, known⟩ => fresh free known⟩
    have below : place.number - target.nextId < (loose glue vertices).length := by omega
    have member := mem_loose.mp (List.getElem_mem below)
    refine ⟨(loose glue vertices)[place.number - target.nextId], member.2, seat.mpr ⟨member.1, ?_⟩⟩
    have position : (loose glue vertices).idxOf
        (loose glue vertices)[place.number - target.nextId] = place.number - target.nextId :=
      (distinct.filter _).idxOf_getElem _ below
    rw [seatFrom_free member.2, position, Nat.add_sub_cancel' within.1]

/-- Every vertex has its turn and is seated, or one of them dangles. -/
theorem copyVertices_seated (numbered : target.Numbered) (distinct : vertices.Nodup)
    (room : target.nextId + (loose glue vertices).length < wordRange) :
    (∃ before existing, target.Dangles glue vertices before existing ∧
      target.copyVertices glue ∅ vertices =
      (.error (.unknownGlueTarget existing), (target.addVertices (loose glue before).length).2)) ∨
    (∀ before existing, ¬target.Dangles glue vertices before existing) ∧
      ∃ image ground, target.copyVertices glue ∅ vertices = (.ok image, ground) ∧
        target.Seated glue vertices image ground := by
  rcases copyVertices_cases ∅ distinct room with dangling | ⟨safe, image, outcome, images⟩
  · exact .inl dangling
  · exact .inr ⟨safe, image, _, outcome, seated_of_seats numbered distinct room safe images⟩

/-- Some edges have been copied along the images of their vertices. -/
structure Laid (ground : Hypergraph) (image : Table VertexId VertexId) (done : List Edge)
    (edges : Table EdgeId EdgeId) (result : Hypergraph) : Prop where
  formed : ground.WellFormed → result.WellFormed
  numbered : result.Numbered
  grown : ground.nextId ≤ result.nextId
  taken : result.nextId ≤ ground.nextId + done.length
  vertices : ∀ place, result.hasVertex place = ground.hasVertex place
  edge_iff : ∀ {copy stored}, result.edge? copy = some stored ↔
    ground.edge? copy = some stored ∨ ∃ edge ∈ done, edges.get? edge.id = some copy ∧
      stored = edge.along image copy
  defined : ∀ {edge}, edge ∈ done.map Edge.id ↔ ∃ copy, edges.get? edge = some copy
  fresh : ∀ {edge copy}, edges.get? edge = some copy → ground.nextId ≤ copy.number
  injective : ∀ {one other copy}, edges.get? one = some copy →
    edges.get? other = some copy → one = other

namespace Laid

variable {edges : Table EdgeId EdgeId} {laid : List Edge}

theorem nil (numbered : ground.Numbered) : Laid ground image [] ∅ ground where
  formed := id
  numbered := numbered
  grown := Nat.le_refl _
  taken := Nat.le_refl _
  vertices _ := rfl
  edge_iff := ⟨.inl, fun known => known.resolve_right nofun⟩
  defined := ⟨nofun, nofun⟩
  fresh := nofun
  injective := nofun

private theorem mem_create (edges : Table EdgeId EdgeId) {edge : Edge}
    (new : edge.id ∉ laid.map Edge.id) {copy known : EdgeId} {stored : Edge} :
    (∃ original ∈ laid ++ [edge], (edges.insert edge.id copy).get? original.id = some known ∧
      stored = original.along image known) ↔
      (∃ original ∈ laid, edges.get? original.id = some known ∧ stored = original.along image known) ∨
        known = copy ∧ stored = edge.along image known := by
  have before : ∀ original ∈ laid, (edges.insert edge.id copy).get? original.id =
      edges.get? original.id := by
    intro original member
    rw [Table.get?_insert, if_neg]
    exact fun same => new (same ▸ List.mem_map_of_mem member)
  simp only [List.mem_append, List.mem_singleton, or_and_right, exists_or, exists_eq_left]
  apply or_congr
  · exact exists_congr fun original => and_congr_right fun member => by rw [before original member]
  · rw [Table.get?_insert, if_pos rfl, Option.some.injEq, eq_comm]

/-- One more edge is copied, under the next identifier. -/
theorem create (soFar : Laid ground image laid edges current) {edge : Edge}
    (new : edge.id ∉ laid.map Edge.id) (room : current.HasRoom) {copy : EdgeId}
    (added : current.addEdge edge.label (edge.vertices.map fun vertex => image.getD vertex vertex) =
      .ok (copy, result)) :
    Laid ground image (laid ++ [edge]) (edges.insert edge.id copy) result := by
  have number : copy = ⟨current.nextId⟩ := addEdge_id added
  have next : result.nextId = current.nextId + 1 := (nextId_addEdge added).trans (counted_eq room)
  have absent : current.edge? copy = none := number ▸ soFar.numbered.fresh_edge
  have unused : ∀ {other}, edges.get? other ≠ some copy := by
    intro other found
    obtain ⟨original, member, same⟩ := List.mem_map.mp (soFar.defined.mpr ⟨copy, found⟩)
    have present := soFar.edge_iff.mpr (.inr ⟨original, member, same ▸ found, rfl⟩)
    cases absent.symm.trans present
  refine ⟨fun formed => addEdge_wellFormed added (soFar.formed formed) soFar.numbered,
    addEdge_numbered added soFar.numbered room, ?_, ?_, ?_, ?_, ?_, ?_, ?_⟩
  · rw [next]
    exact Nat.le_succ_of_le soFar.grown
  · rw [next, List.length_append]
    exact Nat.succ_le_succ soFar.taken
  · intro place
    exact (hasVertex_addEdge added).trans (soFar.vertices place)
  · intro known stored
    rw [mem_create edges new, ← or_assoc, ← soFar.edge_iff, edge?_addEdge added, ← number]
    split
    next same =>
      subst same
      rw [absent, or_iff_right nofun, and_iff_right rfl, Option.some.injEq, eq_comm]
      rfl
    next different => rw [or_iff_left fun again => different again.1]
  · intro other
    rw [List.map_append]
    exact Table.mem_append_iff_get?_insert soFar.defined
  · intro other known held
    rw [Table.get?_insert] at held
    split at held
    · cases held
      rw [number]
      exact soFar.grown
    · exact soFar.fresh held
  · exact Table.injective_insert soFar.injective unused

end Laid

/-- All listed edges are copied if their vertices have images. -/
theorem copyEdges_laid {edges : Table EdgeId EdgeId} {laid rest : List Edge}
    (soFar : Laid ground image laid edges current)
    (inside : ∀ edge ∈ rest, ∀ vertex ∈ edge.vertices,
      ground.hasVertex (image.getD vertex vertex) = true)
    (distinct : ((laid ++ rest).map Edge.id).Nodup)
    (room : ground.nextId + (laid ++ rest).length < wordRange) :
    ∃ final result, current.copyEdges ⟨image, edges⟩ rest = (.ok ⟨image, final⟩, result) ∧
      Laid ground image (laid ++ rest) final result := by
  induction rest generalizing laid edges current with
  | nil =>
    rw [List.append_nil]
    exact ⟨edges, current, rfl, soFar⟩
  | cons edge rest ih =>
    rw [List.forall_mem_cons] at inside
    have split : laid ++ edge :: rest = (laid ++ [edge]) ++ rest := by
      rw [List.append_assoc, List.singleton_append]
    have new : edge.id ∉ laid.map Edge.id := by
      rw [List.map_append, List.nodup_append] at distinct
      exact fun again => distinct.2.2 edge.id again edge.id List.mem_cons_self rfl
    have spare : current.HasRoom := by
      have taken := soFar.taken
      rw [List.length_append, List.length_cons] at room
      change current.nextId + 1 < wordRange
      omega
    have ends : ∀ place ∈ edge.vertices.map (fun vertex => image.getD vertex vertex),
        current.hasVertex place = true := by
      intro place member
      obtain ⟨vertex, listed, rfl⟩ := List.mem_map.mp member
      rw [soFar.vertices]
      exact inside.1 vertex listed
    obtain ⟨⟨copy, after⟩, added⟩ : ∃ pair, current.addEdge edge.label _ = .ok pair :=
      addEdge_succeeds ends
    rw [split] at distinct room ⊢
    rw [copyEdges, added]
    exact ih (soFar.create new spare added) inside.2 distinct room

theorem Seated.get?_eq (seated : target.Seated glue source.vertexIds image ground)
    (shaped : source.WellFormed) {edge : Edge} (listed : edge ∈ source.edgeList)
    (member : vertex ∈ edge.vertices) : image.get? vertex = some (image.getD vertex vertex) := by
  obtain ⟨place, known⟩ :=
    seated.defined.mpr (mem_vertexIds.mpr (shaped.has_ends (shaped.mem_edgeList.mp listed) member))
  rw [Table.getD_eq, known, Option.getD_some]

/-- Once all vertices have had their turn, every edge can be copied. -/
theorem Seated.copyEdges_laid (seated : target.Seated glue source.vertexIds image ground)
    (shaped : source.WellFormed) (room : ground.nextId + source.edgeCount < wordRange) :
    ∃ edges result, ground.copyEdges { vertices := image } source.edgeList =
      (.ok ⟨image, edges⟩, result) ∧
      Laid ground image source.edgeList edges result :=
  Hypergraph.copyEdges_laid (Laid.nil seated.enlarged.numbered)
    (fun _ listed _ member => seated.present (seated.get?_eq shaped listed member))
      (shaped.edgeList_ids ▸ nodup_edgeIds)
    (by rw [List.nil_append, WellFormed.length_edgeList]; exact room)

/-- One graph has been copied into another. A glued vertex has become the one it is glued to; all
else has a copy of its own, which the other graph has not had before. -/
structure Copied (target source : Hypergraph) (glue : Table VertexId VertexId) (morphism : Morphism)
    (result : Hypergraph) : Prop where
  formed : target.WellFormed → result.WellFormed
  numbered : result.Numbered
  taken : result.nextId ≤ target.nextId + (source.vertexCount + source.edgeCount)
  vertex_iff : ∀ {place}, result.hasVertex place = true ↔
    target.hasVertex place = true ∨ ∃ vertex, glue.get? vertex = none ∧
      morphism.vertices.get? vertex = some place
  vertex_defined : ∀ {vertex}, source.hasVertex vertex = true ↔
    ∃ place, morphism.vertices.get? vertex = some place
  vertex_glued : ∀ {vertex place existing}, glue.get? vertex = some existing →
    morphism.vertices.get? vertex = some place →
    place = existing ∧ target.hasVertex existing = true
  vertex_fresh : ∀ {vertex place}, glue.get? vertex = none →
    morphism.vertices.get? vertex = some place → target.hasVertex place = false
  vertex_injective : ∀ {one other place}, glue.get? one = none → glue.get? other = none →
    morphism.vertices.get? one = some place → morphism.vertices.get? other = some place → one = other
  edge_iff : ∀ {copy stored}, result.edge? copy = some stored ↔ target.edge? copy = some stored ∨
    ∃ id edge, source.edge? id = some edge ∧ morphism.edges.get? id = some copy ∧
      stored = edge.along morphism.vertices copy
  edge_defined : ∀ {id}, (∃ edge, source.edge? id = some edge) ↔
    ∃ copy, morphism.edges.get? id = some copy
  edge_fresh : ∀ {id copy}, morphism.edges.get? id = some copy → target.edge? copy = none
  edge_injective : ∀ {one other copy}, morphism.edges.get? one = some copy →
    morphism.edges.get? other = some copy → one = other

/-- A glued copy succeeds where everything exists that the source is glued to and there are
identifiers left. -/
theorem glueCopy_copied (numbered : target.Numbered) (formed : source.WellFormed)
    (present : ∀ vertex existing, source.hasVertex vertex = true →
      glue.get? vertex = some existing → target.hasVertex existing = true)
    (room : target.nextId + (source.vertexCount + source.edgeCount) < wordRange) :
    ∃ morphism result, target.glueCopy source glue = (.ok morphism, result) ∧
      Copied target source glue morphism result := by
  have fewer : (loose glue source.vertexIds).length ≤ source.vertexCount :=
    length_vertexIds ▸ List.length_filter_le _ _
  have spare : target.nextId + (loose glue source.vertexIds).length < wordRange := by omega
  obtain ⟨_, image, ground, seating, seated⟩ :=
    (copyVertices_seated numbered nodup_vertexIds spare).resolve_left (by
      intro ⟨before, existing, dangles, _⟩
      obtain ⟨vertex, after, split, attached, absent, _⟩ := (dangles_iff numbered spare).mp dangles
      have member : vertex ∈ source.vertexIds :=
        split ▸ List.mem_append_right before List.mem_cons_self
      rw [present vertex existing (mem_vertexIds.mp member) attached] at absent
      cases absent)
  have enlarged := seated.enlarged
  have next := enlarged.nextId
  obtain ⟨edges, result, laying, laid⟩ := seated.copyEdges_laid formed (by omega)
  have defined : ∀ {vertex}, source.hasVertex vertex = true ↔
      ∃ place, image.get? vertex = some place :=
    mem_vertexIds.symm.trans seated.defined.symm
  have before : ∀ copy, ground.edge? copy = target.edge? copy :=
    fun copy => congrArg (fun table => Table.get? table copy) enlarged.edges
  refine ⟨⟨image, edges⟩, result, ?_, laid.formed ∘ enlarged.formed, laid.numbered, ?_, ?_, defined,
    ?_, ?_, seated.apart, ?_, ?_, ?_, laid.injective⟩
  · rw [glueCopy, seating]
    exact laying
  · have more := laid.taken
    rw [WellFormed.length_edgeList] at more
    omega
  · intro place
    rw [laid.vertices]
    exact seated.vertex_iff
  · intro vertex place existing attached known
    have member := defined.mpr ⟨place, known⟩
    rw [seated.glued (mem_vertexIds.mpr member) attached] at known
    exact ⟨(Option.some.inj known).symm, present vertex existing member attached⟩
  · intro vertex place free known
    by_contra inside
    rw [Bool.not_eq_false] at inside
    exact absurd (numbered.vertex_lt inside) (Nat.not_lt.mpr (seated.fresh free known).1)
  · intro copy stored
    rw [laid.edge_iff, before]
    refine or_congr_right ⟨fun ⟨edge, listed, held, same⟩ => ?_,
      fun ⟨id, edge, found, held, same⟩ => ?_⟩
    · exact ⟨edge.id, edge, formed.mem_edgeList.mp listed, held, same⟩
    · have keyed := formed.edge_id found
      exact ⟨edge, formed.mem_edgeList.mpr (keyed.symm ▸ found), keyed.symm ▸ held, same⟩
  · intro id
    rw [← laid.defined, formed.edgeList_ids, mem_edgeIds]
  · intro id copy held
    refine Option.eq_none_iff_forall_ne_some.mpr fun stored found => ?_
    rw [← before] at found
    exact absurd (enlarged.numbered.edge_lt found) (Nat.not_lt.mpr (laid.fresh held))

end Hypergraph

end Coverability
