import Coverability.Proofs.Copying

/-! What a glued copy comes to, whatever it is glued to. It fails in the turn of a vertex that is
glued to what is not there. Since copies of earlier vertices are there as well, a glue may also lead
to a vertex that the target did not have before. -/

namespace Coverability.Hypergraph

variable {graph target source ground : Hypergraph} {glue image : Table VertexId VertexId}
  {vertex place existing : VertexId}

/-- Copying edges changes no vertex, and only appends to the index. -/
theorem copyEdges_keeps (graph : Hypergraph) (morphism : Morphism) (edges : List Edge) :
    (graph.copyEdges morphism edges).2.name = graph.name ∧
    (graph.copyEdges morphism edges).2.vertices = graph.vertices ∧
      ∀ vertex, graph.incident vertex <+: (graph.copyEdges morphism edges).2.incident vertex := by
  induction edges generalizing graph morphism with
  | nil => exact ⟨rfl, rfl, fun _ => List.prefix_rfl⟩
  | cons edge rest ih =>
    rw [copyEdges]
    split
    next id after added =>
      obtain ⟨name, vertices, listed⟩ :=
        ih after { morphism with edges := morphism.edges.insert edge.id id }
      obtain ⟨_, _, same⟩ := addEdge_ok added
      refine ⟨name.trans (by rw [same]), vertices.trans (by rw [same]), fun vertex =>
        List.IsPrefix.trans ?_ (listed vertex)⟩
      rw [same, incident, incident, Table.getD_eq, Table.getD_eq, get?_append]
      cases graph.incidence.get? vertex with
      | none => exact List.prefix_rfl
      | some list => exact List.prefix_append _ _
    · exact ⟨rfl, rfl, fun _ => List.prefix_rfl⟩

/-- One graph has been glued to another. The morphism tells where everything has gone. -/
structure Glued (target source : Hypergraph) (glue : Table VertexId VertexId) (morphism : Morphism)
    (result : Hypergraph) : Prop where
  formed : result.WellFormed
  numbered : result.Numbered
  name : result.name = target.name
  vertex_defined : ∀ vertex, (∃ place, morphism.vertex? vertex = some place) ↔
    source.hasVertex vertex = true
  edge_defined : ∀ id, (∃ copy, morphism.edge? id = some copy) ↔ source.hasEdge id = true
  vertex_glued : ∀ {vertex existing}, source.hasVertex vertex = true →
    glue.get? vertex = some existing → morphism.vertex? vertex = some existing
  vertex_fresh : ∀ {vertex place}, glue.get? vertex = none → morphism.vertex? vertex = some place →
    target.nextId ≤ place.number
  edge_fresh : ∀ {id copy}, morphism.edge? id = some copy → target.nextId ≤ copy.number
  vertex_apart : ∀ {one other place}, glue.get? one = none → glue.get? other = none →
    morphism.vertex? one = some place →
    morphism.vertex? other = some place → one = other
  edge_apart : ∀ {one other copy}, morphism.edge? one = some copy →
    morphism.edge? other = some copy → one = other
  kinds_apart : ∀ {vertex place id copy}, glue.get? vertex = none →
    morphism.vertex? vertex = some place → morphism.edge? id = some copy →
    place.number ≠ copy.number
  edge_copied : ∀ {id edge}, source.edge? id = some edge →
    ∃ copy stored, morphism.edge? id = some copy ∧ result.edge? copy = some stored ∧
    stored.label = edge.label ∧ stored.vertices.map some = edge.vertices.map morphism.vertex?
  vertex_kept : ∀ {vertex}, target.hasVertex vertex = true →
    result.vertices.get? vertex = target.vertices.get? vertex
  listed_kept : ∀ {vertex}, target.hasVertex vertex = true →
    target.incident vertex <+: result.incident vertex
  edge_kept : ∀ {id edge}, target.edge? id = some edge → result.edge? id = some edge
  vertex_known : ∀ {place}, result.hasVertex place = true →
    target.hasVertex place = true ∨ ∃ vertex, glue.get? vertex = none ∧
      morphism.vertex? vertex = some place
  edge_known : ∀ {copy}, result.hasEdge copy = true → target.hasEdge copy = true ∨
    ∃ id, morphism.edge? id = some copy

/-- Once all vertices have had their turn, every edge can be copied. -/
theorem copyEdges_glued (formed : target.WellFormed) (shaped : source.WellFormed)
    (seated : target.Seated glue source.vertexIds image ground)
    (room : ground.nextId + source.edgeCount < wordRange) :
    ∃ edges result, ground.copyEdges { vertices := image } source.edgeList =
      (.ok ⟨image, edges⟩, result) ∧
      target.Glued source glue ⟨image, edges⟩ result := by
  have enlarged := seated.enlarged
  obtain ⟨edges, result, outcome, laid⟩ := seated.copyEdges_laid shaped room
  obtain ⟨name, vertices, listed⟩ := copyEdges_keeps ground { vertices := image } source.edgeList
  rw [outcome] at name vertices listed
  have before : ∀ copy, ground.edge? copy = target.edge? copy :=
    fun copy => congrArg (fun table => Table.get? table copy) enlarged.edges
  have above : ∀ {id copy}, edges.get? id = some copy → target.nextId ≤ copy.number := by
    intro id copy held
    have later := laid.fresh held
    rw [enlarged.nextId] at later
    omega
  refine ⟨edges, result, outcome, laid.formed (enlarged.formed formed), laid.numbered,
    name.trans enlarged.name, fun vertex => seated.defined.trans mem_vertexIds, ?_, ?_, ?_, above,
    seated.apart, laid.injective, ?_, ?_, ?_, ?_, ?_, ?_, ?_⟩
  · intro id
    rw [hasEdge_iff, ← mem_edgeIds, ← shaped.edgeList_ids]
    exact laid.defined.symm
  · intro vertex existing member attached
    exact seated.glued (mem_vertexIds.mpr member) attached
  · intro vertex place free known
    exact (seated.fresh free known).1
  · intro vertex place id copy free known held
    exact Nat.ne_of_lt (Nat.lt_of_lt_of_le (seated.fresh free known).2 (laid.fresh held))
  · intro id edge found
    have keyed := shaped.edge_id found
    have member := shaped.mem_edgeList.mpr (keyed.symm ▸ found)
    obtain ⟨copy, held⟩ := laid.defined.mp (List.mem_map_of_mem member)
    refine ⟨copy, edge.along image copy, keyed ▸ held,
      laid.edge_iff.mpr (.inr ⟨edge, member, held, rfl⟩), rfl, ?_⟩
    rw [Edge.along, List.map_map]
    exact List.map_congr_left fun vertex inside => (seated.get?_eq shaped member inside).symm
  · intro vertex present
    exact (congrArg (fun table => Table.get? table vertex) vertices).trans
      (enlarged.stored vertex present)
  · intro vertex present
    exact enlarged.listed vertex present ▸ listed vertex
  · intro id edge found
    exact laid.edge_iff.mpr (.inl ((before id).trans found))
  · intro place present
    exact seated.vertex_iff.mp ((laid.vertices place).symm.trans present)
  · intro copy present
    obtain ⟨stored, found⟩ := hasEdge_iff.mp present
    rcases laid.edge_iff.mp found with old | ⟨edge, _, held, _⟩
    · exact .inl (hasEdge_iff.mpr ⟨stored, (before copy).symm.trans old⟩)
    · exact .inr ⟨edge.id, held⟩

/-- A glued copy fails in the turn of a vertex that dangles, and succeeds if none does. -/
theorem glueCopy_cases (formed : target.WellFormed) (numbered : target.Numbered)
    (shaped : source.WellFormed)
    (room : target.nextId + ((loose glue source.vertexIds).length + source.edgeCount) < wordRange) :
    (∃ before existing, target.Dangles glue source.vertexIds before existing ∧
      target.glueCopy source glue =
      (.error (.unknownGlueTarget existing), (target.addVertices (loose glue before).length).2)) ∨
    (∀ before existing, ¬target.Dangles glue source.vertexIds before existing) ∧
      ∃ morphism result, target.glueCopy source glue = (.ok morphism, result) ∧
        target.Glued source glue morphism result := by
  have spare : target.nextId + (loose glue source.vertexIds).length < wordRange := by omega
  rcases copyVertices_seated numbered nodup_vertexIds
    spare with ⟨before, existing, dangles, outcome⟩ | ⟨safe, image, ground, outcome, seated⟩
  · refine .inl ⟨before, existing, dangles, ?_⟩
    rw [glueCopy, outcome]
  · obtain ⟨edges, result, laying, glued⟩ :=
      copyEdges_glued formed shaped seated (by rw [seated.enlarged.nextId]; omega)
    refine .inr ⟨safe, ⟨image, edges⟩, result, ?_, glued⟩
    rw [glueCopy, outcome]
    exact laying

theorem glueCopy_fails_iff (formed : target.WellFormed) (numbered : target.Numbered)
    (shaped : source.WellFormed)
    (room : target.nextId + ((loose glue source.vertexIds).length + source.edgeCount) < wordRange) :
    (∃ fault, (target.glueCopy source glue).1 = .error fault) ↔
      ∃ before existing, target.Dangles glue source.vertexIds before existing := by
  rcases glueCopy_cases formed numbered shaped room with ⟨before, existing, dangles, outcome⟩ |
    ⟨safe, morphism, result, outcome, _⟩
  · exact iff_of_true ⟨_, congrArg Prod.fst outcome⟩ ⟨before, existing, dangles⟩
  · rw [outcome]
    exact iff_of_false nofun fun ⟨before, existing, dangles⟩ => safe before existing dangles

theorem glueCopy_glued (formed : target.WellFormed) (numbered : target.Numbered)
    (shaped : source.WellFormed)
    (room : target.nextId + ((loose glue source.vertexIds).length + source.edgeCount) < wordRange)
    {morphism : Morphism} (copied : (target.glueCopy source glue).1 = .ok morphism) :
    target.Glued source glue morphism (target.glueCopy source glue).2 := by
  rcases glueCopy_cases formed numbered shaped room with ⟨before, existing, _, outcome⟩ |
    ⟨_, found, result, outcome, glued⟩
  · rw [outcome] at copied
    cases copied
  · rw [outcome] at copied ⊢
    cases copied
    exact glued

namespace Glued

variable {morphism : Morphism} {result : Hypergraph}

theorem vertex_new (glued : target.Glued source glue morphism result) (numbered : target.Numbered)
    (free : glue.get? vertex = none) (known : morphism.vertex? vertex = some place) :
    target.hasVertex place = false := by
  by_contra present
  rw [Bool.not_eq_false] at present
  exact absurd (numbered.vertex_lt present) (Nat.not_lt.mpr (glued.vertex_fresh free known))

theorem edge_new (glued : target.Glued source glue morphism result) (numbered : target.Numbered)
    {id copy : EdgeId} (held : morphism.edge? id = some copy) : target.hasEdge copy = false := by
  by_contra present
  rw [Bool.not_eq_false] at present
  obtain ⟨stored, found⟩ := hasEdge_iff.mp present
  exact absurd (numbered.edge_lt found) (Nat.not_lt.mpr (glued.edge_fresh held))

end Glued

/-- A glued copy fails just if some vertex is glued to what the graph neither had nor got for an
earlier vertex. For glues that lead only to numbers already given, this is to say that some vertex
is glued to what the graph does not have. Where the copy succeeds, the other graph has been glued
on, and without a glue it comes to lie beside what was there. -/
theorem glueCopy_exact (formed : target.WellFormed) (numbered : target.Numbered)
    (shaped : source.WellFormed)
    (room : target.nextId + ((loose glue source.vertexIds).length + source.edgeCount) < wordRange) :
    ((∃ fault, (target.glueCopy source glue).1 = .error fault) ↔
      ∃ before vertex after existing, source.vertexIds = before ++ vertex :: after ∧
        glue.get? vertex = some existing ∧
        target.hasVertex existing = false ∧
        ¬(target.nextId ≤ existing.number ∧
          existing.number < target.nextId + (loose glue before).length)) ∧
    ((∀ vertex existing, source.hasVertex vertex = true → glue.get? vertex = some existing →
      existing.number < target.nextId) →
      ((∃ fault, (target.glueCopy source glue).1 = .error fault) ↔
        ∃ vertex existing, source.hasVertex vertex = true ∧ glue.get? vertex = some existing ∧
          target.hasVertex existing = false)) ∧
    (∀ morphism, (target.glueCopy source glue).1 = .ok morphism →
      target.Glued source glue morphism (target.glueCopy source glue).2) ∧
    (glue = ∅ → ∃ morphism, (target.glueCopy source glue).1 = .ok morphism ∧
      (∀ vertex place, morphism.vertex? vertex = some place → target.hasVertex place = false ∧
        ∀ other, morphism.vertex? other = some place → other = vertex) ∧
      ∀ id copy, morphism.edge? id = some copy → target.hasEdge copy = false ∧
        ∀ other, morphism.edge? other = some copy → other = id) := by
  have fails : (∃ fault, (target.glueCopy source glue).1 = .error fault) ↔
      ∃ before vertex after existing,
      source.vertexIds = before ++ vertex :: after ∧ glue.get? vertex = some existing ∧
      target.hasVertex existing = false ∧
        ¬(target.nextId ≤ existing.number ∧
          existing.number < target.nextId + (loose glue before).length) := by
    have spare : target.nextId + (loose glue source.vertexIds).length < wordRange := by omega
    rw [glueCopy_fails_iff formed numbered shaped room]
    simp only [dangles_iff numbered spare]
    constructor
    · intro ⟨before, existing, vertex, after, dangles⟩
      exact ⟨before, vertex, after, existing, dangles⟩
    · intro ⟨before, vertex, after, existing, dangles⟩
      exact ⟨before, existing, vertex, after, dangles⟩
  refine ⟨fails, fun given => ?_, fun morphism =>
    glueCopy_glued formed numbered shaped room, fun bare => ?_⟩
  · rw [fails]
    constructor
    · intro ⟨before, vertex, after, existing, split, attached, absent, _⟩
      have member : vertex ∈ source.vertexIds :=
        split ▸ List.mem_append_right before List.mem_cons_self
      exact ⟨vertex, existing, mem_vertexIds.mp member, attached, absent⟩
    · intro ⟨vertex, existing, member, attached, absent⟩
      obtain ⟨before, after, split⟩ := List.append_of_mem (mem_vertexIds.mpr member)
      have old := given vertex existing member attached
      exact ⟨before, vertex, after, existing, split, attached, absent,
        fun within => absurd old (Nat.not_lt.mpr within.1)⟩
  · subst bare
    rcases glueCopy_cases formed numbered shaped room with ⟨_, _, ⟨_, _, _, attached, _⟩, _⟩ |
      ⟨_, morphism, result, outcome, glued⟩
    · cases attached
    · refine ⟨morphism, congrArg Prod.fst outcome, ?_, ?_⟩
      · intro vertex place known
        exact ⟨glued.vertex_new numbered rfl known,
          fun other again => glued.vertex_apart rfl rfl again known⟩
      · intro id copy held
        exact ⟨glued.edge_new numbered held, fun other again => glued.edge_apart again held⟩

/-- One edge, and a triangle whose first and last vertices are to become the second vertex of the
edge. The glue also names a vertex that the triangle does not have. -/
def segment : Hypergraph := ofEdges 2 [("E", [0, 1])]

def triangle : Hypergraph := ofEdges 3 [("F", [0, 1]), ("F", [1, 2]), ("G", [2, 0])]

def folding : Table VertexId VertexId := ((Table.empty.insert ⟨0⟩ ⟨1⟩).insert ⟨2⟩ ⟨1⟩).insert ⟨9⟩ ⟨7⟩

/-- The edge between the glued vertices becomes a loop. -/
theorem glueCopy_folded :
    ∃ morphism copy stored, (segment.glueCopy triangle folding).1 = .ok morphism ∧
      morphism.edge? ⟨5⟩ = some copy ∧
    segment.hasEdge copy = false ∧ (segment.glueCopy triangle folding).2.edge? copy = some stored ∧
    stored.label = "G" ∧
      stored.vertices = [⟨1⟩, ⟨1⟩] := by
  have formed : segment.WellFormed := by decide +kernel
  have numbered : segment.Numbered := by decide +kernel
  have shaped : triangle.WellFormed := by decide +kernel
  have room : segment.nextId + ((loose folding triangle.vertexIds).length + triangle.edgeCount) <
    wordRange := by decide +kernel
  obtain ⟨_, fails, glues, _⟩ := glueCopy_exact formed numbered shaped room
  have glueing : ∀ entry ∈ folding.entries, triangle.hasVertex entry.1 = true →
    segment.hasVertex entry.2 = true := by decide +kernel
  have there : ∀ vertex existing, triangle.hasVertex vertex = true →
      folding.get? vertex = some existing → segment.hasVertex existing = true :=
    fun vertex existing member attached =>
      glueing (vertex, existing) (Table.mem_entries_iff.mpr attached) member
  have given :=
    fails fun vertex existing member attached =>
      numbered.vertex_lt (there vertex existing member attached)
  cases outcome : (segment.glueCopy triangle folding).1 with
  | error fault =>
    obtain ⟨vertex, existing, member, attached, absent⟩ := given.mp ⟨fault, outcome⟩
    cases (there vertex existing member attached).symm.trans absent
  | ok morphism =>
    have glued := glues morphism outcome
    have source : triangle.edge? ⟨5⟩ = some ⟨⟨5⟩, "G", [⟨2⟩, ⟨0⟩]⟩ := by decide +kernel
    obtain ⟨copy, stored, held, found, label, ends⟩ := glued.edge_copied source
    have first : morphism.vertex? ⟨2⟩ = some ⟨1⟩ :=
      glued.vertex_glued (by decide +kernel) (by decide +kernel)
    have last : morphism.vertex? ⟨0⟩ = some ⟨1⟩ :=
      glued.vertex_glued (by decide +kernel) (by decide +kernel)
    refine ⟨morphism, copy, stored, rfl, held, glued.edge_new numbered held, found, label, ?_⟩
    rw [List.map_cons, List.map_cons, first, last] at ends
    exact List.map_injective_iff.mpr (fun _ _ => Option.some.inj) ends

/-- The first of two vertices is copied, and the second is glued to a vertex that is not there but
gets the number of this copy. -/
theorem glueCopy_follows_copy :
    (named "").WellFormed ∧ (named "").Numbered ∧ (ofEdges 2 []).WellFormed ∧
    ¬((∃ fault, ((named "").glueCopy (ofEdges 2 []) (Table.empty.insert ⟨1⟩ ⟨0⟩)).1 = .error fault) ↔
      ∃ vertex existing, (ofEdges 2 []).hasVertex vertex = true ∧
        (Table.empty.insert ⟨1⟩ ⟨0⟩ : Table VertexId VertexId).get? vertex = some existing ∧
        (named "").hasVertex existing = false) := by
  refine ⟨by decide +kernel, by decide +kernel, by decide +kernel, fun claimed => ?_⟩
  have succeeds : ((named "").glueCopy (ofEdges 2 []) (Table.empty.insert ⟨1⟩ ⟨0⟩)).1.isOk =
    true := by decide +kernel
  obtain ⟨fault, failed⟩ :=
    claimed.mpr ⟨⟨1⟩, ⟨0⟩, by decide +kernel, by decide +kernel, by decide +kernel⟩
  rw [failed] at succeeds
  cases succeeds

end Coverability.Hypergraph
