import Coverability.Proofs.WellFormed
import Coverability.Rule.Basic

/-! Rules that pass validation: what their maps keep, and where on the left side a preserved element
of the right side comes from. -/

namespace Coverability.Rule

variable {rule : Rule}

/-- The maps of a rule are a partial isomorphism from the left to the right side. -/
structure Valid (rule : Rule) : Prop where
  vertex_sides : ∀ {left right}, rule.vertexMap.get? left = some right →
    rule.left.hasVertex left = true ∧ rule.right.hasVertex right = true
  vertex_injective : ∀ {one other right}, rule.vertexMap.get? one = some right →
    rule.vertexMap.get? other = some right → one = other
  edge_sides : ∀ {left right}, rule.edgeMap.get? left = some right → ∃ one other,
    rule.left.edge? left = some one ∧ rule.right.edge? right = some other ∧ one.label = other.label ∧
      List.Forall₂ (fun first second => rule.vertexMap.get? first = some second)
        one.vertices other.vertices
  edge_injective : ∀ {one other right}, rule.edgeMap.get? one = some right →
    rule.edgeMap.get? other = some right → one = other

private theorem vertexDefect?_none {earlier : List VertexId} {pairs : List (VertexId × VertexId)}
    (accepted : rule.vertexDefect? earlier pairs = none) :
    (∀ pair ∈ pairs, rule.left.hasVertex pair.1 = true ∧ rule.right.hasVertex pair.2 = true ∧
      pair.2 ∉ earlier) ∧
      (pairs.map Prod.snd).Nodup := by
  induction pairs generalizing earlier with
  | nil => exact ⟨nofun, .nil⟩
  | cons first rest ih =>
    rw [vertexDefect?] at accepted
    split at accepted
    · cases accepted
    next sides =>
      split at accepted
      · cases accepted
      next fresh =>
        obtain ⟨known, distinct⟩ := ih accepted
        simp only [Bool.or_eq_true, Bool.not_eq_true', not_or, Bool.not_eq_false] at sides
        refine ⟨List.forall_mem_cons.mpr ⟨⟨sides.1, sides.2, fresh⟩, fun pair member => ?_⟩, ?_⟩
        · obtain ⟨left, right, later⟩ := known pair member
          exact ⟨left, right, fun inside => later (List.mem_cons_of_mem _ inside)⟩
        · rw [List.map_cons, List.nodup_cons]
          refine ⟨fun again => ?_, distinct⟩
          obtain ⟨pair, member, same⟩ := List.mem_map.mp again
          exact (known pair member).2.2 (same ▸ List.mem_cons_self)

private theorem along_of_keepsIncidence {one other : Edge}
    (arity : one.vertices.length = other.vertices.length)
    (kept : rule.keepsIncidence one other = true) :
    List.Forall₂ (fun first second => rule.vertexMap.get? first = some second) one.vertices
      other.vertices := by
  rw [List.forall₂_iff_zip]
  refine ⟨arity, fun {first second} member => ?_⟩
  have pair := List.all_eq_true.mp kept (first, second) member
  exact eq_of_beq pair

private theorem edgeDefect?_none {earlier : List EdgeId} {pairs : List (EdgeId × EdgeId)}
    (accepted : rule.edgeDefect? earlier pairs = none) :
    (∀ pair ∈ pairs, pair.2 ∉ earlier ∧ ∃ one other, rule.left.edge? pair.1 = some one ∧
      rule.right.edge? pair.2 = some other ∧
      one.label = other.label ∧
      List.Forall₂ (fun first second => rule.vertexMap.get? first = some second) one.vertices
        other.vertices) ∧
      (pairs.map Prod.snd).Nodup := by
  induction pairs generalizing earlier with
  | nil => exact ⟨nofun, .nil⟩
  | cons first rest ih =>
    rw [edgeDefect?] at accepted
    split at accepted
    next one other left right =>
      split at accepted
      · cases accepted
      next fresh =>
        split at accepted
        · cases accepted
        next shape =>
          split at accepted
          · cases accepted
          next kept =>
            obtain ⟨known, distinct⟩ := ih accepted
            rw [not_not, Edge.shape, Edge.shape, Prod.mk.injEq] at shape
            rw [Bool.not_eq_true', Bool.not_eq_false] at kept
            refine ⟨List.forall_mem_cons.mpr ⟨⟨fresh, one, other, left, right, shape.1,
              along_of_keepsIncidence shape.2 kept⟩, fun pair member => ?_⟩, ?_⟩
            · obtain ⟨later, sides⟩ := known pair member
              exact ⟨fun inside => later (List.mem_cons_of_mem _ inside), sides⟩
            · rw [List.map_cons, List.nodup_cons]
              refine ⟨fun again => ?_, distinct⟩
              obtain ⟨pair, member, same⟩ := List.mem_map.mp again
              exact (known pair member).1 (same ▸ List.mem_cons_self)
    · cases accepted

/-- A table without two keys for one value. -/
theorem valid_of_validate (accepted : rule.validate = .ok ()) : rule.Valid := by
  have clean : rule.defect? = none := by
    rw [validate] at accepted
    split at accepted
    next none => exact none
    · cases accepted
  rw [defect?, Option.or_eq_none_iff] at clean
  obtain ⟨vertices, distinctVertices⟩ := vertexDefect?_none clean.1
  obtain ⟨edges, distinctEdges⟩ := edgeDefect?_none clean.2
  refine ⟨fun mapped => ?_, Table.nodup_values_iff.mp distinctVertices, fun mapped => ?_,
    Table.nodup_values_iff.mp distinctEdges⟩
  · obtain ⟨left, right, _⟩ := vertices _ (Table.mem_entries_iff.mpr mapped)
    exact ⟨left, right⟩
  · exact (edges _ (Table.mem_entries_iff.mpr mapped)).2

private theorem vertexDefect?_of_sides {earlier : List VertexId} {pairs : List (VertexId × VertexId)}
    (sides : ∀ pair ∈ pairs, rule.left.hasVertex pair.1 = true ∧
      rule.right.hasVertex pair.2 = true ∧ pair.2 ∉ earlier)
    (distinct : (pairs.map Prod.snd).Nodup) : rule.vertexDefect? earlier pairs = none := by
  induction pairs generalizing earlier with
  | nil => rfl
  | cons first rest ih =>
    rw [List.forall_mem_cons] at sides
    obtain ⟨left, right, fresh⟩ := sides.1
    obtain ⟨apart, distinct⟩ := List.nodup_cons.mp distinct
    rw [vertexDefect?]
    simp only [left, right, fresh, Bool.not_true, Bool.or_self, Bool.false_eq_true, if_false]
    refine ih (fun pair member =>
      ⟨(sides.2 pair member).1, (sides.2 pair member).2.1, fun again => ?_⟩) distinct
    rcases List.mem_cons.mp again with same | before
    · exact apart (same ▸ List.mem_map_of_mem member)
    · exact (sides.2 pair member).2.2 before

private theorem keepsIncidence_of_along {one other : Edge}
    (along : List.Forall₂ (fun first second => rule.vertexMap.get? first = some second) one.vertices
      other.vertices) :
    rule.keepsIncidence one other = true := by
  rw [List.forall₂_iff_zip] at along
  exact List.all_eq_true.mpr fun pair member => beq_iff_eq.mpr (along.2 member)

private theorem edgeDefect?_of_sides {earlier : List EdgeId} {pairs : List (EdgeId × EdgeId)}
    (sides : ∀ pair ∈ pairs, pair.2 ∉ earlier ∧
      ∃ one other, rule.left.edge? pair.1 = some one ∧ rule.right.edge? pair.2 = some other ∧
      one.label = other.label ∧
      List.Forall₂ (fun first second => rule.vertexMap.get? first = some second)
        one.vertices other.vertices)
    (distinct : (pairs.map Prod.snd).Nodup) : rule.edgeDefect? earlier pairs = none := by
  induction pairs generalizing earlier with
  | nil => rfl
  | cons first rest ih =>
    rw [List.forall_mem_cons] at sides
    obtain ⟨fresh, one, other, left, right, label, along⟩ := sides.1
    obtain ⟨apart, distinct⟩ := List.nodup_cons.mp distinct
    have shape : one.shape = other.shape := Prod.ext label along.length_eq
    rw [edgeDefect?]
    simp only [left, right, fresh, shape, keepsIncidence_of_along along, ne_eq, not_true_eq_false,
      Bool.not_true, Bool.false_eq_true, if_false]
    refine ih (fun pair member => ⟨fun again => ?_, (sides.2 pair member).2⟩) distinct
    rcases List.mem_cons.mp again with same | before
    · exact apart (same ▸ List.mem_map_of_mem member)
    · exact (sides.2 pair member).1 before

theorem validate_of_valid (valid : rule.Valid) : rule.validate = .ok () := by
  have vertices : rule.vertexDefect? [] rule.vertexMap.entries = none := by
    apply vertexDefect?_of_sides _ (Table.nodup_values_iff.mpr valid.vertex_injective)
    intro pair member
    obtain ⟨left, right⟩ := valid.vertex_sides (Table.mem_entries_iff.mp member)
    exact ⟨left, right, nofun⟩
  have edges : rule.edgeDefect? [] rule.edgeMap.entries = none := by
    apply edgeDefect?_of_sides _ (Table.nodup_values_iff.mpr valid.edge_injective)
    intro pair member
    exact ⟨nofun, valid.edge_sides (Table.mem_entries_iff.mp member)⟩
  rw [validate, defect?, vertices, edges]
  rfl

/-- The vertex of the left side that a vertex of the right side comes from. -/
def origin (rule : Rule) (vertex : VertexId) : VertexId :=
  ((rule.vertexMap.entries.find? fun entry => entry.2 = vertex).map Prod.fst).getD vertex

/-- The edge of the left side that an edge of the right side comes from. -/
def originEdge (rule : Rule) (edge : EdgeId) : EdgeId :=
  ((rule.edgeMap.entries.find? fun entry => entry.2 = edge).map Prod.fst).getD edge

/-- The vertex of the right side that a vertex of the left side becomes. -/
def target (rule : Rule) (vertex : VertexId) : VertexId := rule.vertexMap.getD vertex vertex

/-- The edge of the right side that an edge of the left side becomes. -/
def targetEdge (rule : Rule) (edge : EdgeId) : EdgeId := rule.edgeMap.getD edge edge

theorem target_eq {left right : VertexId} (mapped : rule.vertexMap.get? left = some right) :
    rule.target left = right := by
  rw [target, Table.getD_eq, mapped, Option.getD_some]

theorem targetEdge_eq {left right : EdgeId} (mapped : rule.edgeMap.get? left = some right) :
    rule.targetEdge left = right := by
  rw [targetEdge, Table.getD_eq, mapped, Option.getD_some]

def Preserved (rule : Rule) (vertex : VertexId) : Prop :=
  ∃ left, rule.vertexMap.get? left = some vertex

private theorem find?_value {κ : Type} [Ord κ] [Std.TransOrd κ] [Std.LawfulEqOrd κ] [DecidableEq κ]
    {table : Table κ κ}
    (injective : ∀ {one other value}, table.get? one = some value → table.get? other = some value →
      one = other) {key value : κ}
    (mapped : table.get? key = some value) :
    ((table.entries.find? fun entry => entry.2 = value).map Prod.fst) = some key := by
  have member : (key, value) ∈ table.entries := Table.mem_entries_iff.mpr mapped
  cases found : table.entries.find? fun entry => entry.2 = value with
  | none =>
    have differs := List.find?_eq_none.mp found (key, value) member
    simp at differs
  | some entry =>
    have same : entry.2 = value := by simpa using List.find?_some found
    have stored : table.get? entry.1 = some entry.2 :=
      Table.mem_entries_iff.mp (List.mem_of_find?_eq_some found)
    rw [same] at stored
    exact congrArg some (injective stored mapped)

namespace Valid

theorem origin_eq (valid : rule.Valid) {left right : VertexId}
    (mapped : rule.vertexMap.get? left = some right) :
    rule.origin right = left := by
  rw [origin, find?_value valid.vertex_injective mapped]
  rfl

theorem originEdge_eq (valid : rule.Valid) {left right : EdgeId}
    (mapped : rule.edgeMap.get? left = some right) :
    rule.originEdge right = left := by
  rw [originEdge, find?_value valid.edge_injective mapped]
  rfl

theorem map_origin (valid : rule.Valid) {vertex : VertexId} (preserved : rule.Preserved vertex) :
    rule.vertexMap.get? (rule.origin vertex) = some vertex := by
  obtain ⟨left, mapped⟩ := preserved
  rwa [valid.origin_eq mapped]

end Valid

theorem preserved_iff {vertex : VertexId} :
    rule.Preserved vertex ↔ vertex ∈ rule.vertexMap.values := Table.mem_values_iff.symm

theorem mem_createdVertices {vertex : VertexId} :
    vertex ∈ rule.createdVertices ↔ rule.right.hasVertex vertex = true ∧ ¬rule.Preserved vertex := by
  rw [createdVertices, List.mem_filter, Hypergraph.mem_vertexIds, decide_eq_true_iff, preserved_iff]

theorem mem_deletedVertices {vertex : VertexId} :
    vertex ∈ rule.deletedVertices ↔ rule.left.hasVertex vertex = true ∧
    rule.vertexMap.get? vertex = none := by
  rw [deletedVertices, List.mem_filter, Hypergraph.mem_vertexIds, Table.contains]
  simp

theorem mem_createdEdges {edge : EdgeId} :
    edge ∈ rule.createdEdges ↔ (∃ found, rule.right.edge? edge = some found) ∧
    ∀ left, rule.edgeMap.get? left ≠ some edge := by
  rw [createdEdges, List.mem_filter, Hypergraph.mem_edgeIds, decide_eq_true_iff,
    Table.mem_values_iff, not_exists]

theorem mem_deletedEdges {edge : EdgeId} :
    edge ∈ rule.deletedEdges ↔ (∃ found, rule.left.edge? edge = some found) ∧
    rule.edgeMap.get? edge = none := by
  rw [deletedEdges, List.mem_filter, Hypergraph.mem_edgeIds, Table.contains]
  simp

end Coverability.Rule
