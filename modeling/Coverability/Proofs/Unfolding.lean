import Coverability.Proofs.Instances
import Coverability.Proofs.Layers

/-! What an instance of a quantified rule consists of: the base as it is, and copies of the
quantified part that have nothing in common with each other or with the base but the anchored
vertices. What the instance creates and deletes is what the base and the copies create and delete. -/

namespace Coverability.QuantifiedRule

variable {rule : QuantifiedRule} {copies : Nat} {glue : Table VertexId VertexId}
  {first second : Nat → Morphism} {grown result : Rule}

/-- The sides of a rule are those of the base with copies of the quantified part, and so are its
maps. The copies on the left side are told by the first family of morphisms, and those on the right
side by the second. -/
structure Unfolds (rule : QuantifiedRule) (glue : Table VertexId VertexId) (copies : Nat)
    (first second : Nat → Morphism) (result : Rule) :
    Prop where
  left : rule.base.left.Layers rule.quantified.left rule.anchors copies first result.left
  right : rule.base.right.Layers rule.quantified.right glue copies second result.right
  vertexMap : ∀ {one other}, result.vertexMap.get? one = some other ↔
    rule.base.vertexMap.get? one = some other ∨
    ∃ copy, copy < copies ∧ ∃ source target, rule.quantified.vertexMap.get? source = some target ∧
      (first copy).vertex? source = some one ∧ (second copy).vertex? target = some other
  edgeMap : ∀ {one other}, result.edgeMap.get? one = some other ↔
    rule.base.edgeMap.get? one = some other ∨
    ∃ copy, copy < copies ∧ ∃ source target, rule.quantified.edgeMap.get? source = some target ∧
      (first copy).edge? source = some one ∧ (second copy).edge? target = some other

/-- What the two sides of a rule have and what it changes, told from the base and the copies. -/
structure Tallies (rule : QuantifiedRule) (copies : Nat) (first second : Nat → Morphism)
    (result : Rule) : Prop where
  left_vertices : result.left.vertexCount + copies * rule.anchors.size =
    rule.base.left.vertexCount + copies * rule.quantified.left.vertexCount
  right_vertices : result.right.vertexCount + copies * rule.anchors.size =
    rule.base.right.vertexCount + copies * rule.quantified.right.vertexCount
  left_edges : result.left.edgeCount = rule.base.left.edgeCount + copies *
    rule.quantified.left.edgeCount
  right_edges : result.right.edgeCount =
    rule.base.right.edgeCount + copies * rule.quantified.right.edgeCount
  createdVertices : ∀ {vertex}, vertex ∈ result.createdVertices ↔ vertex ∈ rule.base.createdVertices ∨
    ∃ copy, copy < copies ∧ ∃ source ∈ rule.quantified.createdVertices,
      (second copy).vertex? source = some vertex
  createdEdges : ∀ {edge}, edge ∈ result.createdEdges ↔ edge ∈ rule.base.createdEdges ∨
    ∃ copy, copy < copies ∧ ∃ source ∈ rule.quantified.createdEdges,
      (second copy).edge? source = some edge
  deletedVertices : ∀ {vertex}, vertex ∈ result.deletedVertices ↔ vertex ∈ rule.base.deletedVertices ∨
    ∃ copy, copy < copies ∧ ∃ source ∈ rule.quantified.deletedVertices,
      (first copy).vertex? source = some vertex
  deletedEdges : ∀ {edge}, edge ∈ result.deletedEdges ↔ edge ∈ rule.base.deletedEdges ∨
    ∃ copy, copy < copies ∧ ∃ source ∈ rule.quantified.deletedEdges,
      (first copy).edge? source = some edge

private theorem exists_copy_iff {left right : Morphism} {property : Morphism → Morphism → Prop} :
    (∃ copy, copy < copies + 1 ∧
      property (Function.update first copies left copy) (Function.update second copies right copy)) ↔
      (∃ copy, copy < copies ∧ property (first copy) (second copy)) ∨ property left right := by
  constructor
  · rintro ⟨copy, few, known⟩
    rcases Nat.lt_succ_iff_lt_or_eq.mp few with few | rfl
    · rw [Function.update_of_ne (Nat.ne_of_lt few), Function.update_of_ne (Nat.ne_of_lt few)] at known
      exact .inl ⟨copy, few, known⟩
    · rw [Function.update_self, Function.update_self] at known
      exact .inr known
  · rintro (⟨copy, few, known⟩ | known)
    · refine ⟨copy, Nat.lt_succ_of_lt few, ?_⟩
      rwa [Function.update_of_ne (Nat.ne_of_lt few), Function.update_of_ne (Nat.ne_of_lt few)]
    · exact ⟨copies, Nat.lt_succ_self _, by rwa [Function.update_self, Function.update_self]⟩

namespace Unfolds

theorem none (formed : rule.Formed) {id : RuleId} {name : String} :
    rule.Unfolds glue 0 first second { rule.base with id, name } where
  left := .none formed.base_left.1
  right := .none formed.base_right.1
  vertexMap :=
    ⟨.inl, fun known => known.resolve_right fun ⟨_, few, _⟩ => absurd few (Nat.not_lt_zero _)⟩
  edgeMap :=
    ⟨.inl, fun known => known.resolve_right fun ⟨_, few, _⟩ => absurd few (Nat.not_lt_zero _)⟩

/-- One more copy. -/
theorem add (unfolds : rule.Unfolds glue copies first second grown) (valid : rule.Valid)
    (mirrors : rule.Mirrors glue) (grownValid : grown.Valid) {left right : Morphism}
    (glued : grown.GluedOn rule.quantified rule.anchors glue left right result) :
    rule.Unfolds glue (copies + 1) (Function.update first copies left)
      (Function.update second copies right) result := by
  refine ⟨unfolds.left.add glued.left fun {source existing} held => ?_,
    unfolds.right.add glued.right fun {target place} attached => ?_,
    fun {one other} => ?_, fun {one other} => ?_⟩
  · obtain ⟨_, _, _, image⟩ := valid.anchor_images held
    exact (valid.base.vertex_sides image).1
  · obtain ⟨_, _, _, _, image⟩ := mirrors.mp attached
    exact (valid.base.vertex_sides image).2
  · rw [glued.vertexMap_iff grownValid, unfolds.vertexMap, or_assoc]
    refine or_congr_right (Iff.symm ?_)
    exact @exists_copy_iff _ _ _ left right fun left right =>
      ∃ source target, rule.quantified.vertexMap.get? source = some target ∧
      left.vertex? source = some one ∧ right.vertex? target = some other
  · rw [glued.edgeMap_iff grownValid, unfolds.edgeMap, or_assoc]
    refine or_congr_right (Iff.symm ?_)
    exact @exists_copy_iff _ _ _ left right fun left right =>
      ∃ source target, rule.quantified.edgeMap.get? source = some target ∧
      left.edge? source = some one ∧ right.edge? target = some other

end Unfolds

section Related

variable {α : Type} {maps base part : α → α → Prop} {left right : Nat → α → Option α}

private theorem images_iff (related : ∀ {one other}, maps one other ↔ base one other ∨
      ∃ copy, copy < copies ∧ ∃ source target, part source target ∧ left copy source = some one ∧
        right copy target = some other)
    (placed : ∀ {copy source target}, copy < copies → part source target →
      ∃ one, left copy source = some one) {place : α} :
    (∃ one, maps one place) ↔ (∃ one, base one place) ∨
      ∃ copy, copy < copies ∧ ∃ target, (∃ source, part source target) ∧
        right copy target = some place := by
  constructor
  · rintro ⟨one, known⟩
    rcases related.mp known with known | ⟨copy, few, source, target, paired, _, held⟩
    · exact .inl ⟨one, known⟩
    · exact .inr ⟨copy, few, target, ⟨source, paired⟩, held⟩
  · rintro (⟨one, known⟩ | ⟨copy, few, target, ⟨source, paired⟩, held⟩)
    · exact ⟨one, related.mpr (.inl known)⟩
    · obtain ⟨one, held'⟩ := placed few paired
      exact ⟨one, related.mpr (.inr ⟨copy, few, source, target, paired, held', held⟩)⟩

private theorem sources_iff (related : ∀ {one other}, maps one other ↔ base one other ∨
      ∃ copy, copy < copies ∧ ∃ source target, part source target ∧ left copy source = some one ∧
        right copy target = some other)
    (placed : ∀ {copy source target}, copy < copies → part source target →
      ∃ other, right copy target = some other) {place : α} :
    (∃ other, maps place other) ↔ (∃ other, base place other) ∨
      ∃ copy, copy < copies ∧ ∃ source, (∃ target, part source target) ∧
        left copy source = some place := by
  have swapped : ∀ {other one}, maps one other ↔ base one other ∨
      ∃ copy, copy < copies ∧ ∃ target source, part source target ∧ right copy target = some other ∧
        left copy source = some one := by
    intro other one
    rw [related]
    refine or_congr_right (exists_congr fun copy => and_congr_right fun _ => exists_comm.trans ?_)
    exact exists_congr fun target => exists_congr fun source => and_congr_right fun _ => And.comm
  exact @images_iff copies α (flip maps) (flip base) (flip part) right left swapped placed place

end Related

/-- The glue of the right sides is as large as the glue of the left sides. -/
theorem Mirrors.size_eq (mirrors : rule.Mirrors glue) (valid : rule.Valid) :
    glue.size = rule.anchors.size := by
  have image : ∀ {source existing}, rule.anchors.get? source = some existing →
      ∃ target, rule.quantified.vertexMap.get? source = some target ∧
        rule.quantified.target source = target := by
    intro source existing held
    obtain ⟨target, _, mapped, _⟩ := valid.anchor_images held
    exact ⟨target, mapped, Rule.target_eq mapped⟩
  have same : glue.keys.Perm (rule.anchors.keys.map rule.quantified.target) := by
    refine (List.perm_ext_iff_of_nodup Table.nodup_keys
      (Table.nodup_keys.map_on fun one inside other inside' equal => ?_)).mpr fun target => ?_
    · obtain ⟨_, held⟩ := Table.mem_keys_iff.mp inside
      obtain ⟨_, held'⟩ := Table.mem_keys_iff.mp inside'
      obtain ⟨target, mapped, rfl⟩ := image held
      obtain ⟨target', mapped', rfl⟩ := image held'
      exact valid.quantified.vertex_injective mapped (equal ▸ mapped')
    · rw [List.mem_map, Table.mem_keys_iff]
      constructor
      · rintro ⟨place, attached⟩
        obtain ⟨source, existing, held, mapped, _⟩ := mirrors.mp attached
        exact ⟨source, Table.mem_keys_iff.mpr ⟨existing, held⟩, Rule.target_eq mapped⟩
      · rintro ⟨source, inside, rfl⟩
        obtain ⟨existing, held⟩ := Table.mem_keys_iff.mp inside
        obtain ⟨target, place, mapped, known⟩ := valid.anchor_images held
        exact ⟨place, mirrors.mpr ⟨source, existing, held, Rule.target_eq mapped ▸ mapped, known⟩⟩
  rw [← Table.length_keys, ← Table.length_keys, same.length_eq, List.length_map]

namespace Unfolds

private theorem vertices_placed (unfolds : rule.Unfolds glue copies first second result)
    (valid : rule.Valid) {copy : Nat} (few : copy < copies) {source target : VertexId}
    (mapped : rule.quantified.vertexMap.get? source = some target) :
    (∃ one, (first copy).vertex? source = some one) ∧
    ∃ other, (second copy).vertex? target = some other := by
  obtain ⟨here, there⟩ := valid.quantified.vertex_sides mapped
  exact ⟨(unfolds.left.vertices.defined few).mp here, (unfolds.right.vertices.defined few).mp there⟩

theorem edges_placed (unfolds : rule.Unfolds glue copies first second result) (valid : rule.Valid)
    {copy : Nat} (few : copy < copies) {source target : EdgeId}
    (mapped : rule.quantified.edgeMap.get? source = some target) :
    (∃ one, (first copy).edge? source = some one) ∧
    ∃ other, (second copy).edge? target = some other := by
  obtain ⟨one, other, here, there, _⟩ := valid.quantified.edge_sides mapped
  exact ⟨(unfolds.left.edges.defined few).mp (Hypergraph.hasEdge_iff.mpr ⟨one, here⟩),
    (unfolds.right.edges.defined few).mp (Hypergraph.hasEdge_iff.mpr ⟨other, there⟩)⟩

private theorem createdVertices_iff (unfolds : rule.Unfolds glue copies first second result)
    (valid : rule.Valid) (mirrors : rule.Mirrors glue) {vertex : VertexId} :
    vertex ∈ result.createdVertices ↔ vertex ∈ rule.base.createdVertices ∨
      ∃ copy, copy < copies ∧ ∃ source ∈ rule.quantified.createdVertices,
        (second copy).vertex? source = some vertex := by
  simp only [Rule.mem_createdVertices, Rule.Preserved]
  refine unfolds.right.vertices.unkept (images_iff unfolds.vertexMap fun few mapped =>
    (unfolds.vertices_placed valid few mapped).1)
    (fun known => ?_) fun {copy target place} few attached held => ?_
  · obtain ⟨_, mapped⟩ := known
    exact (valid.base.vertex_sides mapped).2
  · obtain ⟨existing, found⟩ := Table.contains_iff.mp attached
    obtain ⟨rfl, _⟩ := unfolds.right.glued few found held
    obtain ⟨source, anchor, _, mapped, image⟩ := mirrors.mp found
    exact ⟨⟨source, mapped⟩, anchor, image⟩

private theorem createdEdges_iff (unfolds : rule.Unfolds glue copies first second result)
    (valid : rule.Valid) {edge : EdgeId} :
    edge ∈ result.createdEdges ↔ edge ∈ rule.base.createdEdges ∨
      ∃ copy, copy < copies ∧ ∃ source ∈ rule.quantified.createdEdges,
        (second copy).edge? source = some edge := by
  simp only [Rule.mem_createdEdges, ← Hypergraph.hasEdge_iff, ← not_exists]
  refine unfolds.right.edges.unkept (images_iff unfolds.edgeMap fun few mapped =>
    (unfolds.edges_placed valid few mapped).1)
    (fun known => ?_) fun _ absent => absent.elim
  obtain ⟨_, mapped⟩ := known
  obtain ⟨_, stored, _, there, _⟩ := valid.base.edge_sides mapped
  exact Hypergraph.hasEdge_iff.mpr ⟨stored, there⟩

private theorem deletedVertices_iff (unfolds : rule.Unfolds glue copies first second result)
    (valid : rule.Valid) {vertex : VertexId} :
    vertex ∈ result.deletedVertices ↔ vertex ∈ rule.base.deletedVertices ∨
      ∃ copy, copy < copies ∧ ∃ source ∈ rule.quantified.deletedVertices,
        (first copy).vertex? source = some vertex := by
  simp only [Rule.mem_deletedVertices, Option.eq_none_iff_forall_ne_some, ← not_exists]
  refine unfolds.left.vertices.unkept (sources_iff unfolds.vertexMap fun few mapped =>
    (unfolds.vertices_placed valid few mapped).2)
    (fun known => ?_) fun {copy source place} few attached held => ?_
  · obtain ⟨_, mapped⟩ := known
    exact (valid.base.vertex_sides mapped).1
  · obtain ⟨existing, found⟩ := Table.contains_iff.mp attached
    obtain ⟨rfl, _⟩ := unfolds.left.glued few found held
    obtain ⟨target, image, mapped, known⟩ := valid.anchor_images found
    exact ⟨⟨target, mapped⟩, image, known⟩

private theorem deletedEdges_iff (unfolds : rule.Unfolds glue copies first second result)
    (valid : rule.Valid) {edge : EdgeId} :
    edge ∈ result.deletedEdges ↔ edge ∈ rule.base.deletedEdges ∨
      ∃ copy, copy < copies ∧ ∃ source ∈ rule.quantified.deletedEdges,
        (first copy).edge? source = some edge := by
  simp only [Rule.mem_deletedEdges, ← Hypergraph.hasEdge_iff,
    Option.eq_none_iff_forall_ne_some, ← not_exists]
  refine unfolds.left.edges.unkept (sources_iff unfolds.edgeMap fun few mapped =>
    (unfolds.edges_placed valid few mapped).2)
    (fun known => ?_) fun _ absent => absent.elim
  obtain ⟨_, mapped⟩ := known
  obtain ⟨stored, _, here, _⟩ := valid.base.edge_sides mapped
  exact Hypergraph.hasEdge_iff.mpr ⟨stored, here⟩

theorem tallies (unfolds : rule.Unfolds glue copies first second result) (valid : rule.Valid)
    (mirrors : rule.Mirrors glue) :
    rule.Tallies copies first second result where
  left_vertices := by
    refine unfolds.left.vertexCount_eq fun {source existing} held => ?_
    obtain ⟨_, _, mapped, _⟩ := valid.anchor_images held
    exact (valid.quantified.vertex_sides mapped).1
  right_vertices := by
    rw [← mirrors.size_eq valid]
    refine unfolds.right.vertexCount_eq fun {target place} attached => ?_
    obtain ⟨_, _, _, mapped, _⟩ := mirrors.mp attached
    exact (valid.quantified.vertex_sides mapped).2
  left_edges := unfolds.left.edgeCount_eq
  right_edges := unfolds.right.edgeCount_eq
  createdVertices := unfolds.createdVertices_iff valid mirrors
  createdEdges := unfolds.createdEdges_iff valid
  deletedVertices := unfolds.deletedVertices_iff valid
  deletedEdges := unfolds.deletedEdges_iff valid

end Unfolds

theorem exists_unfolds (valid : rule.Valid) (formed : rule.Formed) (room : rule.HasRoomFor copies) :
    ∃ glue first second result,
    rule.instantiate copies = .ok result ∧ result.Valid ∧ rule.Mirrors glue ∧
    rule.Unfolds glue copies first second result ∧
      (copies = 0 →
        result = { rule.base with id := rule.id, name := s!"{rule.name}[{copies}]" }) := by
  have unfolded := @instantiate_keeps rule copies valid formed room
    (fun glue done grown =>
      (done = 0 → grown = { rule.base with id := rule.id, name := s!"{rule.name}[{copies}]" }) ∧
      ∃ first second, rule.Unfolds glue done first second grown)
    (fun _ => ⟨fun _ => rfl, fun _ => default, fun _ => default, .none formed⟩)
    fun mirrors grows ⟨_, _, _, unfolds⟩ glued =>
      ⟨nofun, _, _, unfolds.add valid mirrors grows.valid glued⟩
  obtain ⟨glue, result, mirrors, made, grows, same, first, second, unfolds⟩ := unfolded
  exact ⟨glue, first, second, result, made, grows.valid, mirrors, unfolds, same⟩

/-- A quantified rule that passes validation has an instance for every number of copies. It passes
validation, it is the base if there are no copies, and otherwise the base with the copies on it. -/
theorem instantiate_unfolds (accepted : rule.validate = .ok ()) (formed : rule.Formed)
    (room : rule.HasRoomFor copies) :
    ∃ glue first second result, rule.instantiate copies = .ok result ∧ result.validate = .ok () ∧
      rule.Mirrors glue ∧ rule.Unfolds glue copies first second result ∧
      rule.Tallies copies first second result ∧
        (copies = 0 →
          result = { rule.base with id := rule.id, name := s!"{rule.name}[{copies}]" }) := by
  have valid := valid_of_validate accepted
  obtain ⟨glue, first, second, result, made, resultValid, mirrors, unfolds, same⟩ :=
    exists_unfolds valid formed room
  exact ⟨glue, first, second, result, made, Rule.validate_of_valid resultValid, mirrors, unfolds,
    unfolds.tallies valid mirrors, same⟩

/-- A rule that renews an edge at a vertex and its third end, once for each copy. The edge meets the
vertex twice. -/
def renewing : QuantifiedRule where
  id := "renew"
  name := "renew"
  base := {
    id := ""
    name := ""
    left := .ofEdges 1 []
    right := .ofEdges 1 []
    vertexMap := .ofList [(⟨0⟩, ⟨0⟩)] }
  quantified :=
    { id := ""
      name := ""
      left := .ofEdges 3 [("E", [0, 1, 2])]
      right := .ofEdges 3 [("F", [0, 1, 2])]
      vertexMap := .ofList [(⟨0⟩, ⟨0⟩), (⟨1⟩, ⟨1⟩)] }
  anchors := .ofList [(⟨0⟩, ⟨0⟩), (⟨1⟩, ⟨0⟩)]

/-- Two copies take two vertices on each side, since two of the three vertices of a copy are
glued to one. -/
theorem instantiate_renewing :
    ∃ glue first second result, renewing.instantiate 2 = .ok result ∧ result.validate = .ok () ∧
    renewing.Mirrors glue ∧ renewing.Unfolds glue 2 first second result ∧
    renewing.Tallies 2 first second result ∧
      (2 = 0 → result = { renewing.base with id := renewing.id, name := s!"{renewing.name}[{2}]" }) ∧
        result.left.vertexCount = 3 ∧ result.right.vertexCount = 3 := by
  obtain ⟨glue, first, second, result, made, accepted, mirrors, unfolds, tallies, same⟩ :=
    @instantiate_unfolds renewing 2 (by decide +kernel) (by decide +kernel) (by decide +kernel)
  have left := tallies.left_vertices
  have right := tallies.right_vertices
  have known : renewing.anchors.size = 2 ∧ renewing.base.left.vertexCount = 1 ∧
      renewing.quantified.left.vertexCount = 3 ∧
      renewing.base.right.vertexCount = 1 ∧ renewing.quantified.right.vertexCount =
        3 := by decide +kernel
  exact ⟨glue, first, second, result, made, accepted, mirrors, unfolds, tallies, same,
    by omega, by omega⟩

end Coverability.QuantifiedRule
