import Coverability.Proofs.Copying
import Coverability.Proofs.Validity
import Coverability.Rule.Quantified

/-! The instances of a quantified rule. Gluing a valid rule onto a valid rule gives a valid rule if
the glue of the right sides is what the maps make of the glue of the left sides. So an instance
passes validation if the quantified rule does, whatever the number of copies is, even where anchors
send several vertices to one. -/

namespace Coverability

namespace QuantifiedRule

theorem mem_copiedPairs {kind : Kind} {pairs left right : Table (Id kind) (Id kind)}
    {one other : Id kind} :
    (one, other) ∈ copiedPairs pairs left right ↔
      ∃ source target, pairs.get? source = some target ∧ left.get? source = some one ∧
        right.get? target = some other := by
  rw [copiedPairs, List.mem_filterMap]
  constructor
  · rintro ⟨⟨source, target⟩, listed, copied⟩
    cases first : left.get? source with
    | none => simp only [first, reduceCtorEq] at copied
    | some image =>
      cases second : right.get? target with
      | none => simp only [first, second, reduceCtorEq] at copied
      | some place =>
        simp only [first, second] at copied
        cases copied
        exact ⟨source, target, Table.mem_entries_iff.mp listed, first, second⟩
  · rintro ⟨source, target, found, first, second⟩
    refine ⟨(source, target), Table.mem_entries_iff.mpr found, ?_⟩
    simp only [first, second]

end QuantifiedRule

namespace Rule
open QuantifiedRule

/-- The glue of the right sides is what the maps make of the glue of the left sides. -/
structure Glues (grown part : Rule) (left right : Table VertexId VertexId) : Prop where
  anchored : ∀ {source existing target}, left.get? source = some existing →
    part.vertexMap.get? source = some target →
    ∃ place, right.get? target = some place ∧ grown.vertexMap.get? existing = some place
  loose : ∀ {source target}, left.get? source = none → part.vertexMap.get? source = some target →
    right.get? target = none

/-- A rule with a copy of another one glued on. -/
structure GluedOn (grown part : Rule) (left right : Table VertexId VertexId)
    (first second : Morphism) (result : Rule) : Prop where
  glues : grown.Glues part left right
  left : grown.left.Copied part.left left first result.left
  right : grown.right.Copied part.right right second result.right
  vertexMap : result.vertexMap =
    grown.vertexMap.insertAll (copiedPairs part.vertexMap first.vertices second.vertices)
  edgeMap : result.edgeMap =
    grown.edgeMap.insertAll (copiedPairs part.edgeMap first.edges second.edges)

namespace GluedOn

variable {grown part result : Rule} {leftGlue rightGlue : Table VertexId VertexId}
  {first second : Morphism}

private theorem pair_cases (glued : grown.GluedOn part leftGlue rightGlue first second result)
    {source target one other : VertexId} (mapped : part.vertexMap.get? source = some target)
    (left : first.vertices.get? source = some one)
    (right : second.vertices.get? target = some other) :
    grown.vertexMap.get? one = some other ∨ leftGlue.get? source = none ∧
    rightGlue.get? target = none ∧
      grown.left.hasVertex one = false ∧ grown.right.hasVertex other = false := by
  cases attached : leftGlue.get? source with
  | some existing =>
    obtain ⟨place, held, known⟩ := glued.glues.anchored attached mapped
    obtain ⟨rfl, _⟩ := glued.left.vertex_glued attached left
    obtain ⟨rfl, _⟩ := glued.right.vertex_glued held right
    exact .inl known
  | none =>
    have free := glued.glues.loose attached mapped
    exact .inr ⟨rfl, free, glued.left.vertex_fresh attached left, glued.right.vertex_fresh free right⟩

theorem vertexMap_iff (glued : grown.GluedOn part leftGlue rightGlue first second result)
    (valid : grown.Valid) {one other : VertexId} :
    result.vertexMap.get? one = some other ↔ grown.vertexMap.get? one = some other ∨ ∃ source target,
      part.vertexMap.get? source = some target ∧ first.vertices.get? source = some one ∧
      second.vertices.get? target = some other := by
  rw [glued.vertexMap, Table.get?_insertAll_of_agrees, mem_copiedPairs]
  intro key image place member known
  obtain ⟨source, target, mapped, left, right⟩ := mem_copiedPairs.mp member
  have absent : grown.left.hasVertex key = false →
      ∀ found, grown.vertexMap.get? key ≠ some found := by
    intro missing found present
    rw [(valid.vertex_sides present).1] at missing
    cases missing
  rcases glued.pair_cases mapped left right with old | ⟨loose, _, new, _⟩
  · rcases known with listed | found
    · obtain ⟨sourceTwo, targetTwo, mappedTwo, leftTwo, rightTwo⟩ := mem_copiedPairs.mp listed
      rcases glued.pair_cases mappedTwo leftTwo rightTwo with oldTwo | ⟨_, _, newTwo, _⟩
      · exact Option.some.inj (old.symm.trans oldTwo)
      · exact absurd old (absent newTwo _)
    · exact Option.some.inj (old.symm.trans found)
  · rcases known with listed | found
    · obtain ⟨sourceTwo, targetTwo, mappedTwo, leftTwo, rightTwo⟩ := mem_copiedPairs.mp listed
      rcases glued.pair_cases mappedTwo leftTwo rightTwo with oldTwo | ⟨looseTwo, _⟩
      · exact absurd oldTwo (absent new _)
      · cases glued.left.vertex_injective loose looseTwo left leftTwo
        cases mapped.symm.trans mappedTwo
        exact Option.some.inj (right.symm.trans rightTwo)
    · exact absurd found (absent new _)

theorem edgeMap_iff (glued : grown.GluedOn part leftGlue rightGlue first second result)
    (valid : grown.Valid) {one other : EdgeId} :
    result.edgeMap.get? one = some other ↔ grown.edgeMap.get? one = some other ∨ ∃ source target,
      part.edgeMap.get? source = some target ∧ first.edges.get? source = some one ∧
      second.edges.get? target = some other := by
  rw [glued.edgeMap, Table.get?_insertAll_of_agrees, mem_copiedPairs]
  intro key image place member known
  obtain ⟨source, target, mapped, left, right⟩ := mem_copiedPairs.mp member
  rcases known with listed | found
  · obtain ⟨sourceTwo, targetTwo, mappedTwo, leftTwo, rightTwo⟩ := mem_copiedPairs.mp listed
    cases glued.left.edge_injective left leftTwo
    cases mapped.symm.trans mappedTwo
    exact Option.some.inj (right.symm.trans rightTwo)
  · obtain ⟨edge, _, stored, _⟩ := valid.edge_sides found
    rw [glued.left.edge_fresh left] at stored
    cases stored

private theorem along_copies (glued : grown.GluedOn part leftGlue rightGlue first second result)
    (valid : grown.Valid) (partValid : part.Valid) {ends others : List VertexId}
    (along : List.Forall₂ (fun one other => part.vertexMap.get? one = some other) ends others) :
    List.Forall₂ (fun one other => result.vertexMap.get? one = some other)
      (ends.map fun vertex => first.vertices.getD vertex vertex)
        (others.map fun vertex => second.vertices.getD vertex vertex) := by
  rw [List.forall₂_map_left_iff, List.forall₂_map_right_iff]
  refine along.imp fun source target mapped => ?_
  obtain ⟨leftInside, rightInside⟩ := partValid.vertex_sides mapped
  obtain ⟨one, left⟩ := glued.left.vertex_defined.mp leftInside
  obtain ⟨other, right⟩ := glued.right.vertex_defined.mp rightInside
  rw [Table.getD_eq, Table.getD_eq, left, right]
  exact (glued.vertexMap_iff valid).mpr (.inr ⟨source, target, mapped, left, right⟩)

theorem valid (glued : grown.GluedOn part leftGlue rightGlue first second result)
    (valid : grown.Valid) (partValid : part.Valid) :
    result.Valid where
  vertex_sides {one other} mapped := by
    rcases (glued.vertexMap_iff valid).mp mapped with old | ⟨source, target, paired, left, right⟩
    · obtain ⟨leftInside, rightInside⟩ := valid.vertex_sides old
      exact ⟨glued.left.vertex_iff.mpr (.inl leftInside),
        glued.right.vertex_iff.mpr (.inl rightInside)⟩
    · rcases glued.pair_cases paired left right with old | ⟨loose, free, _⟩
      · obtain ⟨leftInside, rightInside⟩ := valid.vertex_sides old
        exact ⟨glued.left.vertex_iff.mpr (.inl leftInside),
          glued.right.vertex_iff.mpr (.inl rightInside)⟩
      · exact ⟨glued.left.vertex_iff.mpr (.inr ⟨source, loose, left⟩),
          glued.right.vertex_iff.mpr (.inr ⟨target, free, right⟩)⟩
  vertex_injective {one other place} mapped mappedOther := by
    -- A pair is in the rule already or a copy; a copy has a right end that the rule has not had.
    have apart : ∀ {known}, grown.vertexMap.get? known = some place →
        grown.right.hasVertex place ≠ false := by
      intro known found missing
      rw [(valid.vertex_sides found).2] at missing
      cases missing
    have cases_of : ∀ {known}, result.vertexMap.get? known = some place →
        grown.vertexMap.get? known = some place ∨
        grown.right.hasVertex place = false ∧ ∃ source target, rightGlue.get? target = none ∧
          part.vertexMap.get? source = some target ∧ first.vertices.get? source = some known ∧
          second.vertices.get? target = some place := by
      intro known found
      rcases (glued.vertexMap_iff valid).mp found with old | ⟨source, target, paired, left, right⟩
      · exact .inl old
      · exact (glued.pair_cases paired left right).imp_right fun ⟨_, free, _, new⟩ =>
          ⟨new, source, target, free, paired, left, right⟩
    rcases cases_of mapped with old | ⟨new, source, target, free, paired, left, right⟩
    · rcases cases_of mappedOther with oldOther | ⟨new, _⟩
      · exact valid.vertex_injective old oldOther
      · exact absurd new (apart old)
    · rcases cases_of mappedOther with oldOther |
        ⟨_, sourceTwo, targetTwo, freeTwo, pairedTwo, leftTwo, rightTwo⟩
      · exact absurd new (apart oldOther)
      · cases glued.right.vertex_injective free freeTwo right rightTwo
        cases partValid.vertex_injective paired pairedTwo
        exact Option.some.inj (left.symm.trans leftTwo)
  edge_sides {one other} mapped := by
    rcases (glued.edgeMap_iff valid).mp mapped with old | ⟨source, target, paired, left, right⟩
    · obtain ⟨edge, image, stored, storedImage, label, along⟩ := valid.edge_sides old
      refine ⟨edge, image, glued.left.edge_iff.mpr (.inl stored),
        glued.right.edge_iff.mpr (.inl storedImage), label, ?_⟩
      exact along.imp fun _ _ found => (glued.vertexMap_iff valid).mpr (.inl found)
    · obtain ⟨edge, image, stored, storedImage, label, along⟩ := partValid.edge_sides paired
      refine ⟨_, _, glued.left.edge_iff.mpr (.inr ⟨source, edge, stored, left, rfl⟩),
        glued.right.edge_iff.mpr (.inr ⟨target, image, storedImage, right, rfl⟩), label, ?_⟩
      exact glued.along_copies valid partValid along
  edge_injective {one other place} mapped mappedOther := by
    have apart : ∀ {known target}, grown.edgeMap.get? known = some place →
        second.edges.get? target ≠ some place := by
      intro known target found copied
      obtain ⟨_, _, _, stored, _⟩ := valid.edge_sides found
      rw [glued.right.edge_fresh copied] at stored
      cases stored
    rcases (glued.edgeMap_iff valid).mp mapped with old | ⟨source, target, paired, left, right⟩
    · rcases (glued.edgeMap_iff valid).mp mappedOther with oldOther | ⟨_, _, _, _, right⟩
      · exact valid.edge_injective old oldOther
      · exact absurd right (apart old)
    · rcases (glued.edgeMap_iff valid).mp mappedOther with oldOther |
        ⟨sourceTwo, targetTwo, pairedTwo, leftTwo, rightTwo⟩
      · exact absurd right (apart oldOther)
      · cases glued.right.edge_injective right rightTwo
        cases partValid.edge_injective paired pairedTwo
        exact Option.some.inj (left.symm.trans leftTwo)

end GluedOn

end Rule

namespace QuantifiedRule

variable {rule : QuantifiedRule} {grown : Rule} {copies : Nat}

/-- Both parts are valid, and anchors survive on both sides. -/
structure Valid (rule : QuantifiedRule) : Prop where
  base : rule.base.Valid
  quantified : rule.quantified.Valid
  anchored : ∀ {source existing}, rule.anchors.get? source = some existing →
    rule.quantified.vertexMap.contains source = true ∧ rule.base.vertexMap.contains existing = true

theorem valid_of_validate (accepted : rule.validate = .ok ()) : rule.Valid := by
  rw [validate] at accepted
  cases base : rule.base.validate with
  | error fault =>
    rw [base] at accepted
    cases accepted
  | ok _ =>
    cases quantified : rule.quantified.validate with
    | error fault =>
      rw [base, quantified] at accepted
      cases accepted
    | ok _ =>
      rw [base, quantified] at accepted
      refine ⟨Rule.valid_of_validate base, Rule.valid_of_validate quantified,
        fun {source existing} found => ?_⟩
      dsimp only [bind, Except.bind] at accepted
      split at accepted
      next none =>
        have kept := List.find?_eq_none.mp none (source, existing) (Table.mem_entries_iff.mpr found)
        simpa using kept
      · cases accepted

/-- The sides of both parts are as the operations on graphs build them. -/
structure Formed (rule : QuantifiedRule) : Prop where
  base_left : rule.base.left.WellFormed ∧ rule.base.left.Numbered
  base_right : rule.base.right.WellFormed ∧ rule.base.right.Numbered
  left : rule.quantified.left.WellFormed ∧ rule.quantified.left.Numbered
  right : rule.quantified.right.WellFormed ∧ rule.quantified.right.Numbered

instance (rule : QuantifiedRule) : Decidable rule.Formed :=
  decidable_of_iff
    ((rule.base.left.WellFormed ∧ rule.base.left.Numbered) ∧
      (rule.base.right.WellFormed ∧ rule.base.right.Numbered) ∧
      (rule.quantified.left.WellFormed ∧ rule.quantified.left.Numbered) ∧
      rule.quantified.right.WellFormed ∧ rule.quantified.right.Numbered)
    ⟨fun ⟨baseLeft, baseRight, left, right⟩ => ⟨baseLeft, baseRight, left, right⟩,
      fun formed => ⟨formed.base_left, formed.base_right, formed.left, formed.right⟩⟩

/-- How many identifiers a copy takes on the left side. -/
def leftSize (rule : QuantifiedRule) : Nat :=
  rule.quantified.left.vertexCount + rule.quantified.left.edgeCount

/-- How many identifiers a copy takes on the right side. -/
def rightSize (rule : QuantifiedRule) : Nat :=
  rule.quantified.right.vertexCount + rule.quantified.right.edgeCount

/-- So many copies do not run out of identifiers. -/
structure HasRoomFor (rule : QuantifiedRule) (copies : Nat) : Prop where
  left : rule.base.left.nextId + copies * rule.leftSize < wordRange
  right : rule.base.right.nextId + copies * rule.rightSize < wordRange

instance (rule : QuantifiedRule) (copies : Nat) : Decidable (rule.HasRoomFor copies) :=
  decidable_of_iff (rule.base.left.nextId + copies * rule.leftSize < wordRange ∧
    rule.base.right.nextId + copies * rule.rightSize < wordRange)
    ⟨fun ⟨left, right⟩ => ⟨left, right⟩, fun room => ⟨room.left, room.right⟩⟩

theorem HasRoomFor.mono {fewer : Nat} (room : rule.HasRoomFor copies) (fits : fewer ≤ copies) :
    rule.HasRoomFor fewer where
  left := Nat.lt_of_le_of_lt (Nat.add_le_add_left (Nat.mul_le_mul_right _ fits) _) room.left
  right := Nat.lt_of_le_of_lt (Nat.add_le_add_left (Nat.mul_le_mul_right _ fits) _) room.right

/-- What has been grown from the base after some copies. -/
structure Extends (rule : QuantifiedRule) (copies : Nat) (grown : Rule) : Prop where
  valid : grown.Valid
  left_numbered : grown.left.Numbered
  right_numbered : grown.right.Numbered
  left_taken : grown.left.nextId ≤ rule.base.left.nextId + copies * rule.leftSize
  right_taken : grown.right.nextId ≤ rule.base.right.nextId + copies * rule.rightSize
  kept : ∀ {one other}, rule.base.vertexMap.get? one = some other →
    grown.vertexMap.get? one = some other

/-- Both ends of an anchor have images on the right sides. -/
theorem Valid.anchor_images (valid : rule.Valid) {source existing : VertexId}
    (held : rule.anchors.get? source = some existing) :
    ∃ target place, rule.quantified.vertexMap.get? source = some target ∧
      rule.base.vertexMap.get? existing = some place := by
  obtain ⟨quantified, base⟩ := valid.anchored held
  obtain ⟨target, mapped⟩ := Table.contains_iff.mp quantified
  obtain ⟨place, image⟩ := Table.contains_iff.mp base
  exact ⟨target, place, mapped, image⟩

private theorem rightAnchors_eq (valid : rule.Valid) : rule.rightAnchors =
    .ok (Table.insertAll ∅
      (copiedPairs rule.anchors rule.quantified.vertexMap rule.base.vertexMap)) := by
  have listed : ∀ entry ∈ rule.anchors.entries, rule.anchors.get? entry.1 = some entry.2 :=
    fun _ member => Table.mem_entries_iff.mp member
  rw [rightAnchors, copiedPairs]
  generalize (∅ : Table VertexId VertexId) = glue
  generalize rule.anchors.entries = entries at listed ⊢
  induction entries generalizing glue with
  | nil => rfl
  | cons first rest ih =>
    rw [List.forall_mem_cons] at listed
    obtain ⟨target, place, mapped, image⟩ := valid.anchor_images listed.1
    rw [List.foldlM_cons, List.filterMap_cons]
    simp only [mapped, image]
    exact ih _ listed.2

/-- A glue for the right sides that is the image of the anchors. -/
def Mirrors (rule : QuantifiedRule) (glue : Table VertexId VertexId) : Prop :=
  ∀ {target place}, glue.get? target = some place ↔
    ∃ source existing, rule.anchors.get? source = some existing ∧
    rule.quantified.vertexMap.get? source = some target ∧
    rule.base.vertexMap.get? existing = some place

/-- Anchors may coincide in the base but not in the quantified part, so their images agree. -/
theorem rightAnchors_ok (valid : rule.Valid) :
    ∃ glue, rule.rightAnchors = .ok glue ∧ rule.Mirrors glue := by
  refine ⟨_, rightAnchors_eq valid, fun {target place} => ?_⟩
  rw [Table.get?_insertAll_of_agrees, mem_copiedPairs]
  · exact ⟨fun found => found.resolve_left nofun, .inr⟩
  · intro key one other member known
    obtain ⟨source, existing, anchored, mapped, image⟩ := mem_copiedPairs.mp member
    obtain ⟨sourceTwo, existingTwo, anchoredTwo, mappedTwo, imageTwo⟩ :=
      mem_copiedPairs.mp (known.resolve_right nofun)
    cases valid.quantified.vertex_injective mapped mappedTwo
    cases anchored.symm.trans anchoredTwo
    exact Option.some.inj (image.symm.trans imageTwo)

namespace Extends

variable {glue : Table VertexId VertexId}

theorem glues (grows : rule.Extends copies grown) (valid : rule.Valid) (mirrors : rule.Mirrors glue) :
    grown.Glues rule.quantified rule.anchors glue where
  anchored {source existing target} held mapped := by
    obtain ⟨_, place, _, image⟩ := valid.anchor_images held
    exact ⟨place, mirrors.mpr ⟨source, existing, held, mapped, image⟩, grows.kept image⟩
  loose {source target} free mapped := by
    refine Option.eq_none_iff_forall_ne_some.mpr fun place attached => ?_
    obtain ⟨other, existing, held, mappedOther, _⟩ := mirrors.mp attached
    cases valid.quantified.vertex_injective mapped mappedOther
    rw [free] at held
    cases held

theorem left_present (grows : rule.Extends copies grown) (valid : rule.Valid)
    {source existing : VertexId} (held : rule.anchors.get? source = some existing) :
    grown.left.hasVertex existing = true := by
  obtain ⟨_, _, _, image⟩ := valid.anchor_images held
  exact (grows.valid.vertex_sides (grows.kept image)).1

theorem right_present (grows : rule.Extends copies grown) (mirrors : rule.Mirrors glue)
    {target place : VertexId} (attached : glue.get? target = some place) :
    grown.right.hasVertex place = true := by
  obtain ⟨_, _, _, _, image⟩ := mirrors.mp attached
  exact (grows.valid.vertex_sides (grows.kept image)).2

end Extends

theorem addCopy_extends (valid : rule.Valid) (formed : rule.Formed) {glue : Table VertexId VertexId}
    (mirrors : rule.Mirrors glue) (grows : rule.Extends copies grown)
    (room : rule.HasRoomFor (copies + 1)) :
    ∃ left right result, rule.addCopy glue grown = .ok result ∧
      grown.GluedOn rule.quantified rule.anchors glue left right result ∧
      rule.Extends (copies + 1) result := by
  have leftRoom := room.left
  have rightRoom := room.right
  have leftTaken := grows.left_taken
  have rightTaken := grows.right_taken
  rw [Nat.succ_mul] at leftRoom rightRoom
  obtain ⟨left, leftSide, leftDone, leftCopied⟩ :=
    Hypergraph.glueCopy_copied grows.left_numbered formed.left.1
      (fun _ _ _ held => grows.left_present valid held) (by rw [leftSize] at *; omega)
  obtain ⟨right, rightSide, rightDone, rightCopied⟩ :=
    Hypergraph.glueCopy_copied grows.right_numbered formed.right.1
      (fun _ _ _ attached => grows.right_present mirrors attached) (by rw [rightSize] at *; omega)
  have glued : grown.GluedOn rule.quantified rule.anchors glue left right
      { grown with
        left := leftSide
        right := rightSide
        vertexMap :=
          grown.vertexMap.insertAll
            (copiedPairs rule.quantified.vertexMap left.vertices right.vertices)
        edgeMap :=
          grown.edgeMap.insertAll (copiedPairs rule.quantified.edgeMap left.edges right.edges) } :=
    ⟨grows.glues valid mirrors, leftCopied, rightCopied, rfl, rfl⟩
  refine ⟨left, right, _, ?_, glued, glued.valid grows.valid valid.quantified, leftCopied.numbered,
    rightCopied.numbered, ?_, ?_, fun found => ?_⟩
  · rw [addCopy]
    simp only [leftDone, rightDone]
  · have more := leftCopied.taken
    rw [Nat.succ_mul, leftSize]
    rw [leftSize] at leftTaken
    exact Nat.le_trans more (by omega)
  · have more := rightCopied.taken
    rw [Nat.succ_mul, rightSize]
    rw [rightSize] at rightTaken
    exact Nat.le_trans more (by omega)
  · exact (glued.vertexMap_iff grows.valid).mpr (.inl (grows.kept found))

/-- What each copy keeps, all copies keep. By induction on the copies that are left. -/
theorem addCopies_keeps (valid : rule.Valid) (formed : rule.Formed) {glue : Table VertexId VertexId}
    (mirrors : rule.Mirrors glue) {keeps : Nat → Rule → Prop}
    (step : ∀ {copies grown left right result}, rule.Extends copies grown → keeps copies grown →
      grown.GluedOn rule.quantified rule.anchors glue left right result → keeps (copies + 1) result)
    {more : Nat} (grows : rule.Extends copies grown) (start : keeps copies grown)
    (room : rule.HasRoomFor (copies + more)) :
    ∃ result, rule.addCopies glue more grown = .ok result ∧ rule.Extends (copies + more) result ∧
      keeps (copies + more) result := by
  induction more generalizing copies grown with
  | zero => exact ⟨grown, rfl, grows, start⟩
  | succ more ih =>
    obtain ⟨left, right, next, added, glued, larger⟩ :=
      addCopy_extends valid formed mirrors grows (room.mono (by omega))
    have same : copies + 1 + more = copies + (more + 1) := by omega
    rw [← same] at room ⊢
    rw [addCopies, added]
    exact ih larger (step grows start glued) room

/-- Every instance of a quantified rule that passes validation keeps what the base has and
each copy keeps. -/
theorem instantiate_keeps (valid : rule.Valid) (formed : rule.Formed) (room : rule.HasRoomFor copies)
    {keeps : Table VertexId VertexId → Nat → Rule → Prop}
    (start : ∀ glue, keeps glue 0 { rule.base with id := rule.id, name := s!"{rule.name}[{copies}]" })
    (step : ∀ {glue copies grown left right result}, rule.Mirrors glue → rule.Extends copies grown →
      keeps glue copies grown →
      grown.GluedOn rule.quantified rule.anchors glue left right result →
      keeps glue (copies + 1) result) :
    ∃ glue result, rule.Mirrors glue ∧ rule.instantiate copies = .ok result ∧
      rule.Extends copies result ∧ keeps glue copies result := by
  obtain ⟨glue, anchors, mirrors⟩ := rightAnchors_ok valid
  have base : rule.Extends 0 { rule.base with id := rule.id, name := s!"{rule.name}[{copies}]" } :=
    ⟨⟨valid.base.vertex_sides, valid.base.vertex_injective, valid.base.edge_sides,
      valid.base.edge_injective⟩,
      formed.base_left.2, formed.base_right.2, Nat.le_add_right _ _, Nat.le_add_right _ _,
      fun found => found⟩
  rw [← Nat.zero_add copies] at room
  obtain ⟨result, added, grows, kept⟩ :=
    addCopies_keeps valid formed mirrors (step mirrors) base (start glue) room
  rw [Nat.zero_add] at grows kept
  refine ⟨glue, result, mirrors, ?_, grows, kept⟩
  rw [instantiate, anchors]
  exact added

/-- Every instance of a quantified rule that passes validation passes it too. -/
theorem instantiate_valid (accepted : rule.validate = .ok ()) (formed : rule.Formed)
    (room : rule.HasRoomFor copies) :
    ∃ result, rule.instantiate copies = .ok result ∧ result.validate = .ok () := by
  have keeps :=
    @instantiate_keeps rule copies (valid_of_validate accepted) formed room (fun _ _ _ => True)
      (fun _ => trivial)
      fun _ _ _ _ => trivial
  obtain ⟨_, result, _, made, grows, _⟩ := keeps
  exact ⟨result, made, Rule.validate_of_valid grows.valid⟩

end QuantifiedRule

end Coverability
