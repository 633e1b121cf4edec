import Coverability.Proofs.Restriction
import Coverability.Proofs.Unfolding

/-! An instance with some of the copies that another instance has. Whichever copies are chosen,
the smaller instance lies inside the bigger one: the base stays where it is, and each copy goes to
the chosen one. -/

namespace Coverability

/-- Different copies are chosen, and they are there. -/
structure Choice (fewer copies : Nat) (choice : Nat → Nat) : Prop where
  inside : ∀ {copy}, copy < fewer → choice copy < copies
  injective : ∀ {one other}, one < fewer → other < fewer → choice one = choice other → one = other

section Chosen

variable {α : Type} {base part glued result smaller : α → Prop} {fewer copies : Nat}
  {choice : Nat → Nat} {image few : Nat → α → Option α}

/-- The same element of the base or of a copy in two families of copies. -/
def Paired (base glued : α → Prop) (copies : Nat) (few image : Nat → α → Option α)
    (one other : α) : Prop :=
  base one ∧ one = other ∨ ∃ copy, copy < copies ∧
    ∃ source, ¬glued source ∧ few copy source = some one ∧ image copy source = some other

/-- A map that leaves the base where it is and takes each copy to the chosen one. -/
structure Takes (base part : α → Prop) (fewer : Nat) (choice : Nat → Nat)
    (few image : Nat → α → Option α) (table : α → Option α) : Prop where
  of_base : ∀ {one}, base one → table one = some one
  of_copy : ∀ {copy source}, copy < fewer → part source →
    ∃ one other, few copy source = some one ∧ image (choice copy) source = some other ∧
    table one = some other

private theorem Paired.symm {one other : α} (paired : Paired base glued copies few image one other) :
    Paired base glued copies image few other one := by
  rcases paired with ⟨known, rfl⟩ | ⟨copy, inside, source, loose, placed, placed'⟩
  · exact .inl ⟨known, rfl⟩
  · exact .inr ⟨copy, inside, source, loose, placed', placed⟩

namespace Layered

private theorem choose (layered : Layered base part glued copies image result)
    (chosen : Choice fewer copies choice) :
    Layered base part glued fewer (fun copy => image (choice copy))
      fun place => base place ∨ ∃ copy, copy < fewer ∧
        ∃ source, ¬glued source ∧ image (choice copy) source = some place where
  covers := Iff.rfl
  defined inside := layered.defined (chosen.inside inside)
  fresh inside := layered.fresh (chosen.inside inside)
  apart inside inside' loose loose' placed placed' := by
    obtain ⟨same, equal⟩ :=
      layered.apart (chosen.inside inside) (chosen.inside inside') loose loose' placed placed'
    exact ⟨chosen.injective inside inside' same, equal⟩

private theorem exists_paired (less : Layered base part glued copies few smaller)
    (layered : Layered base part glued copies image result) {one : α} (present : smaller one) :
    ∃ other, Paired base glued copies few image one other := by
  rcases less.covers.mp present with known | ⟨copy, inside, source, loose, placed⟩
  · exact ⟨one, .inl ⟨known, rfl⟩⟩
  · obtain ⟨other, placed'⟩ := (layered.defined inside).mp ((less.defined inside).mpr ⟨one, placed⟩)
    exact ⟨other, .inr ⟨copy, inside, source, loose, placed, placed'⟩⟩

private theorem paired_inside (less : Layered base part glued copies few smaller) {one other : α}
    (paired : Paired base glued copies few image one other) : smaller one := by
  rcases paired with ⟨known, _⟩ | ⟨copy, inside, source, loose, placed, _⟩
  · exact less.covers.mpr (.inl known)
  · exact less.covers.mpr (.inr ⟨copy, inside, source, loose, placed⟩)

private theorem paired_single (less : Layered base part glued copies few smaller)
    {one other another : α} (first : Paired base glued copies few image one other)
    (second : Paired base glued copies few image one another) : other = another := by
  rcases first with ⟨known, rfl⟩ | ⟨copy, inside, source, loose, placed, placed'⟩
  · rcases second with ⟨_, rfl⟩ | ⟨_, inside, _, loose, placed, _⟩
    · rfl
    · exact absurd known (less.fresh inside loose placed)
  · rcases second with ⟨known, rfl⟩ | ⟨_, inside', _, loose', again, again'⟩
    · exact absurd known (less.fresh inside loose placed)
    · obtain ⟨rfl, rfl⟩ := less.apart inside inside' loose loose' placed again
      exact Option.some.inj (placed'.symm.trans again')

private theorem takes (less : Layered base part glued fewer few smaller)
    (layered : Layered base part glued copies image result) (chosen : Choice fewer copies choice)
    {table : α → Option α}
    (held : ∀ {copy source one other}, copy < fewer → glued source → few copy source = some one →
      image (choice copy) source = some other →
      base one ∧ one = other)
    (table_iff : ∀ {one other}, table one = some other ↔
      Paired base glued fewer few (fun copy => image (choice copy)) one other) :
    Takes base part fewer choice few image table where
  of_base known := table_iff.mpr (.inl ⟨known, rfl⟩)
  of_copy {copy source} inside known := by
    obtain ⟨one, placed⟩ := (less.defined inside).mp known
    obtain ⟨other, placed'⟩ := (layered.defined (chosen.inside inside)).mp known
    refine ⟨one, other, placed, placed', table_iff.mpr ?_⟩
    by_cases attached : glued source
    · exact .inl (held inside attached placed placed')
    · exact .inr ⟨copy, inside, source, attached, placed, placed'⟩

private theorem exists_table {κ : Kind} {base part glued result smaller : Id κ → Prop}
    {image few : Nat → Id κ → Option (Id κ)} (less : Layered base part glued fewer few smaller)
    (layered : Layered base part glued copies image result) (chosen : Choice fewer copies choice)
    (listed : List (Id κ)) (within : ∀ {one}, smaller one → one ∈ listed) :
    ∃ table : Table (Id κ) (Id κ),
      (∀ {one other}, table.get? one = some other ↔
        Paired base glued fewer few (fun copy => image (choice copy)) one other) ∧
        (∀ {one}, (∃ other, table.get? one = some other) ↔ smaller one) ∧
        (∀ {one other}, table.get? one = some other → result other) ∧
          ∀ {one other place}, table.get? one = some place → table.get? other = some place →
            one = other := by
  obtain ⟨table, table_iff⟩ :=
    Table.exists_of_relation listed (fun paired => within (less.paired_inside paired))
      less.paired_single
  have picked := layered.choose chosen
  refine ⟨table, table_iff, fun {one} => ⟨?_, fun present => ?_⟩, fun {one other} held => ?_,
    fun {one other place} first second => ?_⟩
  · rintro ⟨other, held⟩
    exact less.paired_inside (table_iff.mp held)
  · obtain ⟨other, paired⟩ := less.exists_paired picked present
    exact ⟨other, table_iff.mpr paired⟩
  · rcases picked.paired_inside (table_iff.mp held).symm with known |
      ⟨copy, inside, source, loose, placed⟩
    · exact layered.covers.mpr (.inl known)
    · exact layered.covers.mpr (.inr ⟨_, chosen.inside inside, source, loose, placed⟩)
  · exact picked.paired_single (table_iff.mp first).symm (table_iff.mp second).symm

end Layered

/-- What is told from the base and the copies stays so. -/
theorem Takes.told {base part found found' told own : α → Prop} {table : α → Option α}
    (takes : Takes base part fewer choice few image table) (chosen : Choice fewer copies choice)
    (within : ∀ {one}, told one → base one) (ownWithin : ∀ {source}, own source → part source)
    (found_iff : ∀ {one}, found one ↔ told one ∨
      ∃ copy, copy < fewer ∧ ∃ source, own source ∧ few copy source = some one)
    (found'_iff : ∀ {one}, found' one ↔ told one ∨
      ∃ copy, copy < copies ∧ ∃ source, own source ∧ image copy source = some one) {one other : α}
    (present : found one) (placed : table one = some other) : found' other := by
  rcases found_iff.mp present with known | ⟨copy, inside, source, known, held⟩
  · cases (takes.of_base (within known)).symm.trans placed
    exact found'_iff.mpr (.inl known)
  · obtain ⟨_, _, held', image, placed'⟩ := takes.of_copy inside (ownWithin known)
    cases held.symm.trans held'
    cases placed.symm.trans placed'
    exact found'_iff.mpr (.inr ⟨_, chosen.inside inside, source, known, image⟩)

/-- Two maps that leave the base and take the copies along agree with what the base and the
copies relate. -/
theorem Takes.related {baseLeft partLeft baseRight partRight : α → Prop}
    {maps maps' told own : α → α → Prop} {first second few' : Nat → α → Option α}
    {left right : α → Option α} (takesLeft : Takes baseLeft partLeft fewer choice few first left)
    (takesRight : Takes baseRight partRight fewer choice few' second right)
    (chosen : Choice fewer copies choice)
    (sides : ∀ {one other}, told one other → baseLeft one ∧ baseRight other)
    (ownSides : ∀ {source target}, own source target → partLeft source ∧ partRight target)
    (maps_iff : ∀ {one other}, maps one other ↔ told one other ∨
      ∃ copy, copy < fewer ∧ ∃ source target, own source target ∧ few copy source = some one ∧
        few' copy target = some other)
    (maps'_iff : ∀ {one other}, maps' one other ↔ told one other ∨
      ∃ copy, copy < copies ∧ ∃ source target, own source target ∧ first copy source = some one ∧
        second copy target = some other)
    {one other image : α} (mapped : maps one other) (placed : left one = some image) :
    ∃ place, right other = some place ∧ maps' image place := by
  rcases maps_iff.mp mapped with known | ⟨copy, inside, source, target, paired, held, held'⟩
  · obtain ⟨here, there⟩ := sides known
    cases (takesLeft.of_base here).symm.trans placed
    exact ⟨other, takesRight.of_base there, maps'_iff.mpr (.inl known)⟩
  · obtain ⟨here, there⟩ := ownSides paired
    obtain ⟨_, _, again, place, taken⟩ := takesLeft.of_copy inside here
    obtain ⟨_, place', again', goes, taken'⟩ := takesRight.of_copy inside there
    cases held.symm.trans again
    cases held'.symm.trans again'
    cases placed.symm.trans taken
    exact ⟨place', taken',
      maps'_iff.mpr (.inr ⟨_, chosen.inside inside, source, target, paired, place, goes⟩)⟩

end Chosen

namespace Hypergraph.Layers

variable {base part smaller result : Hypergraph} {glue : Table VertexId VertexId}
  {fewer copies : Nat} {choice : Nat → Nat} {image few : Nat → Morphism}

private theorem paired_kept (less : Layers base part glue fewer few smaller)
    (layers : Layers base part glue copies image result) (chosen : Choice fewer copies choice)
    (formed : base.WellFormed) (formedPart : part.WellFormed) {table : VertexId → Option VertexId}
    (takes : Takes (base.hasVertex · = true) (part.hasVertex · = true) fewer choice
      (fun copy => (few copy).vertex?)
      (fun copy => (image copy).vertex?) table)
    {edge place : EdgeId}
    (paired : Paired (base.hasEdge · = true) (fun _ => False) fewer (fun copy => (few copy).edge?)
      (fun copy => (image (choice copy)).edge?) edge place) : ∃ label ends others,
        smaller.skeleton.edge? edge = some (label, ends) ∧
        result.skeleton.edge? place = some (label, others) ∧
        List.Forall₂ (fun one other => table one = some other) ends others := by
  rcases paired with ⟨known, rfl⟩ | ⟨copy, inside, source, _, placed, placed'⟩
  · obtain ⟨stored, found⟩ := hasEdge_iff.mp known
    refine ⟨_, _, _, skeleton_edge (less.kept found), skeleton_edge (layers.kept found),
      List.forall₂_same.mpr fun vertex member => ?_⟩
    exact takes.of_base (formed.has_ends found member)
  · obtain ⟨stored, found⟩ := hasEdge_iff.mp ((less.edges.defined inside).mpr ⟨edge, placed⟩)
    have here := skeleton_edge (less.copied inside found placed)
    have there := skeleton_edge (layers.copied (chosen.inside inside) found placed')
    refine ⟨stored.label, _, _, here, there, ?_⟩
    simp only [Edge.along]
    rw [List.forall₂_map_left_iff, List.forall₂_map_right_iff, List.forall₂_same]
    intro vertex member
    obtain ⟨one, other, held, held', taken⟩ := takes.of_copy inside (formedPart.has_ends found member)
    rw [Morphism.vertex?] at held held'
    rwa [Table.getD_eq, Table.getD_eq, held, held', Option.getD_some, Option.getD_some]

/-- A base with fewer copies embeds into a base with more copies. -/
theorem exists_takes (less : Layers base part glue fewer few smaller)
    (layers : Layers base part glue copies image result) (chosen : Choice fewer copies choice)
    (formed : base.WellFormed) (formedPart : part.WellFormed) : ∃ morphism : Morphism,
      morphism.Embeds smaller result ∧
        Takes (base.hasVertex · = true) (part.hasVertex · = true) fewer choice
          (fun copy => (few copy).vertex?) (fun copy => (image copy).vertex?)
          morphism.vertex? ∧
        Takes (base.hasEdge · = true) (part.hasEdge · = true) fewer choice
          (fun copy => (few copy).edge?) (fun copy => (image copy).edge?)
          morphism.edge? := by
  obtain ⟨vertices, vertices_iff, vertex_iff, vertex_inside, vertex_injective⟩ :=
    less.vertices.exists_table layers.vertices chosen smaller.vertexIds mem_vertexIds.mpr
  obtain ⟨edges, edges_iff, edge_iff, _, edge_injective⟩ :=
    less.edges.exists_table layers.edges chosen smaller.edgeIds fun present =>
      mem_edgeIds.mpr (hasEdge_iff.mp present)
  have held : ∀ {copy source one other}, copy < fewer → glue.contains source = true →
      (few copy).vertex? source = some one →
      (image (choice copy)).vertex? source = some other → base.hasVertex one = true ∧
      one = other := by
    intro copy source one other inside attached placed placed'
    obtain ⟨existing, held⟩ := Table.contains_iff.mp attached
    obtain ⟨rfl, known⟩ := less.glued inside held placed
    obtain ⟨rfl, _⟩ := layers.glued (chosen.inside inside) held placed'
    exact ⟨known, rfl⟩
  have takes := less.vertices.takes layers.vertices chosen held vertices_iff
  have takesEdges :=
    less.edges.takes layers.edges chosen (fun _ absent => absurd absent not_false) edges_iff
  refine ⟨⟨vertices, edges⟩,
    ⟨vertex_iff, vertex_inside, vertex_injective, ?_, edge_injective, fun placed => ?_⟩,
    takes, takesEdges⟩
  · intro edge
    rw [skeleton_hasEdge, ← hasEdge_iff]
    exact edge_iff
  · exact less.paired_kept layers chosen formed formedPart takes (edges_iff.mp placed)

end Hypergraph.Layers

namespace QuantifiedRule

variable {rule : QuantifiedRule} {small big : Rule} {glue : Table VertexId VertexId}
  {fewer copies : Nat} {choice : Nat → Nat} {few few' first second : Nat → Morphism}

theorem Mirrors.unique {other : Table VertexId VertexId} (mirrors : rule.Mirrors glue)
    (mirrors' : rule.Mirrors other) : glue = other :=
  Table.eq_of_get? fun _ => Option.ext fun _ => mirrors.trans mirrors'.symm

/-- What an instance creates is not glued to anything. -/
theorem Unfolds.not_glued (unfolds : rule.Unfolds glue copies first second big)
    (mirrors : rule.Mirrors glue) {copy : Nat} (inside : copy < copies) {vertex image : VertexId}
    (created : image ∈ big.createdVertices) (placed : (second copy).vertex? vertex = some image) :
    ¬glue.contains vertex = true := by
  intro attached
  obtain ⟨existing, held⟩ := Table.contains_iff.mp attached
  obtain ⟨rfl, _⟩ := unfolds.right.glued inside held placed
  obtain ⟨_, anchor, _, _, known⟩ := mirrors.mp held
  exact (Rule.mem_createdVertices.mp created).2 ⟨anchor, unfolds.vertexMap.mpr (.inl known)⟩

/-- What the base creates has edges in the base only. -/
theorem Unfolds.edge_of_base (unfolds : rule.Unfolds glue copies first second big)
    (mirrors : rule.Mirrors glue) (formed : rule.Formed) {image : VertexId}
    (created : image ∈ big.createdVertices) (known : rule.base.right.hasVertex image = true)
    {edge : EdgeId} {stored : Edge} (found : big.right.edge? edge = some stored)
    (member : image ∈ stored.vertices) : rule.base.right.hasEdge edge = true := by
  refine (unfolds.right.edges.covers.mp (Hypergraph.hasEdge_iff.mpr ⟨stored, found⟩)).resolve_right
    fun ⟨copy, inside, _, _, placed⟩ => ?_
  obtain ⟨_, held⟩ := unfolds.right.exists_end formed.right.1 inside placed found member
  exact unfolds.right.vertices.fresh inside (unfolds.not_glued mirrors inside created held) held known

/-- What a copy creates has edges in this copy only. -/
theorem Unfolds.edge_of_copy (unfolds : rule.Unfolds glue copies first second big)
    (mirrors : rule.Mirrors glue) (formed : rule.Formed) {image : VertexId}
    (created : image ∈ big.createdVertices) {copy : Nat} (inside : copy < copies)
    {vertex : VertexId} (held : (second copy).vertex? vertex = some image) {edge : EdgeId}
    {stored : Edge} (found : big.right.edge? edge = some stored)
    (member : image ∈ stored.vertices) : ∃ source, (second copy).edge? source = some edge := by
  have loose := unfolds.not_glued mirrors inside created held
  rcases unfolds.right.edges.covers.mp (Hypergraph.hasEdge_iff.mpr ⟨stored, found⟩) with known |
    ⟨other, inside', source, _, placed⟩
  · obtain ⟨stored', foundBase⟩ := Hypergraph.hasEdge_iff.mp known
    cases found.symm.trans (unfolds.right.kept foundBase)
    exact absurd (formed.base_right.1.has_ends foundBase member)
      (unfolds.right.vertices.fresh inside loose held)
  · obtain ⟨_, held'⟩ := unfolds.right.exists_end formed.right.1 inside' placed found member
    obtain ⟨rfl, -⟩ :=
      unfolds.right.vertices.apart inside inside' loose
        (unfolds.not_glued mirrors inside' created held') held held'
    exact ⟨source, placed⟩

/-- An instance with some of the copies lies inside the instance with all of them. -/
theorem Unfolds.exists_inside (less : rule.Unfolds glue fewer few few' small)
    (unfolds : rule.Unfolds glue copies first second big) (chosen : Choice fewer copies choice)
    (valid : rule.Valid) (formed : rule.Formed) (mirrors : rule.Mirrors glue) : ∃ left right,
      small.Inside big left right ∧
        Takes (rule.base.right.hasVertex · = true) (rule.quantified.right.hasVertex · = true) fewer
          choice (fun copy => (few' copy).vertex?)
          (fun copy => (second copy).vertex?) right.vertex? ∧
        Takes (rule.base.right.hasEdge · = true) (rule.quantified.right.hasEdge · = true) fewer
          choice (fun copy => (few' copy).edge?)
          (fun copy => (second copy).edge?) right.edge? := by
  obtain ⟨left, embedsLeft, leftVertices, leftEdges⟩ :=
    less.left.exists_takes unfolds.left chosen formed.base_left.1 formed.left.1
  obtain ⟨right, embedsRight, rightVertices, rightEdges⟩ :=
    less.right.exists_takes unfolds.right chosen formed.base_right.1 formed.right.1
  have tallies := less.tallies valid mirrors
  have tallies' := unfolds.tallies valid mirrors
  have edge_sides : ∀ {rule : Rule}, rule.Valid → ∀ {one other}, rule.edgeMap.get? one = some other →
      rule.left.hasEdge one = true ∧ rule.right.hasEdge other = true := by
    intro rule valid one other mapped
    obtain ⟨stored, stored', here, there, _⟩ := valid.edge_sides mapped
    exact ⟨Hypergraph.hasEdge_iff.mpr ⟨stored, here⟩, Hypergraph.hasEdge_iff.mpr ⟨stored', there⟩⟩
  have createdVertex : ∀ {one image}, one ∈ small.createdVertices → right.vertex? one = some image →
      image ∈ big.createdVertices :=
    rightVertices.told chosen (fun created => (Rule.mem_createdVertices.mp created).1)
      (fun created => (Rule.mem_createdVertices.mp created).1)
      tallies.createdVertices tallies'.createdVertices
  refine ⟨left, right, ?_, rightVertices, rightEdges⟩
  exact
    { left := embedsLeft
      right := embedsRight
      vertexMap :=
        leftVertices.related rightVertices chosen valid.base.vertex_sides
          valid.quantified.vertex_sides less.vertexMap unfolds.vertexMap
      edgeMap :=
        leftEdges.related rightEdges chosen (edge_sides valid.base) (edge_sides valid.quantified)
          less.edgeMap unfolds.edgeMap
      createdVertex
      createdEdge :=
        rightEdges.told chosen
          (fun created => Hypergraph.hasEdge_iff.mpr (Rule.mem_createdEdges.mp created).1)
          (fun created => Hypergraph.hasEdge_iff.mpr (Rule.mem_createdEdges.mp created).1)
            tallies.createdEdges tallies'.createdEdges
      deletedVertex :=
        leftVertices.told chosen (fun deleted => (Rule.mem_deletedVertices.mp deleted).1)
          (fun deleted => (Rule.mem_deletedVertices.mp deleted).1) tallies.deletedVertices
            tallies'.deletedVertices
      deletedEdge :=
        leftEdges.told chosen
          (fun deleted => Hypergraph.hasEdge_iff.mpr (Rule.mem_deletedEdges.mp deleted).1)
          (fun deleted => Hypergraph.hasEdge_iff.mpr (Rule.mem_deletedEdges.mp deleted).1)
            tallies.deletedEdges tallies'.deletedEdges
      closed := fun {one image edge label ends} created placed there member => by
        obtain ⟨stored, found, rfl, rfl⟩ := Hypergraph.skeleton_edge_iff.mp there
        have inBig := createdVertex created placed
        rcases tallies.createdVertices.mp created with known | ⟨copy, inside, vertex, own, held⟩
        · have inBase := (Rule.mem_createdVertices.mp known).1
          cases (rightVertices.of_base inBase).symm.trans placed
          exact ⟨edge, rightEdges.of_base
            (unfolds.edge_of_base mirrors formed inBig inBase found member)⟩
        · obtain ⟨_, _, again, goes, taken⟩ :=
            rightVertices.of_copy inside (Rule.mem_createdVertices.mp own).1
          cases held.symm.trans again
          cases placed.symm.trans taken
          obtain ⟨source, held'⟩ :=
            unfolds.edge_of_copy mirrors formed inBig (chosen.inside inside) goes found member
          obtain ⟨_, _, _, goes', taken'⟩ :=
            rightEdges.of_copy inside
              ((unfolds.right.edges.defined (chosen.inside inside)).mpr ⟨edge, held'⟩)
          cases held'.symm.trans goes'
          exact ⟨_, taken'⟩ }

end QuantifiedRule

end Coverability
