import Coverability.Proofs.Arrangements
import Coverability.Proofs.Contraction

/-! The minor search. Selections of edges are the choices of images, and all combinations of these
are tried. Blocks of vertices are the branches of a model, with a vertex to spare for every isolated
one. So the search succeeds just if there is a model. -/

namespace Coverability.Minor

open Relation (EqvGen)
open Odometer
open Skeleton (Model)

variable {smaller bigger : Hypergraph} {chosen : List (EdgeId × EdgeId)}

/-- Images for the edges of the smaller graph, distinct and of the right shape. -/
structure Assigned (smaller bigger : Hypergraph) (chosen : List (EdgeId × EdgeId)) : Prop where
  complete : ∀ {id edge}, smaller.edge? id = some edge → ∃ picked, (id, picked) ∈ chosen
  paired : ∀ {id picked}, (id, picked) ∈ chosen →
    ∃ one other, smaller.edge? id = some one ∧ bigger.edge? picked = some other ∧
      one.shape = other.shape
  functional : ∀ {id picked other}, (id, picked) ∈ chosen → (id, other) ∈ chosen → picked = other
  injective : ∀ {id other picked}, (id, picked) ∈ chosen → (other, picked) ∈ chosen → id = other

/-- Whether an assignment of edges can be completed. -/
def Succeeds (smaller bigger : Hypergraph) (chosen : List (EdgeId × EdgeId)) : Prop :=
  ((forcedBy smaller bigger chosen).any fun forced =>
    contractRest bigger forced (chosen.map Prod.snd) smaller.isolatedVertices.length) = true

/-- The search tries what the selections go through, until one assignment succeeds. -/
theorem search_traverses {groups : List Group} {tries : Nat} {selections : List Selection}
    {others : List (List Selection)} (way : Traverses Selection.advanceAll (selections :: others))
    (enough : others.length < tries) :
    search smaller bigger groups tries selections = true ↔
      ∃ tried ∈ selections :: others, Succeeds smaller bigger (assignment groups tried) := by
  induction tries generalizing selections others with
  | zero => exact absurd enough (Nat.not_lt_zero _)
  | succ tries ih =>
    rw [search]
    split
    next succeeds => exact iff_of_true rfl ⟨selections, List.mem_cons_self, succeeds⟩
    next fails =>
      cases way with
      | last stuck =>
        rw [stuck]
        simpa [Succeeds] using fails
      | onward moved later =>
        rw [moved]
        refine (ih later (Nat.lt_of_succ_lt_succ enough)).trans ?_
        rw [List.exists_mem_cons_iff _ selections]
        exact (or_iff_right fails).symm

/-- As many attempts as the search is given are enough for all combinations. -/
theorem search_combinations {groups : List Group} {sizes : List (Nat × Nat)}
    (enough : ∀ size ∈ sizes, size.2 ≤ size.1) :
    search smaller bigger groups
      (((sizes.map fun size => Selection.first size.1 size.2).map Selection.countBound).foldl (· * ·) 1)
      (sizes.map fun size => Selection.first size.1 size.2) = true ↔
      ∃ tried ∈ Selection.combinations sizes, Succeeds smaller bigger (assignment groups tried) := by
  have way := @Selection.combinations_traversed sizes
  have length := Selection.length_combinations_le enough
  obtain ⟨others, all⟩ := List.head?_eq_some_iff.mp (@Selection.combinations_head sizes)
  rw [all] at way length ⊢
  refine search_traverses way ?_
  rw [Selection.countBound_eq]
  exact length

/-- Where the ends of the images go. -/
def pairs (smaller bigger : Hypergraph) (chosen : List (EdgeId × EdgeId)) :
    List (VertexId × VertexId) :=
  chosen.flatMap fun pair =>
    match bigger.edge? pair.2, smaller.edge? pair.1 with
    | some other, some one => other.vertices.zip one.vertices
    | _, _ => []

theorem mem_pairs {vertex target : VertexId} : (vertex, target) ∈ pairs smaller bigger chosen ↔
    ∃ id picked one other, (id, picked) ∈ chosen ∧ smaller.edge? id = some one ∧
      bigger.edge? picked = some other ∧
      (vertex, target) ∈ other.vertices.zip one.vertices := by
  rw [pairs, List.mem_flatMap]
  constructor
  · rintro ⟨⟨id, picked⟩, member, inside⟩
    split at inside
    next other one atOther atOne => exact ⟨id, picked, one, other, member, atOne, atOther, inside⟩
    · cases inside
  · rintro ⟨id, picked, one, other, member, atOne, atOther, inside⟩
    refine ⟨(id, picked), member, ?_⟩
    simpa only [atOther, atOne] using inside

/-- The ends of one image, with the ends that they go to. -/
private def endsOf (smaller bigger : Hypergraph) (pair : EdgeId × EdgeId) :
    Option (List (VertexId × VertexId)) := do
  return (← bigger.edge? pair.2).vertices.zip (← smaller.edge? pair.1).vertices

private theorem forcedBy_eq_bind : forcedBy smaller bigger chosen =
    (chosen.mapM (endsOf smaller bigger)).bind fun forces => force ∅ forces.flatten := rfl

private theorem endsOf_some {pair : EdgeId × EdgeId} {one other : Edge}
    (atOne : smaller.edge? pair.1 = some one) (atOther : bigger.edge? pair.2 = some other) :
    endsOf smaller bigger pair = some (other.vertices.zip one.vertices) := by
  rw [endsOf, atOne, atOther]
  rfl

private theorem flatten_ends {forces : List (List (VertexId × VertexId))}
    (lists : chosen.mapM (endsOf smaller bigger) = some forces) :
    forces.flatten = pairs smaller bigger chosen := by
  induction chosen generalizing forces with
  | nil =>
    cases lists
    rfl
  | cons pair rest ih =>
    rw [List.mapM_cons] at lists
    obtain ⟨here, atPair, lists⟩ := Option.bind_eq_some_iff.mp lists
    obtain ⟨later, atRest, lists⟩ := Option.bind_eq_some_iff.mp lists
    cases lists
    obtain ⟨other, atOther, atPair⟩ := Option.bind_eq_some_iff.mp atPair
    obtain ⟨one, atOne, atPair⟩ := Option.bind_eq_some_iff.mp atPair
    cases atPair
    rw [List.flatten_cons, ih atRest, pairs, pairs, List.flatMap_cons, atOther, atOne]

theorem Assigned.forcedBy_eq (assigned : Assigned smaller bigger chosen) :
    forcedBy smaller bigger chosen = force ∅ (pairs smaller bigger chosen) := by
  have known : ∀ pair ∈ chosen, ∃ one other, smaller.edge? pair.1 = some one ∧
      bigger.edge? pair.2 = some other := by
    intro pair member
    obtain ⟨one, other, atOne, atOther, _⟩ := assigned.paired member
    exact ⟨one, other, atOne, atOther⟩
  obtain ⟨forces, lists⟩ : ∃ forces, chosen.mapM (endsOf smaller bigger) = some forces := by
    clear assigned
    induction chosen with
    | nil => exact ⟨[], rfl⟩
    | cons pair rest ih =>
      obtain ⟨one, other, atOne, atOther⟩ := known pair List.mem_cons_self
      obtain ⟨forces, lists⟩ := ih fun later member => known later (List.mem_cons_of_mem _ member)
      exact ⟨_ :: forces, by rw [List.mapM_cons, lists, endsOf_some atOne atOther]; rfl⟩
  rw [forcedBy_eq_bind, lists, Option.bind_some, flatten_ends lists]

private theorem force_pairs {forced : Table VertexId VertexId}
    (found : forcedBy smaller bigger chosen = some forced) :
    force ∅ (pairs smaller bigger chosen) = some forced := by
  rw [forcedBy_eq_bind] at found
  obtain ⟨forces, lists, found⟩ := Option.bind_eq_some_iff.mp found
  rwa [← flatten_ends lists]

theorem get?_forced {forced : Table VertexId VertexId}
    (found : forcedBy smaller bigger chosen = some forced) {vertex target : VertexId} :
    forced.get? vertex = some target ↔ (vertex, target) ∈ pairs smaller bigger chosen := by
  rw [force_some (force_pairs found)]
  exact or_iff_right nofun

private theorem end_of_forced {forced : Table VertexId VertexId}
    (found : forcedBy smaller bigger chosen = some forced) {vertex target : VertexId}
    (stored : forced.get? vertex = some target) :
    ∃ id edge, smaller.edge? id = some edge ∧ target ∈ edge.vertices := by
  obtain ⟨id, picked, one, other, _, atOne, _, inside⟩ := mem_pairs.mp ((get?_forced found).mp stored)
  exact ⟨id, one, atOne, (List.of_mem_zip inside).2⟩

theorem forced_inside (formed : bigger.WellFormed) {forced : Table VertexId VertexId}
    (found : forcedBy smaller bigger chosen = some forced) (vertex target : VertexId)
    (stored : forced.get? vertex = some target) :
    bigger.hasVertex vertex = true := by
  obtain ⟨id, picked, one, other, _, _, atOther, inside⟩ :=
    mem_pairs.mp ((get?_forced found).mp stored)
  exact formed.has_ends atOther (List.of_mem_zip inside).1

section Completion

variable {forced : Table VertexId VertexId}
  (contraction : Contraction bigger forced (chosen.map Prod.snd) smaller.isolatedVertices.length)

/-- The block that reaches a vertex, or the spare one that an isolated vertex gets. -/
private def Branch (vertex member : VertexId) : Prop :=
  bigger.hasVertex member = true ∧
    ((∃ other, forced.get? other = some vertex ∧ contraction.root member = contraction.root other) ∨
      ∃ other, (vertex, other) ∈ smaller.isolatedVertices.zip contraction.spares ∧
        contraction.root member = contraction.root other)

private theorem branch_congr (formed : bigger.WellFormed) {vertex one other : VertexId}
    (joined : EqvGen (fun one other => contraction.root one = contraction.root other ∧
      Shared bigger (chosen.map Prod.snd) one other)
      one other) : Branch contraction vertex one = Branch contraction vertex other := by
  refine eqvGen_value (fun one other ⟨same, id, edge, found, _, left, right⟩ => ?_) joined
  simp only [Branch, same, formed.has_ends found left, formed.has_ends found right]

private theorem joined_of_root (formed : bigger.WellFormed) {usable : EdgeId → Prop}
    (free : ∀ id, id ∉ chosen.map Prod.snd → usable id) {vertex one other : VertexId}
    (joined : EqvGen (fun one other => contraction.root one = contraction.root other ∧
      Shared bigger (chosen.map Prod.snd) one other)
      one other) (inside : Branch contraction vertex one) :
    bigger.skeleton.Joined usable (Branch contraction vertex) one other := by
  induction joined with
  | rel one other related =>
    have there := branch_congr contraction formed (.rel _ _ related) ▸ inside
    obtain ⟨_, id, edge, found, unselected, left, right⟩ := related
    exact .single ⟨inside, there, id, _, _, free id unselected,
      Hypergraph.skeleton_edge found, left, right⟩
  | refl one => exact .refl
  | symm one other path ih => exact (ih (branch_congr contraction formed path ▸ inside)).symm
  | trans one between other first second ihFirst ihSecond =>
    exact (ihFirst inside).trans (ihSecond (branch_congr contraction formed first ▸ inside))

private theorem branch_apart {one other member : VertexId}
    (atOne : Branch contraction one member) (atOther : Branch contraction other member) :
    one = other := by
  have spareVertex : ∀ {vertex spare},
      (vertex, spare) ∈ smaller.isolatedVertices.zip contraction.spares →
      spare ∈ contraction.spares :=
    fun paired => (List.of_mem_zip paired).2
  obtain ⟨_, ⟨left, storedLeft, sameLeft⟩ | ⟨left, pairedLeft, sameLeft⟩⟩ := atOne <;>
    obtain ⟨_, ⟨right, storedRight, sameRight⟩ | ⟨right, pairedRight, sameRight⟩⟩ := atOther
  · exact (contraction.root_forced storedLeft storedRight).mp (sameLeft.symm.trans sameRight)
  · exact absurd (sameRight.symm.trans sameLeft)
      (contraction.free right (spareVertex pairedRight) left one storedLeft)
  · exact absurd (sameLeft.symm.trans sameRight)
      (contraction.free left (spareVertex pairedLeft) right other storedRight)
  · obtain ⟨first, isolatedLeft, spareLeft⟩ := Listing.mem_zip_iff.mp pairedLeft
    obtain ⟨second, isolatedRight, spareRight⟩ := Listing.mem_zip_iff.mp pairedRight
    have same :=
      List.inj_on_of_nodup_map contraction.distinct (spareVertex pairedLeft) (spareVertex pairedRight)
        (sameLeft.symm.trans sameRight)
    have equal :=
      Listing.eq_of_nodup (List.Nodup.of_map _ contraction.distinct) spareLeft (same ▸ spareRight)
    subst equal
    exact Option.some.inj (isolatedLeft.symm.trans isolatedRight)

private theorem branch_nonempty (formedSmaller : smaller.WellFormed) (formed : bigger.WellFormed)
    (assigned : Assigned smaller bigger chosen)
    (found : forcedBy smaller bigger chosen = some forced) {vertex : VertexId}
    (inside : smaller.hasVertex vertex = true) : ∃ member, Branch contraction vertex member := by
  by_cases isolated : vertex ∈ smaller.isolatedVertices
  · obtain ⟨index, atIndex⟩ := List.mem_iff_getElem?.mp isolated
    have short := (List.getElem?_eq_some_iff.mp atIndex).1
    rw [← contraction.length_spares] at short
    have atSpare := List.getElem?_eq_getElem short
    exact ⟨_, contraction.inside _ (List.getElem_mem short),
      .inr ⟨_, Listing.mem_zip_iff.mpr ⟨index, atIndex, atSpare⟩, rfl⟩⟩
  · rw [formedSmaller.mem_isolatedVertices, not_and] at isolated
    have attached := isolated inside
    push Not at attached
    obtain ⟨id, edge, atEdge, member⟩ := attached
    obtain ⟨picked, paired⟩ := assigned.complete atEdge
    obtain ⟨one, other, atOne, atOther, shapes⟩ := assigned.paired paired
    cases Option.some.inj (atEdge.symm.trans atOne)
    obtain ⟨index, atIndex⟩ := List.mem_iff_getElem?.mp member
    have short := (List.getElem?_eq_some_iff.mp atIndex).1
    have lengths : edge.vertices.length = other.vertices.length := congrArg Prod.snd shapes
    rw [lengths] at short
    have atOtherIndex := List.getElem?_eq_getElem short
    have stored := (get?_forced found).mpr
      (mem_pairs.mpr ⟨id, picked, edge, other, paired, atEdge, atOther,
        Listing.mem_zip_iff.mpr ⟨index, atOtherIndex, atIndex⟩⟩)
    exact ⟨_, forced_inside formed found _ _ stored, .inl ⟨_, stored, rfl⟩⟩

private noncomputable def modelOf (formedSmaller : smaller.WellFormed) (formed : bigger.WellFormed)
    (assigned : Assigned smaller bigger chosen)
    (found : forcedBy smaller bigger chosen = some forced) :
    Model smaller.skeleton bigger.skeleton :=
  have image_mem : ∀ {id}, smaller.skeleton.HasEdge id →
      (id, Classical.epsilon fun picked => (id, picked) ∈ chosen) ∈ chosen := by
    intro id hasEdge
    obtain ⟨edge, stored⟩ := Hypergraph.skeleton_hasEdge.mp hasEdge
    exact Classical.epsilon_spec (assigned.complete stored)
  { image := fun id => Classical.epsilon fun picked => (id, picked) ∈ chosen
    branch := Branch contraction
    branch_inside := by
      rintro vertex member ⟨inside, ⟨other, stored, _⟩ | ⟨other, paired, _⟩⟩
      · obtain ⟨id, edge, stored, member⟩ := end_of_forced found stored
        exact ⟨formedSmaller.has_ends stored member, inside⟩
      · exact ⟨(formedSmaller.mem_isolatedVertices.mp (List.of_mem_zip paired).1).1, inside⟩
    branch_apart := branch_apart contraction
    branch_nonempty := branch_nonempty contraction formedSmaller formed assigned found
    branch_joined := by
      intro vertex first second atFirst atSecond
      have same : contraction.root first = contraction.root second := by
        obtain ⟨_, ⟨left, storedLeft, sameLeft⟩ | ⟨left, pairedLeft, sameLeft⟩⟩ := atFirst <;>
          obtain ⟨_, ⟨right, storedRight, sameRight⟩ | ⟨right, pairedRight, sameRight⟩⟩ := atSecond
        · exact sameLeft.trans (((contraction.root_forced storedLeft storedRight).mpr rfl).trans
            sameRight.symm)
        · obtain ⟨id, edge, stored, member⟩ := end_of_forced found storedLeft
          exact absurd member
            ((formedSmaller.mem_isolatedVertices.mp (List.of_mem_zip pairedRight).1).2 id edge stored)
        · obtain ⟨id, edge, stored, member⟩ := end_of_forced found storedRight
          exact absurd member
            ((formedSmaller.mem_isolatedVertices.mp (List.of_mem_zip pairedLeft).1).2 id edge stored)
        · obtain ⟨one, isolatedLeft, spareLeft⟩ := Listing.mem_zip_iff.mp pairedLeft
          obtain ⟨other, isolatedRight, spareRight⟩ := Listing.mem_zip_iff.mp pairedRight
          have equal :=
            Listing.eq_of_nodup Hypergraph.WellFormed.nodup_isolatedVertices
              isolatedLeft isolatedRight
          subst equal
          rw [sameLeft, sameRight, Option.some.inj (spareLeft.symm.trans spareRight)]
      refine joined_of_root contraction formed (fun id unselected other hasEdge equal => ?_)
        (contraction.joined same) atFirst
      exact unselected (equal ▸ List.mem_map.mpr ⟨_, image_mem hasEdge, rfl⟩)
    image_injective := by
      intro one other left right same
      have atOther := image_mem right
      rw [← same] at atOther
      exact assigned.injective (image_mem left) atOther
    image_kept := by
      intro id label ends stored
      have paired := image_mem ⟨label, ends, stored⟩
      obtain ⟨one, other, atOne, atOther, shapes⟩ := assigned.paired paired
      obtain ⟨edge, atEdge, rfl, rfl⟩ := Hypergraph.skeleton_edge_iff.mp stored
      cases Option.some.inj (atEdge.symm.trans atOne)
      refine ⟨other.vertices, ?_,
        List.forall₂_iff_zip.mpr ⟨congrArg Prod.snd shapes, fun {vertex member} inside => ?_⟩⟩
      · rw [Hypergraph.skeleton_edge atOther,
          show one.label = other.label from congrArg Prod.fst shapes]
      · obtain ⟨index, left, right⟩ := Listing.mem_zip_iff.mp inside
        have stored := (get?_forced found).mpr
          (mem_pairs.mpr ⟨id, _, one, other, paired, atEdge, atOther,
            Listing.mem_zip_iff.mpr ⟨index, right, left⟩⟩)
        exact ⟨forced_inside formed found _ _ stored, .inl ⟨_, stored, rfl⟩⟩ }

end Completion

theorem model_of_succeeds (formedSmaller : smaller.WellFormed) (formed : bigger.WellFormed)
    (assigned : Assigned smaller bigger chosen) (succeeds : Succeeds smaller bigger chosen) :
    Nonempty (Model smaller.skeleton bigger.skeleton) := by
  rw [Succeeds, Option.any_eq_true] at succeeds
  obtain ⟨forced, found, contracts⟩ := succeeds
  obtain ⟨contraction⟩ := (contractRest_iff formed (forced_inside formed found)).mp contracts
  exact ⟨modelOf contraction formedSmaller formed assigned found⟩

section Reading

variable (model : Model smaller.skeleton bigger.skeleton)

open Classical in
/-- A vertex of the branch, for every vertex of the smaller graph. -/
private noncomputable def hub (vertex : VertexId) : VertexId :=
  Classical.epsilon (model.branch vertex)

open Classical in
/-- Names a branch by its hub and leaves all other vertices apart. -/
private noncomputable def blockRoot (member : VertexId) : VertexId :=
  if inside : ∃ vertex, model.branch vertex member
    then hub model (Classical.choose inside) else member

private theorem hub_mem {vertex : VertexId} (inside : smaller.hasVertex vertex = true) :
    model.branch vertex (hub model vertex) :=
  Classical.epsilon_spec (model.branch_nonempty inside)

private theorem blockRoot_of_branch {vertex member : VertexId} (inside : model.branch vertex member) :
    blockRoot model member = hub model vertex := by
  have some : ∃ vertex, model.branch vertex member := ⟨vertex, inside⟩
  rw [blockRoot, dif_pos some, model.branch_apart (Classical.choose_spec some) inside]

private theorem hub_injective {one other : VertexId} (atOne : smaller.hasVertex one = true)
    (atOther : smaller.hasVertex other = true)
    (same : hub model one = hub model other) : one = other :=
  model.branch_apart (hub_mem model atOne) (same ▸ hub_mem model atOther)

private theorem branch_of_pair
    (follows : ∀ {id picked}, (id, picked) ∈ chosen → model.image id = picked)
    {member vertex : VertexId} (pair : (member, vertex) ∈ pairs smaller bigger chosen) :
    model.branch vertex member := by
  obtain ⟨id, picked, one, other, paired, atOne, atOther, inside⟩ := mem_pairs.mp pair
  obtain ⟨members, kept, along⟩ := model.image_kept (Hypergraph.skeleton_edge atOne)
  rw [follows paired, Hypergraph.skeleton_edge atOther, Option.some.injEq, Prod.mk.injEq] at kept
  obtain ⟨index, left, right⟩ := Listing.mem_zip_iff.mp inside
  exact List.forall₂_zip along (Listing.mem_zip_iff.mpr ⟨index, right, kept.2 ▸ left⟩)

private theorem joined_of_blockRoot
    (follows : ∀ {id picked}, (id, picked) ∈ chosen → model.image id = picked)
    (assigned : Assigned smaller bigger chosen) {first second : VertexId}
    (same : blockRoot model first = blockRoot model second) :
    EqvGen (fun one other => blockRoot model one = blockRoot model other ∧
      Shared bigger (chosen.map Prod.snd) one other)
      first second := by
  have alone : ∀ {vertex member other}, model.branch vertex member →
      blockRoot model member = blockRoot model other →
      model.branch vertex other := by
    intro vertex member other inside same
    rw [blockRoot_of_branch model inside] at same
    have atHub := hub_mem model (model.branch_inside inside).1
    by_cases some : ∃ vertex, model.branch vertex other
    · obtain ⟨owner, owned⟩ := some
      rw [blockRoot_of_branch model owned] at same
      rwa [hub_injective model (model.branch_inside inside).1 (model.branch_inside owned).1 same]
    · rw [blockRoot, dif_neg some] at same
      exact absurd ⟨vertex, same ▸ atHub⟩ some
  by_cases some : ∃ vertex, model.branch vertex first
  · obtain ⟨vertex, inside⟩ := some
    have walk := model.branch_joined inside (alone inside same)
    clear same
    induction walk with
    | refl => exact .refl _
    | @tail middle last _ link ih =>
      obtain ⟨left, right, id, label, ends, free, found, leftOn, rightOn⟩ := link
      obtain ⟨edge, atEdge, rfl, rfl⟩ := Hypergraph.skeleton_edge_iff.mp found
      have unselected : id ∉ chosen.map Prod.snd := by
        intro taken
        obtain ⟨⟨source, _⟩, paired, rfl⟩ := List.mem_map.mp taken
        obtain ⟨one, _, atOne, _⟩ := assigned.paired paired
        exact free source (Hypergraph.skeleton_hasEdge.mpr ⟨one, atOne⟩) (follows paired)
      refine ih.trans _ _ _ (.rel _ _ ⟨?_, id, edge, atEdge, unselected, leftOn, rightOn⟩)
      rw [blockRoot_of_branch model left, blockRoot_of_branch model right]
  · have other : ¬∃ vertex, model.branch vertex second :=
      fun ⟨vertex, inside⟩ => some ⟨vertex, alone inside same.symm⟩
    rw [blockRoot, dif_neg some, blockRoot, dif_neg other] at same
    exact same ▸ .refl _

theorem succeeds_of_model (formedSmaller : smaller.WellFormed) (formed : bigger.WellFormed)
    (assigned : Assigned smaller bigger chosen)
    (follows : ∀ {id picked}, (id, picked) ∈ chosen → model.image id = picked) :
    Succeeds smaller bigger chosen := by
  obtain ⟨forced, found⟩ : ∃ forced, forcedBy smaller bigger chosen = some forced := by
    rw [assigned.forcedBy_eq]
    refine force_isSome fun vertex first second atFirst atSecond => ?_
    exact model.branch_apart (branch_of_pair model follows (atFirst.resolve_left nofun))
      (branch_of_pair model follows (atSecond.resolve_left nofun))
  have branch_of_forced : ∀ {member vertex}, forced.get? member = some vertex →
      model.branch vertex member :=
    fun stored => branch_of_pair model follows ((get?_forced found).mp stored)
  have isolated : ∀ {vertex}, vertex ∈ smaller.isolatedVertices → smaller.hasVertex vertex = true :=
    fun member => (formedSmaller.mem_isolatedVertices.mp member).1
  rw [Succeeds, found, Option.any_some, contractRest_iff formed (forced_inside formed found)]
  refine ⟨⟨blockRoot model, joined_of_blockRoot model follows assigned,
    fun {first second one other} atFirst atSecond => ?_,
    smaller.isolatedVertices.map (hub model), List.length_map _, ?_,
    fun member spare => ?_, fun member spare other target stored same => ?_⟩⟩
  · rw [blockRoot_of_branch model (branch_of_forced atFirst),
      blockRoot_of_branch model (branch_of_forced atSecond)]
    refine ⟨hub_injective model (model.branch_inside (branch_of_forced atFirst)).1
      (model.branch_inside (branch_of_forced atSecond)).1, fun same => same ▸ rfl⟩
  · rw [List.map_map]
    refine (List.nodup_map_iff_inj_on Hypergraph.WellFormed.nodup_isolatedVertices).mpr
      fun one atOne other atOther same => ?_
    have rootOne := blockRoot_of_branch model (hub_mem model (isolated atOne))
    have rootOther := blockRoot_of_branch model (hub_mem model (isolated atOther))
    exact hub_injective model (isolated atOne) (isolated atOther)
      (rootOne.symm.trans (same.trans rootOther))
  · obtain ⟨vertex, member, rfl⟩ := List.mem_map.mp spare
    exact (model.branch_inside (hub_mem model (isolated member))).2
  · obtain ⟨vertex, member, rfl⟩ := List.mem_map.mp spare
    have owned := branch_of_forced stored
    rw [blockRoot_of_branch model (hub_mem model (isolated member)),
      blockRoot_of_branch model owned] at same
    have equal := hub_injective model (isolated member) (model.branch_inside owned).1 same
    subst equal
    obtain ⟨id, edge, atEdge, inside⟩ := end_of_forced found stored
    exact (formedSmaller.mem_isolatedVertices.mp member).2 id edge atEdge inside

end Reading

/-- Both graphs' edges of one shape. -/
private def groupOf (smaller bigger : Hypergraph) (shape : String × Nat) : Group :=
  ⟨smaller.edgesOfShape shape, bigger.edgesOfShape shape⟩

private def shapes (graph : Hypergraph) : List (String × Nat) :=
  (graph.edgeList.map Edge.shape).eraseDups

private theorem groups_eq :
    groups smaller bigger = (shapes smaller).map (groupOf smaller bigger) := rfl

private theorem nodup_shapes : (shapes smaller).Nodup := Listing.nodup_eraseDups _

private theorem mem_shapes (formed : smaller.WellFormed) {id : EdgeId} {edge : Edge}
    (found : smaller.edge? id = some edge) :
    edge.shape ∈ shapes smaller :=
  List.mem_eraseDups.mpr
    (List.mem_map_of_mem (formed.mem_edgeList.mpr (formed.edge_id found ▸ found)))

/-- What the dials of the selections look like. -/
def makes (smaller bigger : Hypergraph) : List (Nat × Nat) :=
  (groups smaller bigger).map fun group => (group.bigger.length, group.smaller.length)

private theorem mem_assignment {selections : List Selection} (valid : Selection.AllValid selections)
    (same : frame (Selection.dials selections) = makes smaller bigger) {id picked : EdgeId} :
    (id, picked) ∈ assignment (groups smaller bigger) selections ↔
    ∃ (index place number : Nat) (shape : String × Nat) (selection : Selection),
      (shapes smaller)[index]? = some shape ∧ selections[index]? = some selection ∧
        (smaller.edgesOfShape shape)[place]? = some id ∧ selection.indices[place]? = some number ∧
          (bigger.edgesOfShape shape)[number]? = some picked := by
  have picks : ∀ {index : Nat} {shape : String × Nat} {selection : Selection},
      (shapes smaller)[index]? = some shape → selections[index]? = some selection →
      ∀ place : Nat,
        (selection.indices.filterMap fun number => (bigger.edgesOfShape shape)[number]?)[place]? =
        selection.indices[place]?.bind fun number => (bigger.edgesOfShape shape)[number]? := by
    intro index shape selection atShape atSelection place
    have bound := congrArg (·[index]?) same
    simp only [frame, Selection.dials, makes, groups_eq, List.getElem?_map, atShape, atSelection,
      Option.map_some, Option.some.injEq, Prod.mk.injEq, groupOf] at bound
    refine Listing.getElem?_filterMap_of_some (fun number member => ?_) place
    have below :=
      ((Selection.picks_iff.mp (valid selection (List.mem_of_getElem? atSelection)).picks).2
        number member).1
    rw [bound.1] at below
    rw [List.getElem?_eq_getElem below]
    rfl
  rw [assignment, List.mem_flatMap]
  constructor
  · rintro ⟨⟨group, selection⟩, paired, inside⟩
    obtain ⟨index, atGroup, atSelection⟩ := Listing.mem_zip_iff.mp paired
    obtain ⟨place, atId, atPicked⟩ := Listing.mem_zip_iff.mp inside
    rw [groups_eq, List.getElem?_map, Option.map_eq_some_iff] at atGroup
    obtain ⟨shape, atShape, rfl⟩ := atGroup
    change (selection.indices.filterMap fun number =>
      (bigger.edgesOfShape shape)[number]?)[place]? = some picked at atPicked
    rw [picks atShape atSelection, Option.bind_eq_some_iff] at atPicked
    obtain ⟨number, atNumber, atPicked⟩ := atPicked
    exact ⟨index, place, number, shape, selection, atShape, atSelection, atId, atNumber, atPicked⟩
  · rintro ⟨index, place, number, shape, selection, atShape, atSelection, atId, atNumber, atPicked⟩
    refine ⟨(groupOf smaller bigger shape, selection),
      Listing.mem_zip_iff.mpr ⟨index, ?_, atSelection⟩, Listing.mem_zip_iff.mpr ⟨place, atId, ?_⟩⟩
    · rw [groups_eq, List.getElem?_map, atShape]
      rfl
    · change (selection.indices.filterMap fun number =>
        (bigger.edgesOfShape shape)[number]?)[place]? = some picked
      rw [picks atShape atSelection, atNumber]
      exact atPicked

private theorem shape_of_mem (formed : smaller.WellFormed) {shape other : String × Nat} {id : EdgeId}
    (first : id ∈ smaller.edgesOfShape shape) (second : id ∈ smaller.edgesOfShape other) :
    shape = other := by
  obtain ⟨edge, found, rfl⟩ := formed.mem_edgesOfShape.mp first
  obtain ⟨edge', found', rfl⟩ := formed.mem_edgesOfShape.mp second
  rw [Option.some.inj (found.symm.trans found')]

theorem assigned_of_selections (formedSmaller : smaller.WellFormed) (formed : bigger.WellFormed)
    {selections : List Selection} (valid : Selection.AllValid selections)
    (same : frame (Selection.dials selections) = makes smaller bigger) :
    Assigned smaller bigger (assignment (groups smaller bigger) selections) := by
  refine ⟨fun {id edge} found => ?_, fun {id picked} member => ?_,
    fun {id picked other} left right => ?_, fun {id other picked} left right => ?_⟩
  · obtain ⟨index, atShape⟩ := List.mem_iff_getElem?.mp (mem_shapes formedSmaller found)
    obtain ⟨place, atId⟩ :=
      List.mem_iff_getElem?.mp (formedSmaller.mem_edgesOfShape.mpr ⟨edge, found, rfl⟩)
    have make := congrArg (·[index]?) same
    simp only [frame, Selection.dials, makes, groups_eq, List.getElem?_map, atShape,
      Option.map_some, Option.map_map] at make
    obtain ⟨selection, atSelection, make⟩ := Option.map_eq_some_iff.mp make
    simp only [Function.comp_def, Prod.mk.injEq, groupOf] at make
    have short := (List.getElem?_eq_some_iff.mp atId).1
    rw [← make.2] at short
    have below :=
      ((Selection.picks_iff.mp (valid selection (List.mem_of_getElem? atSelection)).picks).2
        _ (List.getElem_mem short)).1
    rw [make.1] at below
    exact ⟨_, (mem_assignment valid same).mpr
      ⟨index, place, _, edge.shape, selection, atShape, atSelection, atId,
      List.getElem?_eq_getElem short, List.getElem?_eq_getElem below⟩⟩
  · obtain ⟨index, place, number, shape, selection, _, _, atId, _, atPicked⟩ :=
      (mem_assignment valid same).mp member
    obtain ⟨one, atOne, rfl⟩ := formedSmaller.mem_edgesOfShape.mp (List.mem_of_getElem? atId)
    obtain ⟨other, atOther, equal⟩ := formed.mem_edgesOfShape.mp (List.mem_of_getElem? atPicked)
    exact ⟨one, other, atOne, atOther, equal.symm⟩
  · obtain ⟨index, place, number, shape, selection, atShape, atSelection, atId, atNumber,
      atPicked⟩ := (mem_assignment valid same).mp left
    obtain ⟨index', place', number', shape', selection', atShape', atSelection', atId',
        atNumber', atPicked'⟩ :=
      (mem_assignment valid same).mp right
    cases shape_of_mem formedSmaller (List.mem_of_getElem? atId) (List.mem_of_getElem? atId')
    cases Listing.eq_of_nodup nodup_shapes atShape atShape'
    cases Option.some.inj (atSelection.symm.trans atSelection')
    cases Listing.eq_of_nodup formedSmaller.nodup_edgesOfShape atId atId'
    cases Option.some.inj (atNumber.symm.trans atNumber')
    exact Option.some.inj (atPicked.symm.trans atPicked')
  · obtain ⟨index, place, number, shape, selection, atShape, atSelection, atId, atNumber,
      atPicked⟩ := (mem_assignment valid same).mp left
    obtain ⟨index', place', number', shape', selection', atShape', atSelection', atId',
        atNumber', atPicked'⟩ :=
      (mem_assignment valid same).mp right
    cases shape_of_mem formed (List.mem_of_getElem? atPicked) (List.mem_of_getElem? atPicked')
    cases Listing.eq_of_nodup nodup_shapes atShape atShape'
    cases Option.some.inj (atSelection.symm.trans atSelection')
    cases Listing.eq_of_nodup formed.nodup_edgesOfShape atPicked atPicked'
    have distinct :=
      (Selection.picks_iff.mp (valid selection (List.mem_of_getElem? atSelection)).picks).1
    cases Listing.eq_of_nodup distinct atNumber atNumber'
    exact Option.some.inj (atId.symm.trans atId')

/-- The selections that pick the images of a model. -/
private def selectionsOf (smaller bigger : Hypergraph) (image : EdgeId → EdgeId) : List Selection :=
  (groups smaller bigger).map fun group =>
    ⟨group.bigger.length, group.smaller.map fun id => group.bigger.idxOf (image id), false⟩

theorem image_shape (formed : bigger.WellFormed) (formedSmaller : smaller.WellFormed)
    (model : Model smaller.skeleton bigger.skeleton) {shape : String × Nat} {id : EdgeId}
    (member : id ∈ smaller.edgesOfShape shape) :
    model.image id ∈ bigger.edgesOfShape shape := by
  obtain ⟨edge, found, rfl⟩ := formedSmaller.mem_edgesOfShape.mp member
  obtain ⟨members, kept, along⟩ := model.image_kept (Hypergraph.skeleton_edge found)
  obtain ⟨other, stored, label, rfl⟩ := Hypergraph.skeleton_edge_iff.mp kept
  exact formed.mem_edgesOfShape.mpr ⟨other, stored, Prod.ext label along.length_eq.symm⟩

private theorem mem_edgesOfShape_hasEdge (formed : smaller.WellFormed)
    {shape : String × Nat} {id : EdgeId} (member : id ∈ smaller.edgesOfShape shape) :
    smaller.skeleton.HasEdge id := by
  obtain ⟨edge, found, _⟩ := formed.mem_edgesOfShape.mp member
  exact Hypergraph.skeleton_hasEdge.mpr ⟨edge, found⟩

private theorem selectionsOf_valid (formedSmaller : smaller.WellFormed) (formed : bigger.WellFormed)
    (model : Model smaller.skeleton bigger.skeleton) :
    Selection.AllValid (selectionsOf smaller bigger model.image) := by
  intro selection member
  obtain ⟨group, inside, rfl⟩ := List.mem_map.mp member
  rw [groups_eq] at inside
  obtain ⟨shape, _, rfl⟩ := List.mem_map.mp inside
  refine ⟨rfl, Selection.picks_iff.mpr ⟨?_, fun number picked => ?_⟩⟩
  · refine (List.nodup_map_iff_inj_on formedSmaller.nodup_edgesOfShape).mpr
      fun one atOne other atOther same => ?_
    refine model.image_injective (mem_edgesOfShape_hasEdge formedSmaller atOne)
      (mem_edgesOfShape_hasEdge formedSmaller atOther) ?_
    exact (List.idxOf_inj (image_shape formed formedSmaller model atOne)).mp same
  · obtain ⟨id, atId, rfl⟩ := List.mem_map.mp picked
    exact ⟨List.idxOf_lt_length_of_mem (image_shape formed formedSmaller model atId),
      List.not_mem_nil⟩

private theorem frame_selectionsOf {image : EdgeId → EdgeId} :
    frame (Selection.dials (selectionsOf smaller bigger image)) = makes smaller bigger := by
  simp [frame, Selection.dials, selectionsOf, makes]

private theorem selectionsOf_follows (formedSmaller : smaller.WellFormed) (formed : bigger.WellFormed)
    (model : Model smaller.skeleton bigger.skeleton) {id picked : EdgeId}
    (member : (id, picked) ∈ assignment (groups smaller bigger)
      (selectionsOf smaller bigger model.image)) : model.image id = picked := by
  obtain ⟨index, place, number, shape, selection, atShape, atSelection, atId, atNumber, atPicked⟩ :=
    (mem_assignment (selectionsOf_valid formedSmaller formed model) frame_selectionsOf).mp member
  rw [selectionsOf, groups_eq, List.getElem?_map, List.getElem?_map, atShape] at atSelection
  cases Option.some.inj atSelection
  change ((smaller.edgesOfShape shape).map fun id =>
    (bigger.edgesOfShape shape).idxOf (model.image id))[place]? = some number at atNumber
  rw [List.getElem?_map, atId, Option.map_some, Option.some.injEq] at atNumber
  rw [← atNumber,
    List.getElem?_idxOf (image_shape formed formedSmaller model (List.mem_of_getElem? atId))]
      at atPicked
  exact Option.some.inj atPicked

theorem mayFit_of_model (formedSmaller : smaller.WellFormed) (formed : bigger.WellFormed)
    (model : Model smaller.skeleton bigger.skeleton) : mayFit smaller bigger = true := by
  have counted : ∀ {graph : Hypergraph} {shape : String × Nat},
      graph.shapeCount shape = (graph.edgesOfShape shape).length := by
    intro graph shape
    rw [Hypergraph.shapeCount, Hypergraph.edgesOfShape, List.length_map, List.countP_eq_length_filter]
  have fits : ∀ {ids others : List EdgeId}, ids.Nodup →
      (∀ id ∈ ids, smaller.skeleton.HasEdge id ∧ model.image id ∈ others) →
      ids.length ≤ others.length := by
    intro ids others distinct inside
    refine Listing.length_le_of_subset_map model.image distinct (fun one atOne other atOther => ?_)
      fun id member => (inside id member).2
    exact model.image_injective (inside one atOne).1 (inside other atOther).1
  rw [mayFit, Bool.and_eq_true, Bool.and_eq_true, decide_eq_true_iff, decide_eq_true_iff,
    List.all_eq_true]
  refine ⟨⟨?_, ?_⟩, fun edge _ => ?_⟩
  · rw [← Hypergraph.length_vertexIds, ← Hypergraph.length_vertexIds]
    refine Listing.length_le_of_subset_map (hub model) Hypergraph.nodup_vertexIds
      (fun one atOne other atOther => ?_) fun vertex member => ?_
    · exact hub_injective model (Hypergraph.mem_vertexIds.mp atOne)
        (Hypergraph.mem_vertexIds.mp atOther)
    · exact Hypergraph.mem_vertexIds.mpr (model.branch_inside
        (hub_mem model (Hypergraph.mem_vertexIds.mp member))).2
  · rw [← Hypergraph.length_edgeIds, ← Hypergraph.length_edgeIds]
    refine fits Hypergraph.nodup_edgeIds fun id member => ?_
    have hasEdge := Hypergraph.mem_edgeIds_iff.mp member
    exact ⟨hasEdge, Hypergraph.mem_edgeIds_iff.mpr (model.hasEdge hasEdge)⟩
  · rw [decide_eq_true_iff, counted, counted]
    exact fits formedSmaller.nodup_edgesOfShape fun id member =>
      ⟨mem_edgesOfShape_hasEdge formedSmaller member, image_shape formed formedSmaller model member⟩

theorem isMinor_eq : isMinor smaller bigger = (mayFit smaller bigger &&
    (!((makes smaller bigger).map fun size => Selection.first size.1 size.2).any Selection.ended &&
      search smaller bigger (groups smaller bigger)
        ((((makes smaller bigger).map fun size => Selection.first size.1 size.2).map
          Selection.countBound).foldl (· * ·) 1)
        ((makes smaller bigger).map fun size => Selection.first size.1 size.2))) := by
  have starts : ((makes smaller bigger).map fun size => Selection.first size.1 size.2) =
      (groups smaller bigger).map fun group =>
        Selection.first group.bigger.length group.smaller.length := by
    rw [makes, List.map_map]
    rfl
  rw [isMinor, starts]
  cases mayFit smaller bigger <;> rfl

/-- The search is for a combination that succeeds, and does not begin where some selection has ended
from the start. -/
theorem isMinor_iff_combination : isMinor smaller bigger = true ↔ mayFit smaller bigger = true ∧
    ∃ selections ∈ Selection.combinations (makes smaller bigger),
      selections.any Selection.ended = false ∧
      Succeeds smaller bigger (assignment (groups smaller bigger) selections) := by
  have start : (makes smaller bigger).map (fun size => Selection.first size.1 size.2) ∈
      Selection.combinations (makes smaller bigger) :=
    List.mem_of_mem_head? Selection.combinations_head
  rw [isMinor_eq, Bool.and_eq_true_iff, Bool.and_eq_true_iff, Bool.not_eq_true',
    Selection.none_ended_iff start]
  refine and_congr_right fun _ => ?_
  constructor
  · rintro ⟨enough, found⟩
    obtain ⟨selections, member, succeeds⟩ := (search_combinations enough).mp found
    exact ⟨selections, member, (Selection.none_ended_iff member).mpr enough, succeeds⟩
  · rintro ⟨selections, member, running, succeeds⟩
    have enough := (Selection.none_ended_iff member).mp running
    exact ⟨enough, (search_combinations enough).mpr ⟨selections, member, succeeds⟩⟩

theorem isMinor_iff (formedSmaller : smaller.WellFormed) (formed : bigger.WellFormed) :
    isMinor smaller bigger = true ↔ Nonempty (Model smaller.skeleton bigger.skeleton) := by
  rw [isMinor_iff_combination]
  constructor
  · rintro ⟨_, selections, member, running, succeeds⟩
    obtain ⟨valid, same⟩ := Selection.combination_iff.mp ⟨member, running⟩
    exact model_of_succeeds formedSmaller formed
      (assigned_of_selections formedSmaller formed valid same) succeeds
  · rintro ⟨model⟩
    have valid := selectionsOf_valid formedSmaller formed model
    obtain ⟨member, running⟩ := Selection.combination_iff.mpr ⟨valid, frame_selectionsOf⟩
    refine ⟨mayFit_of_model formedSmaller formed model, _, member, running, ?_⟩
    exact succeeds_of_model model formedSmaller formed
      (assigned_of_selections formedSmaller formed valid frame_selectionsOf)
      (selectionsOf_follows formedSmaller formed model)

/-- Advancing a new selection goes through all sequences of so many distinct indices, each of them
once and in lexicographic order, from the smallest indices on, and ends behind the last one, or at
once if there are too few indices. Whatever has been done to it, it is reset to the smallest
indices. So several new selections that are advanced as one go through all combinations, each of
them once, before they cannot be advanced any more, and the minor search tries those in which no
selection has ended. -/
theorem odometer_exact (bound count : Nat) (sizes : List (Nat × Nat)) (smaller bigger : Hypergraph) :
    (Selection.arrangements bound count).Pairwise (· < ·) ∧
    (∀ indices, indices ∈ Selection.arrangements bound count ↔
      indices.length = count ∧ indices.Nodup ∧ ∀ index ∈ indices, index < bound) ∧
    (Selection.arrangements bound count).head? =
      (if count ≤ bound then some (List.range count) else none) ∧
    (∀ steps, Selection.advance^[steps] (.first bound count) =
      match (Selection.arrangements bound count)[steps]? with
      | some indices => ⟨bound, indices, false⟩
      | none => ⟨bound, (Selection.arrangements bound count).getLastD (List.range count), true⟩) ∧
    (∀ calls, ((Selection.first bound count).afterCalls calls).reset = .first bound count) ∧
    (Selection.combinations sizes).Pairwise (List.Lex fun one other => one.indices < other.indices) ∧
    (∀ selections, selections ∈ Selection.combinations sizes ↔
      List.Forall₂ (fun selection size => selection ∈ Selection.stages size.1 size.2)
        selections sizes) ∧
    (∀ steps, (Option.bind · Selection.advanceAll)^[steps]
      (some (sizes.map fun size => .first size.1 size.2)) =
      (Selection.combinations sizes)[steps]?) ∧
    (isMinor smaller bigger = true ↔ mayFit smaller bigger = true ∧
      ∃ selections ∈ Selection.combinations (makes smaller bigger),
        selections.any Selection.ended = false ∧
        Succeeds smaller bigger (assignment (groups smaller bigger) selections)) := by
  refine ⟨Selection.arrangements_ascending, fun _ => Selection.mem_arrangements, ?_,
    Selection.advance_iterate bound count, ?_,
    Selection.combinations_ascending, fun _ => Selection.mem_combinations, ?_,
      isMinor_iff_combination⟩
  · split
    next enough => exact Selection.arrangements_head enough
    next short => rw [Selection.arrangements_eq_nil (Nat.lt_of_not_le short), List.head?_nil]
  · intro calls
    rw [Selection.reset_afterCalls, Selection.reset_first]
  · intro steps
    have way := @Selection.combinations_traversed sizes
    obtain ⟨others, all⟩ := List.head?_eq_some_iff.mp (@Selection.combinations_head sizes)
    rw [all] at way ⊢
    exact way.iterate steps

/-- Two of three indices: the last sequence is reached after five steps, and the sixth one ends the
selection. One more selection before it, of one index out of two, moves on at the sixth step. -/
theorem odometer_carries :
    Selection.advance^[5] (.first 3 2) = ⟨3, [2, 1], false⟩ ∧
    Selection.advance^[6] (.first 3 2) = ⟨3, [2, 1], true⟩ ∧
    ((Selection.first 3 2).afterCalls [.advance, .advance, .advance]).reset = .first 3 2 ∧
    (Option.bind · Selection.advanceAll)^[6] (some [.first 2 1, .first 3 2]) =
      some [⟨2, [1], false⟩, ⟨3, [0, 1], false⟩] ∧
    (Option.bind · Selection.advanceAll)^[12] (some [.first 2 1, .first 3 2]) = none := by
  obtain ⟨_, _, _, advanced, called, _, _, together, _⟩ := odometer_exact 3 2 [(2, 1), (3, 2)] {} {}
  exact ⟨(advanced 5).trans (by decide), (advanced 6).trans (by decide), called _,
    (together 6).trans (by decide), (together 12).trans (by decide)⟩

end Coverability.Minor
