import Coverability.Order.Minor
import Coverability.Proofs.Blocks
import Coverability.Proofs.WellFormed

/-! Contracting the edges that have not been selected. Whether this can be done in the right way is a
question about blocks alone: the search over all partitions of all edges decides whether there are
blocks that hold together, keep the targets apart and leave enough blocks to spare. One attempt either
settles this or goes on to a later combination, and no combination in between will do. -/

namespace Coverability.Minor

open Relation (EqvGen)
open Odometer

variable {bigger : Hypergraph} {forced : Table VertexId VertexId}
  {selected : List EdgeId} {spare : Nat}

/-- Two vertices of one edge that has not been selected. -/
def Shared (bigger : Hypergraph) (selected : List EdgeId) (first second : VertexId) : Prop :=
  ∃ id edge, bigger.edge? id = some edge ∧ id ∉ selected ∧ first ∈ edge.vertices ∧
    second ∈ edge.vertices

/-- Blocks of vertices, named by a root, that unselected edges join. Forced vertices are in one block
just if they have one target, and vertices to spare have blocks of their own. -/
structure Contraction (bigger : Hypergraph) (forced : Table VertexId VertexId)
    (selected : List EdgeId) (spare : Nat) where
  root : VertexId → VertexId
  joined : ∀ {first second}, root first = root second →
    EqvGen (fun one other => root one = root other ∧ Shared bigger selected one other) first second
  root_forced : ∀ {first second one other}, forced.get? first = some one →
    forced.get? second = some other →
    (root first = root second ↔ one = other)
  spares : List VertexId
  length_spares : spares.length = spare
  distinct : (spares.map root).Nodup
  inside : ∀ vertex ∈ spares, bigger.hasVertex vertex = true
  free : ∀ vertex ∈ spares, ∀ other target, forced.get? other = some target → root vertex ≠ root other

/-- What the search tests of one combination of partitions. -/
def Realised (bigger : Hypergraph) (forced : Table VertexId VertexId) (spare : Nat)
    (partitions : List (Partition VertexId)) : Prop :=
  ∃ blocks, Blocks.joinPartitions { targets := forced } 0 partitions = .ok blocks ∧
    blocks.realises bigger.vertexIds forced spare = true

private theorem upTo_of_before {first second third : List (Partition VertexId)}
    (before : Partition.Before first second) (notAfter : Partition.NotAfter second third) :
    Partition.NotAfter first third := by
  rcases notAfter with equal | less
  · exact .inr (equal ▸ before)
  · exact .inr (List.lt_trans before less)

private theorem attempt_cases {partitions : List (Partition VertexId)}
    (valid : Partition.AllValid partitions) :
    (attempt bigger forced spare partitions = .settled true ∧
      Realised bigger forced spare partitions) ∨
    (∃ index position, attempt bigger forced spare partitions = skip partitions index position ∧
      ∀ target, Partition.AllValid target → Partition.shape target = Partition.shape partitions →
        Partition.NotAfter partitions target → Realised bigger forced spare target →
        Partition.Beyond index position partitions target) ∨
    (attempt bigger forced spare partitions = .settled false ∧
      ∀ target, Partition.shape target = Partition.shape partitions →
      ¬Realised bigger forced spare target) := by
  -- If the combination will not do, none up to the place to skip to will.
  rw [attempt]
  split
  next index position clash =>
    obtain ⟨_, inside, stays⟩ := Blocks.joinPartitions_agree clash
    rw [Nat.sub_zero] at inside stays
    refine .inr (.inl ⟨index, position, rfl, ?_⟩)
    rintro target validTarget same notAfter ⟨blocks, joins, _⟩
    rcases Partition.agree_or_beyond notAfter
      (Partition.lengths_of_shape valid validTarget same.symm) inside with agree | beyond
    · rw [stays target same agree] at joins
      cases joins
    · exact beyond
  next blocks joins =>
    split
    next realises => exact .inl ⟨rfl, blocks, joins, realises⟩
    next fails =>
      have unfit : ¬Realised bigger forced spare partitions := by
        rintro ⟨others, again, realises⟩
        cases joins.symm.trans again
        exact fails realises
      split
      next last isLast =>
        refine .inr (.inl ⟨_, _, rfl, ?_⟩)
        intro target validTarget same notAfter realised
        have before : Partition.Before partitions target := by
          rcases notAfter with equal | before
          · exact absurd (Partition.eq_of_blocks valid validTarget same.symm equal ▸ realised) unfit
          · exact before
        refine Partition.beyond_of_before before
          (Partition.lengths_of_shape valid validTarget same.symm) ?_
        intro other atEnd
        have same : last = other := Option.some.inj (isLast.symm.trans atEnd)
        have member : other ∈ partitions := List.mem_of_getLast? atEnd
        rw [(valid other member).length, same]
        exact Nat.le_succ _
      next none =>
        refine .inr (.inr ⟨rfl, ?_⟩)
        intro target same realised
        rw [List.getLast?_eq_none_iff] at none
        subst none
        cases target with
        | nil => exact unfit realised
        | cons => simp [Partition.shape] at same

theorem attempt_true {partitions : List (Partition VertexId)} (valid : Partition.AllValid partitions)
    (tried : attempt bigger forced spare partitions = .settled true) :
    Realised bigger forced spare partitions := by
  rcases attempt_cases valid with ⟨_, realised⟩ | ⟨index, position, skips, _⟩ | ⟨fails, _⟩
  · exact realised
  · rw [skips, skip] at tried
    split at tried <;> cases tried
  · cases tried.symm.trans fails

theorem attempt_false {partitions target : List (Partition VertexId)}
    (valid : Partition.AllValid partitions)
    (tried : attempt bigger forced spare partitions = .settled false)
    (validTarget : Partition.AllValid target)
    (same : Partition.shape target = Partition.shape partitions)
    (notAfter : Partition.NotAfter partitions target) :
    ¬Realised bigger forced spare target := by
  intro realised
  rcases attempt_cases valid with ⟨succeeds, _⟩ | ⟨index, position, skips, beyond⟩ | ⟨_, unfit⟩
  · cases tried.symm.trans succeeds
  · rw [skips, skip] at tried
    split at tried
    · cases tried
    next stuck =>
      exact Partition.skipAhead_none stuck valid validTarget same
        (beyond target validTarget same notAfter realised)
  · exact unfit target same realised

/-- Going on leads to a later combination, and to none behind one that will do. -/
theorem attempt_goesOn {partitions next : List (Partition VertexId)}
    (valid : Partition.AllValid partitions)
    (tried : attempt bigger forced spare partitions = .goesOn next) :
    Partition.AllValid next ∧ Partition.shape next = Partition.shape partitions ∧
    Partition.Before partitions next ∧
      ∀ target, Partition.AllValid target → Partition.shape target = Partition.shape partitions →
        Partition.NotAfter partitions target → Realised bigger forced spare target →
        Partition.NotAfter next target := by
  rcases attempt_cases valid with ⟨succeeds, _⟩ | ⟨index, position, skips, beyond⟩ | ⟨fails, _⟩
  · cases tried.symm.trans succeeds
  · rw [skips, skip] at tried
    split at tried
    next following moved =>
      cases tried
      obtain ⟨validNext, sameNext, further, least⟩ := Partition.skipAhead_some moved valid
      refine ⟨validNext, sameNext, Partition.before_of_beyond further, ?_⟩
      intro target validTarget same notAfter realised
      exact least target validTarget same (beyond target validTarget same notAfter realised)
    · cases tried
  · cases tried.symm.trans fails

/-- The attempts from a combination on come to an end. -/
inductive Ends (bigger : Hypergraph) (forced : Table VertexId VertexId) (spare : Nat) :
    List (Partition VertexId) → Bool → Prop where
  | settled {partitions : List (Partition VertexId)} {found : Bool}
      (tried : attempt bigger forced spare partitions = .settled found) :
        Ends bigger forced spare partitions found
  | goesOn {partitions next : List (Partition VertexId)} {found : Bool}
      (tried : attempt bigger forced spare partitions = .goesOn next)
        (rest : Ends bigger forced spare next found) :
      Ends bigger forced spare partitions found

/-- The attempts miss no combination from the first one on: they only skip those that fail in the same
way as one that has been tried. -/
theorem Ends.found_iff {partitions : List (Partition VertexId)} {found : Bool}
    (ends : Ends bigger forced spare partitions found) (valid : Partition.AllValid partitions) :
    found = true ↔ ∃ target, Partition.AllValid target ∧
      Partition.shape target = Partition.shape partitions ∧
      Partition.NotAfter partitions target ∧ Realised bigger forced spare target := by
  induction ends with
  | @settled partitions found tried =>
    cases found with
    | true =>
      simp only [true_iff]
      exact ⟨partitions, valid, rfl, .inl rfl, attempt_true valid tried⟩
    | false =>
      simp only [Bool.false_eq_true, false_iff]
      rintro ⟨target, validTarget, same, notAfter, realised⟩
      exact attempt_false valid tried validTarget same notAfter realised
  | @goesOn partitions next found tried _ ih =>
    obtain ⟨validNext, sameNext, before, least⟩ := attempt_goesOn valid tried
    rw [ih validNext]
    constructor
    · rintro ⟨target, validTarget, same, notAfter, realised⟩
      exact ⟨target, validTarget, same.trans sameNext, upTo_of_before before notAfter, realised⟩
    · rintro ⟨target, validTarget, same, notAfter, realised⟩
      exact ⟨target, validTarget, same.trans sameNext.symm,
        least target validTarget same notAfter realised, realised⟩

/-- The combinations that are tried ascend, so there is an end to them. -/
theorem contract_ends {tries : Nat} {partitions : List (Partition VertexId)}
    (valid : Partition.AllValid partitions)
    (enough : size (Partition.dials partitions) ≤ total (Partition.dials partitions) + tries) :
    Ends bigger forced spare partitions (contract bigger forced spare tries partitions) := by
  induction tries generalizing partitions with
  | zero =>
    have := total_lt (Partition.dials_inRange valid)
    omega
  | succ tries ih =>
    rw [contract]
    split
    next found tried => exact .settled tried
    next next tried =>
      obtain ⟨validNext, sameNext, before, _⟩ := attempt_goesOn valid tried
      have frames := Partition.frame_of_shape validNext valid sameNext
      have sizes := size_eq_of_frame frames
      have grown := total_mono frames.symm (Partition.dials_inRange valid) before
      exact .goesOn tried (ih validNext (by omega))

private theorem realises_eq {blocks : Blocks} (grounded : blocks.Grounded)
    (vertices : List VertexId) :
    blocks.realises vertices forced spare =
      ((force ∅ (forced.entries.map fun entry => (entry.2, blocks.root entry.1))).isSome &&
      spare ≤ (((vertices.map blocks.root).filter fun root =>
        !blocks.targets.contains root).eraseDups).length) := by
  obtain ⟨reached, first⟩ := Blocks.findAll_shortened grounded forced.keys
  obtain ⟨roots, second⟩ := Blocks.findAll_shortened first.grounded vertices
  have pairs : forced.values.zip (forced.keys.map blocks.root) = forced.entries.map fun entry =>
      (entry.2, blocks.root entry.1) := by
    rw [Table.values, Table.keys, List.map_map, List.zip_map']
    rfl
  rw [Blocks.realises]
  dsimp only
  rw [reached, roots, second.targets, first.targets, pairs,
    List.map_congr_left fun vertex _ => first.root vertex]

private theorem realises_iff {blocks : Blocks} (grounded : blocks.Grounded)
    {vertices : List VertexId} :
    blocks.realises vertices forced spare = true ↔
    (∀ first second target, forced.get? first = some target → forced.get? second = some target →
      blocks.root first = blocks.root second) ∧
    spare ≤ (((vertices.map blocks.root).filter fun root =>
      !blocks.targets.contains root).eraseDups).length := by
  rw [realises_eq grounded, Bool.and_eq_true, decide_eq_true_iff]
  refine and_congr_left fun _ => ?_
  have reached : ∀ {target root},
      (target, root) ∈ forced.entries.map (fun entry => (entry.2, blocks.root entry.1)) ↔
      ∃ vertex, forced.get? vertex = some target ∧ blocks.root vertex = root := by
    intro target root
    simp only [List.mem_map, Prod.mk.injEq, Prod.exists, Table.mem_entries_iff]
    constructor
    · rintro ⟨vertex, _, stored, rfl, same⟩
      exact ⟨vertex, stored, same⟩
    · rintro ⟨vertex, stored, same⟩
      exact ⟨vertex, target, stored, rfl, same⟩
  constructor
  · intro found first second target atFirst atSecond
    obtain ⟨result, found⟩ := Option.isSome_iff_exists.mp found
    exact force_agree found (reached.mpr ⟨first, atFirst, rfl⟩) (reached.mpr ⟨second, atSecond, rfl⟩)
  · intro agree
    refine Option.isSome_iff_exists.mpr (force_isSome fun target first second atFirst atSecond => ?_)
    rcases atFirst with impossible | atFirst
    · cases impossible
    rcases atSecond with impossible | atSecond
    · cases impossible
    obtain ⟨one, storedOne, rfl⟩ := reached.mp atFirst
    obtain ⟨other, storedOther, rfl⟩ := reached.mp atSecond
    exact agree one other target storedOne storedOther

private theorem mem_unselected (formed : bigger.WellFormed) {ids : List VertexId} :
    ids ∈ unselected bigger selected ↔
    ∃ id edge, bigger.edge? id = some edge ∧ id ∉ selected ∧ edge.distinctVertices = ids := by
  simp only [unselected, List.mem_filter, List.mem_map, decide_eq_true_eq]
  constructor
  · rintro ⟨edge, ⟨member, free⟩, rfl⟩
    exact ⟨edge.id, edge, formed.mem_edgeList.mp member, free, rfl⟩
  · rintro ⟨id, edge, found, free, rfl⟩
    have same := formed.edge_id found
    exact ⟨edge, ⟨formed.mem_edgeList.mpr (same ▸ found), same ▸ free⟩, rfl⟩

/-- Vertices of unselected edges, at least of those edges that join different vertices. -/
structure Offers (bigger : Hypergraph) (selected : List EdgeId)
    (lists : List (List VertexId)) : Prop where
  unselected : ∀ ids ∈ lists, ∃ id edge, bigger.edge? id = some edge ∧ id ∉ selected ∧
    edge.distinctVertices = ids
  complete : ∀ {id edge}, bigger.edge? id = some edge → id ∉ selected →
    2 ≤ edge.distinctVertices.length →
    edge.distinctVertices ∈ lists

theorem offers_unselected (formed : bigger.WellFormed) :
    Offers bigger selected (unselected bigger selected) where
  unselected _ member := (mem_unselected formed).mp member
  complete found free _ := (mem_unselected formed).mpr ⟨_, _, found, free, rfl⟩

private theorem shape_start :
    Partition.shape (start bigger selected) = (unselected bigger selected).filter fun ids =>
      2 ≤ ids.length := by
  rw [start, Partition.shape, List.map_map]
  exact List.map_id _

private theorem offers_start (formed : bigger.WellFormed) :
    Offers bigger selected (Partition.shape (start bigger selected)) := by
  rw [shape_start]
  refine ⟨fun ids member =>
    (offers_unselected formed).unselected ids (List.mem_of_mem_filter member), ?_⟩
  intro id edge found free long
  exact List.mem_filter.mpr ⟨(offers_unselected formed).complete found free long, decide_eq_true long⟩

private theorem mem_distinctVertices {edge : Edge} {vertex : VertexId} :
    vertex ∈ edge.distinctVertices ↔ vertex ∈ edge.vertices :=
  List.mem_eraseDups

private theorem shared_of_pairs {partitions : List (Partition VertexId)}
    (offers : Offers bigger selected (Partition.shape partitions)) {first second : VertexId}
    (pair : Blocks.Pairs partitions first second) : Shared bigger selected first second := by
  obtain ⟨partition, member, position, joined⟩ := pair
  obtain ⟨id, edge, found, free, vertices⟩ := offers.unselected _ (List.mem_map_of_mem member)
  obtain ⟨left, right⟩ := Partition.joins_inside joined
  rw [← vertices, mem_distinctVertices] at left right
  exact ⟨id, edge, found, free, left, right⟩

theorem hasVertex_of_joined (formed : bigger.WellFormed) {first second : VertexId}
    (joined : EqvGen (Shared bigger selected) first second) :
    bigger.hasVertex first = bigger.hasVertex second := by
  refine eqvGen_value (fun one other ⟨id, edge, found, _, left, right⟩ => ?_) joined
  rw [formed.has_ends found left, formed.has_ends found right]

private theorem contraction_of_realised (formed : bigger.WellFormed)
    {partitions : List (Partition VertexId)}
    (offers : Offers bigger selected (Partition.shape partitions))
    (realised : Realised bigger forced spare partitions) :
    Nonempty (Contraction bigger forced selected spare) := by
  obtain ⟨blocks, joins, realises⟩ := realised
  have tracks : Blocks.Tracks blocks forced (Blocks.Pairs partitions) :=
    (Blocks.joinPartitions_ok Blocks.tracks_start joins).congr fun _ _ => by rw [false_or]
  obtain ⟨reached, enough⟩ := (realises_iff tracks.grounded).mp realises
  let free :=
    ((bigger.vertexIds.map blocks.root).filter fun root => !blocks.targets.contains root).eraseDups
  have spared : ∀ {root}, root ∈ free.take spare → blocks.root root = root ∧
      bigger.hasVertex root = true ∧
      blocks.targets.contains root = false := by
    intro root member
    obtain ⟨inside, unreached⟩ :=
      List.mem_filter.mp (List.mem_eraseDups.mp (List.mem_of_mem_take member))
    obtain ⟨vertex, present, rfl⟩ := List.mem_map.mp inside
    have path := (tracks.root_eq_iff _ _).mp (tracks.rooted vertex)
    refine ⟨tracks.rooted vertex, ?_, by simpa using unreached⟩
    rw [hasVertex_of_joined formed (EqvGen.mono (fun _ _ => shared_of_pairs offers) _ _ path)]
    exact Hypergraph.mem_vertexIds.mp present
  refine ⟨⟨blocks.root, fun equal => ?_, fun atFirst atSecond => ⟨fun equal => ?_, ?_⟩,
    free.take spare, ?_, ?_,
    fun root member => (spared member).2.1, fun root member other target stored equal => ?_⟩⟩
  · refine EqvGen.mono (fun one other pair => ⟨?_, shared_of_pairs offers pair⟩)
      _ _ ((tracks.root_eq_iff _ _).mp equal)
    exact (tracks.root_eq_iff one other).mpr (.rel _ _ pair)
  · exact tracks.same_target atFirst atSecond ((tracks.root_eq_iff _ _).mp equal)
  · rintro rfl
    exact reached _ _ _ atFirst atSecond
  · rw [List.length_take, Nat.min_eq_left enough]
  · have distinct : (free.take spare).Nodup :=
      (Listing.nodup_eraseDups _).sublist (List.take_sublist _ _)
    have rooted : (free.take spare).map blocks.root = (free.take spare).map id :=
      List.map_congr_left fun root member => (spared member).1
    rwa [rooted, List.map_id]
  · obtain ⟨rooted, _, unreached⟩ := spared member
    have known := tracks.forced_target other target stored
    rw [← equal, rooted] at known
    rw [Table.contains, known] at unreached
    cases unreached

section Realisation

variable {lists : List (List VertexId)} (contraction : Contraction bigger forced selected spare)

private theorem connected_iff_root (offers : Offers bigger selected lists) {first second : VertexId} :
    EqvGen (Blocks.Pairs (lists.map (Partition.ofClasses contraction.root))) first second ↔
      contraction.root first = contraction.root second := by
  constructor
  · apply eqvGen_value
    rintro one other ⟨partition, member, position, pair⟩
    obtain ⟨ids, _, rfl⟩ := List.mem_map.mp member
    exact Partition.joins_ofClasses pair
  · intro same
    have steps := contraction.joined same
    clear same
    induction steps with
    | rel one other related =>
      obtain ⟨same, id, edge, found, unselected, left, right⟩ := related
      rw [← mem_distinctVertices] at left right
      by_cases equal : one = other
      · exact equal ▸ .refl _
      · have long : 2 ≤ edge.distinctVertices.length := by
          refine @Listing.length_le_of_subset _ [one, other] _ (by simpa using equal)
            fun vertex member => ?_
          rcases List.mem_pair.mp member with rfl | rfl <;> assumption
        have listed := offers.complete found unselected long
        exact EqvGen.mono (fun _ _ ⟨position, pair⟩ =>
          ⟨_, List.mem_map_of_mem listed, position, pair⟩) _ _
          (Partition.connected_ofClasses left right same)
    | refl one => exact .refl _
    | symm one other _ ih => exact ih.symm
    | trans one between other _ _ ihOne ihOther => exact ihOne.trans _ _ _ ihOther

private theorem joinPartitions_of_contraction (offers : Offers bigger selected lists) : ∃ blocks,
    Blocks.joinPartitions { targets := forced } 0
      (lists.map (Partition.ofClasses contraction.root)) = .ok blocks ∧
      Blocks.Tracks blocks forced
        (Blocks.Pairs (lists.map (Partition.ofClasses contraction.root))) := by
  cases joins : Blocks.joinPartitions { targets := forced } 0
    (lists.map (Partition.ofClasses contraction.root)) with
  | error place =>
    obtain ⟨first, second, one, other, atFirst, atSecond, different, path⟩ :=
      Blocks.joinPartitions_error Blocks.tracks_start joins
    have connected := EqvGen.mono (fun _ _ related => related.resolve_left id) _ _ path
    exact absurd ((contraction.root_forced atFirst atSecond).mp
      ((connected_iff_root contraction offers).mp connected)) different
  | ok blocks =>
    exact ⟨blocks, rfl, (Blocks.joinPartitions_ok Blocks.tracks_start joins).congr fun _ _ =>
      by rw [false_or]⟩

private theorem spares_fit {blocks : Blocks} {pair : VertexId → VertexId → Prop}
    (tracks : Blocks.Tracks blocks forced pair)
    (same_root : ∀ {first second}, blocks.root first = blocks.root second →
      contraction.root first = contraction.root second) :
    spare ≤ (((bigger.vertexIds.map blocks.root).filter fun root =>
      !blocks.targets.contains root).eraseDups).length := by
  have apart : (contraction.spares.map blocks.root).Nodup := by
    refine (List.nodup_map_iff_inj_on
      (List.Nodup.of_map contraction.root contraction.distinct)).mpr ?_
    intro one atOne other atOther same
    exact List.inj_on_of_nodup_map contraction.distinct atOne atOther (same_root same)
  rw [← contraction.length_spares, ← @List.length_map _ _ contraction.spares blocks.root]
  refine Listing.length_le_of_subset apart ?_
  intro item member
  obtain ⟨vertex, spared, rfl⟩ := List.mem_map.mp member
  have present : blocks.root vertex ∈ bigger.vertexIds.map blocks.root :=
    List.mem_map_of_mem (Hypergraph.mem_vertexIds.mpr (contraction.inside vertex spared))
  refine List.mem_eraseDups.mpr (List.mem_filter.mpr ⟨present, ?_⟩)
  cases stored : blocks.targets.get? (blocks.root vertex) with
  | none => simp [Table.contains, stored]
  | some target =>
    obtain ⟨other, same, known⟩ := tracks.target_forced _ _ stored
    exact absurd (same_root same).symm (contraction.free vertex spared other target known)

private theorem realised_of_contraction (offers : Offers bigger selected lists) :
    Realised bigger forced spare (lists.map (Partition.ofClasses contraction.root)) := by
  obtain ⟨blocks, joins, tracks⟩ := joinPartitions_of_contraction contraction offers
  have roots : ∀ {first second}, blocks.root first = blocks.root second ↔
      contraction.root first = contraction.root second :=
    (tracks.root_eq_iff _ _).trans (connected_iff_root contraction offers)
  refine ⟨blocks, joins,
    (realises_iff tracks.grounded).mpr ⟨?_, spares_fit contraction tracks roots.mp⟩⟩
  intro first second target atFirst atSecond
  exact roots.mpr ((contraction.root_forced atFirst atSecond).mpr rfl)

end Realisation

/-- Some combination of partitions will do just if the edges can be contracted in the right way. -/
theorem exists_realised_iff (formed : bigger.WellFormed) {lists : List (List VertexId)}
    (offers : Offers bigger selected lists) :
    (∃ partitions, Partition.AllValid partitions ∧ Partition.shape partitions = lists ∧
      Realised bigger forced spare partitions) ↔
      Nonempty (Contraction bigger forced selected spare) := by
  constructor
  · rintro ⟨partitions, _, rfl, realised⟩
    exact contraction_of_realised formed offers realised
  · rintro ⟨contraction⟩
    refine ⟨_, ?_, ?_, realised_of_contraction contraction offers⟩
    · intro partition member
      obtain ⟨ids, _, rfl⟩ := List.mem_map.mp member
      exact Partition.valid_ofClasses
    · rw [Partition.shape, List.map_map]
      exact List.map_id _

/-- A table leaves at least as many vertices free as there are beyond its size. -/
theorem exists_spared {α : Type} {table : Table VertexId α}
    (few : spare ≤ bigger.vertexCount - table.size) :
    ∃ spares : List VertexId, spares.length = spare ∧ spares.Nodup ∧
      ∀ vertex ∈ spares, bigger.hasVertex vertex = true ∧ table.get? vertex = none := by
  have split := List.length_eq_length_filter_add (l := bigger.vertexIds) table.contains
  have taken : (bigger.vertexIds.filter table.contains).length ≤ table.keys.length :=
    Listing.length_le_of_subset (Hypergraph.nodup_vertexIds.filter _) fun vertex member =>
      Table.mem_keys_iff_contains.mpr (List.mem_filter.mp member).2
  rw [Hypergraph.length_vertexIds] at split
  rw [Table.length_keys] at taken
  refine ⟨(bigger.vertexIds.filter fun vertex => !table.contains vertex).take spare, ?_,
    (Hypergraph.nodup_vertexIds.filter _).sublist (List.take_sublist _ _), fun vertex member => ?_⟩
  · rw [List.length_take]
    omega
  · obtain ⟨inside, free⟩ := List.mem_filter.mp (List.mem_of_mem_take member)
    exact ⟨Hypergraph.mem_vertexIds.mp inside, by simpa [Table.contains] using free⟩

/-- A table of vertices that are there leaves no more of them free. -/
theorem spared_le {α : Type} {table : Table VertexId α} {spares : List VertexId}
    (keys : ∀ vertex value, table.get? vertex = some value → bigger.hasVertex vertex = true)
    (distinct : spares.Nodup) (inside : ∀ vertex ∈ spares, bigger.hasVertex vertex = true)
    (free : ∀ vertex ∈ spares, table.get? vertex = none) :
    spares.length ≤ bigger.vertexCount - table.size := by
  have apart : (table.keys ++ spares).Nodup := by
    refine List.nodup_append.mpr ⟨Table.nodup_keys, distinct, fun vertex held other spared same => ?_⟩
    obtain ⟨value, stored⟩ := Table.mem_keys_iff.mp held
    rw [same, free other spared] at stored
    cases stored
  have listed : table.keys ++ spares ⊆ bigger.vertexIds := by
    intro vertex member
    apply Hypergraph.mem_vertexIds.mpr
    rcases List.mem_append.mp member with held | spared
    · obtain ⟨value, stored⟩ := Table.mem_keys_iff.mp held
      exact keys vertex value stored
    · exact inside vertex spared
  have fits := Listing.length_le_of_subset apart listed
  rw [List.length_append, Hypergraph.length_vertexIds, Table.length_keys] at fits
  omega

private theorem contraction_trivial
    (keys : ∀ vertex target, forced.get? vertex = some target → bigger.hasVertex vertex = true)
    (injective : forced.values.Nodup) :
    Nonempty (Contraction bigger forced selected spare) ↔
    spare ≤ bigger.vertexCount - forced.size := by
  have once : ∀ {first second target}, forced.get? first = some target →
      forced.get? second = some target → first = second := by
    intro first second target atFirst atSecond
    have same :=
      List.inj_on_of_nodup_map injective (Table.mem_entries_iff.mpr atFirst)
        (Table.mem_entries_iff.mpr atSecond) rfl
    exact congrArg Prod.fst same
  constructor
  · rintro ⟨root, joined, root_forced, spares, rfl, distinct, inside, free⟩
    refine spared_le keys (List.Nodup.of_map root distinct) inside fun vertex member => ?_
    refine Option.eq_none_iff_forall_ne_some.mpr fun target stored => ?_
    exact free vertex member vertex target stored rfl
  · intro few
    obtain ⟨spares, length, distinct, spared⟩ := exists_spared few
    refine ⟨⟨id, fun same => ?_, fun {first second one other} atFirst atSecond => ⟨?_, ?_⟩, spares,
      length, ?_, fun vertex member => (spared vertex member).1,
      fun vertex member other target stored same => ?_⟩⟩
    · rw [id, id] at same
      exact same ▸ .refl _
    · rintro rfl
      exact Option.some.inj (atFirst.symm.trans atSecond)
    · rintro rfl
      exact once atFirst atSecond
    · rwa [List.map_id]
    · rw [← show vertex = other from same, (spared vertex member).2] at stored
      cases stored

theorem start_valid : Partition.AllValid (start bigger selected) := by
  intro partition member
  obtain ⟨ids, _, rfl⟩ := List.mem_map.mp member
  exact Partition.valid_first

private theorem nodup_values_iff_length : forced.values.eraseDups.length = forced.size ↔
    forced.values.Nodup := by
  rw [← Table.length_values, Listing.length_eraseDups_eq_iff]

/-- Unless every target is reached once, the answer is the one that the attempts end with. -/
theorem contractRest_ends (shared : ¬forced.values.Nodup) :
    Ends bigger forced spare (start bigger selected) (contractRest bigger forced selected spare) := by
  rw [contractRest, if_neg (mt nodup_values_iff_length.mp shared)]
  exact contract_ends start_valid (by rw [Partition.countBound_eq start_valid]; omega)

theorem contractRest_iff (formed : bigger.WellFormed)
    (keys : ∀ vertex target, forced.get? vertex = some target → bigger.hasVertex vertex = true) :
    contractRest bigger forced selected spare = true ↔
    Nonempty (Contraction bigger forced selected spare) := by
  by_cases injective : forced.values.Nodup
  · rw [contractRest, if_pos (nodup_values_iff_length.mpr injective), decide_eq_true_iff,
      contraction_trivial keys injective]
  · rw [(contractRest_ends injective).found_iff start_valid,
      ← exists_realised_iff formed (offers_start formed)]
    constructor
    · rintro ⟨target, valid, same, _, realised⟩
      exact ⟨target, valid, same, realised⟩
    · rintro ⟨target, valid, same, realised⟩
      exact ⟨target, valid, same, Partition.first_notAfter valid (same.trans shape_start), realised⟩

end Coverability.Minor
