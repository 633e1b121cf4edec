import Coverability.Order.PathMinor
import Coverability.Proofs.Comparison
import Mathlib.Combinatorics.SimpleGraph.Connectivity.Connected

/-! The search for paths. Paths that join the vertices of each owner and stay apart from one another
amount to blocks that the remaining edges hold together, and blocks hold such paths. So the paths
can be chosen just if the remaining edges can be contracted in the right way, and the search
succeeds just if there is a model. -/

namespace Coverability

namespace PathMinor

open Relation (EqvGen)
open Minor (Shared Contraction Assigned)
open Skeleton (Model)

namespace Claims

variable {claims : Claims} {owner goal first vertex next : VertexId} {spare : Nat}

private theorem mem_neighbours (formed : claims.bigger.WellFormed) :
    next ∈ claims.neighbours owner vertex ↔
    next ≠ vertex ∧ Shared claims.bigger claims.selected vertex next ∧
    claims.owners.getD next owner = owner := by
  simp only [neighbours, List.mem_eraseDups, List.mem_filter, List.mem_flatMap, List.mem_filterMap,
    Bool.and_eq_true, beq_iff_eq, decide_eq_true_eq]
  constructor
  · intro known
    obtain ⟨⟨edge, ⟨id, ⟨member, free⟩, stored⟩, there⟩, different, owned⟩ := known
    obtain ⟨found, stored', here⟩ := formed.mem_incident.mp member
    cases stored.symm.trans stored'
    exact ⟨different, ⟨id, edge, stored, free, here, there⟩, owned⟩
  · intro known
    obtain ⟨different, ⟨id, edge, stored, free, here, there⟩, owned⟩ := known
    exact ⟨⟨edge, ⟨id, ⟨formed.mem_incident.mpr ⟨edge, stored, here⟩, free⟩, stored⟩, there⟩,
      different, owned⟩

/-- Vertices of one walk over edges that are not selected, the last one first. -/
private def Trail (claims : Claims) (path : List VertexId) : Prop :=
  path.IsChain fun next earlier => Shared claims.bigger claims.selected earlier next

private theorem paths_sound (formed : claims.bigger.WellFormed) {steps : Nat}
    {start path : List VertexId} (trail : claims.Trail start)
    (member : path ∈ claims.paths owner goal steps start) :
    claims.Trail path ∧ start <:+ path ∧ goal ∈ path := by
  induction steps generalizing start with
  | zero =>
    cases start with
    | nil => cases member
    | cons vertex earlier =>
      rw [paths] at member
      split at member
      next arrived =>
        obtain rfl := List.mem_singleton.mp member
        exact ⟨trail, List.suffix_refl _, arrived ▸ List.mem_cons_self⟩
      · cases member
  | succ steps ih =>
    cases start with
    | nil => cases member
    | cons vertex earlier =>
      rw [paths] at member
      split at member
      next arrived =>
        obtain rfl := List.mem_singleton.mp member
        exact ⟨trail, List.suffix_refl _, arrived ▸ List.mem_cons_self⟩
      · obtain ⟨next, onwards, further⟩ := List.mem_flatMap.mp member
        have shared := ((mem_neighbours formed).mp (List.mem_filter.mp onwards).1).2.1
        obtain ⟨longer, ends, reached⟩ := ih (List.isChain_cons_cons.mpr ⟨shared, trail⟩) further
        exact ⟨longer, (List.suffix_cons next _).trans ends, reached⟩

private theorem joined_of_trail {inside : VertexId → Prop} {path : List VertexId}
    (trail : claims.Trail path) (start : [first] <:+ path) (within : ∀ vertex ∈ path, inside vertex)
    (member : vertex ∈ path) :
    EqvGen (fun one other => (inside one ∧ inside other) ∧
      Shared claims.bigger claims.selected one other) first vertex := by
  induction path generalizing vertex with
  | nil => cases member
  | cons last earlier ih =>
    cases earlier with
    | nil =>
      obtain rfl := List.mem_singleton.mp member
      rcases List.suffix_cons_iff.mp start with same | longer
      · cases same
        exact .refl _
      · cases List.suffix_nil.mp longer
    | cons before rest =>
      obtain ⟨shared, trailBefore⟩ := List.isChain_cons_cons.mp trail
      have startBefore : [first] <:+ before :: rest := by
        rcases List.suffix_cons_iff.mp start with same | longer
        · cases same
        · exact longer
      have withinBefore : ∀ vertex ∈ before :: rest, inside vertex :=
        fun vertex member => within vertex (List.mem_cons_of_mem _ member)
      have joined : ∀ {vertex}, vertex ∈ before :: rest →
          EqvGen (fun one other => (inside one ∧ inside other) ∧
          Shared claims.bigger claims.selected one other) first vertex :=
            ih trailBefore startBefore withinBefore
      rcases List.mem_cons.mp member with rfl | member
      · refine (joined List.mem_cons_self).trans _ _ _ (.rel _ _ ⟨⟨?_, ?_⟩, shared⟩)
        · exact withinBefore before List.mem_cons_self
        · exact within _ List.mem_cons_self
      · exact joined member

private theorem paths_complete {graph : SimpleGraph VertexId}
    (beside : ∀ {one other}, graph.Adj one other → other ∈ claims.neighbours owner one)
    (walk : graph.Walk vertex goal) (simple : walk.IsPath) {steps : Nat} {earlier : List VertexId}
    (short : walk.length ≤ steps) (apart : ∀ member ∈ walk.support, member ∉ earlier) :
    walk.support.reverse ++ earlier ∈ claims.paths owner goal steps (vertex :: earlier) := by
  induction walk generalizing steps earlier with
  | nil =>
    cases steps <;> rw [paths, if_pos rfl] <;> exact List.mem_singleton.mpr rfl
  | @cons vertex next goal along onwards ih =>
    obtain ⟨simpleOn, fresh⟩ := (SimpleGraph.Walk.cons_isPath_iff along onwards).mp simple
    rw [SimpleGraph.Walk.length_cons] at short
    rw [SimpleGraph.Walk.support_cons, List.forall_mem_cons] at apart
    have elsewhere : vertex ≠ goal := fun same => fresh (same ▸ onwards.end_mem_support)
    cases steps with
    | zero => omega
    | succ steps =>
      rw [paths, if_neg elsewhere, SimpleGraph.Walk.support_cons, List.reverse_cons,
        List.append_assoc, List.singleton_append]
      refine List.mem_flatMap.mpr ⟨next, List.mem_filter.mpr ⟨beside along, ?_⟩,
        ih simpleOn (by omega) fun member inside => ?_⟩
      · exact decide_eq_true (apart.2 next onwards.start_mem_support)
      · intro known
        rcases List.mem_cons.mp known with rfl | old
        · exact fresh inside
        · exact apart.2 member inside old

private theorem exists_path (formed : claims.bigger.WellFormed) {inside : VertexId → Prop}
    (present : ∀ {vertex}, inside vertex → claims.bigger.hasVertex vertex = true)
    (usable : ∀ {vertex}, inside vertex → claims.owners.getD vertex owner = owner)
    (start : inside first)
    (joined : EqvGen
      (fun one other => (inside one ∧ inside other) ∧
        Shared claims.bigger claims.selected one other) first goal) :
    ∃ path ∈ claims.paths owner goal claims.bigger.vertexCount [first],
      ∀ vertex ∈ path, inside vertex := by
  let graph : SimpleGraph VertexId :=
    .fromRel fun one other => (inside one ∧ inside other) ∧
      Shared claims.bigger claims.selected one other
  have step : ∀ {one other}, graph.Adj one other → inside one ∧ inside other ∧
      other ∈ claims.neighbours owner one := by
    intro one other along
    obtain ⟨different, ⟨⟨left, right⟩, shared⟩ |
        ⟨⟨right, left⟩, id, edge, stored, free, there, here⟩⟩ :=
      (SimpleGraph.fromRel_adj _ _ _).mp along
    · exact ⟨left, right, (mem_neighbours formed).mpr ⟨different.symm, shared, usable right⟩⟩
    · exact ⟨left, right,
        (mem_neighbours formed).mpr ⟨different.symm,
          ⟨id, edge, stored, free, here, there⟩, usable right⟩⟩
  have reachable : graph.Reachable first goal := by
    clear start
    induction joined with
    | rel one other shared =>
      by_cases same : one = other
      · exact same ▸ .refl one
      · exact ((SimpleGraph.fromRel_adj _ _ _).mpr ⟨same, .inl shared⟩ :
          graph.Adj one other).reachable
    | refl one => exact .refl one
    | symm one other _ ih => exact ih.symm
    | trans one between other _ _ ihFirst ihSecond => exact ihFirst.trans ihSecond
  have along : ∀ {one other} (walk : graph.Walk one other), inside one →
      ∀ vertex ∈ walk.support, inside vertex := by
    intro one other walk
    induction walk with
    | nil =>
      intro start vertex member
      exact List.mem_singleton.mp member ▸ start
    | cons next onwards ih =>
      intro start vertex member
      rcases List.mem_cons.mp member with rfl | member
      · exact start
      · exact ih (step next).2.1 vertex member
  obtain ⟨walk⟩ := reachable
  have within := along walk.toPath.val start
  have short : walk.toPath.val.support.length ≤ claims.bigger.vertexIds.length :=
    Listing.length_le_of_subset walk.toPath.property.support_nodup fun vertex member =>
      Hypergraph.mem_vertexIds.mpr (present (within vertex member))
  rw [SimpleGraph.Walk.length_support, Hypergraph.length_vertexIds] at short
  have listed : walk.toPath.val.support.reverse ++ [] ∈
      claims.paths owner goal claims.bigger.vertexCount [first] :=
    paths_complete (fun adjacent => (step adjacent).2.2) walk.toPath.val walk.toPath.property
      (Nat.le_of_succ_le short)
      fun _ _ => List.not_mem_nil
  rw [List.append_nil] at listed
  exact ⟨_, listed, fun vertex member => within vertex (List.mem_reverse.mp member)⟩

/-- The vertices of an owner, ascending. -/
private def owned (claims : Claims) (owner : VertexId) : List VertexId :=
  (claims.owners.entries.filter fun entry => entry.2 = owner).map Prod.fst

private theorem mem_owned : vertex ∈ claims.owned owner ↔ claims.owners.get? vertex = some owner := by
  rw [owned, List.mem_map, ← Table.mem_entries_iff]
  constructor
  · intro known
    obtain ⟨entry, member, rfl⟩ := known
    obtain ⟨stored, same⟩ := List.mem_filter.mp member
    exact of_decide_eq_true same ▸ stored
  · intro stored
    exact ⟨(vertex, owner), List.mem_filter.mpr ⟨stored, decide_eq_true rfl⟩, rfl⟩

private theorem mem_grouped {vertices : List VertexId} :
    (owner, vertices) ∈
      (Table.group (claims.owners.entries.map fun entry => (entry.2, entry.1))).entries ↔
      vertices = claims.owned owner ∧ vertices ≠ [] := by
  have lists :
      ((claims.owners.entries.map fun entry => (entry.2, entry.1)).filter fun entry =>
        entry.1 = owner).map Prod.snd =
      claims.owned owner := by
    rw [List.filter_map, List.map_map]
    rfl
  have keys : owner ∈ (claims.owners.entries.map fun entry => (entry.2, entry.1)).map Prod.fst ↔
      claims.owned owner ≠ [] := by
    rw [List.map_map, List.mem_map]
    constructor
    · rintro ⟨entry, member, rfl⟩
      exact List.ne_nil_of_mem (mem_owned.mpr (Table.mem_entries_iff.mp member))
    · intro known
      obtain ⟨vertex, member⟩ := List.exists_mem_of_ne_nil _ known
      exact ⟨(vertex, owner), Table.mem_entries_iff.mpr (mem_owned.mp member), rfl⟩
  rw [Table.mem_entries_iff, Table.get?_group, lists]
  split
  next listed =>
    rw [Option.some.injEq, eq_comm, and_iff_left_of_imp]
    intro same
    exact same ▸ keys.mp listed
  next unlisted =>
    constructor
    · nofun
    · intro known
      exact absurd (keys.mpr (known.1 ▸ known.2)) unlisted

private theorem mem_connections {connection : VertexId × List (List VertexId)} :
    connection ∈ claims.connections ↔
    ∃ owner first others other, claims.owned owner = first :: others ∧ other ∈ others ∧
      connection = (owner, claims.paths owner other claims.bigger.vertexCount [first]) := by
  rw [connections, List.mem_flatMap]
  constructor
  · intro known
    obtain ⟨⟨owner, vertices⟩, member, inside⟩ := known
    obtain ⟨rfl, _⟩ := mem_grouped.mp member
    dsimp only at inside
    split at inside
    · cases inside
    next first others same =>
      obtain ⟨other, known, rfl⟩ := List.mem_map.mp inside
      exact ⟨owner, first, others, other, same, known, rfl⟩
  · intro known
    obtain ⟨owner, first, others, other, same, member, rfl⟩ := known
    refine ⟨(owner, first :: others), mem_grouped.mpr ⟨same.symm, List.cons_ne_nil _ _⟩, ?_⟩
    exact List.mem_map.mpr ⟨other, member, rfl⟩

/-- What a choice of one path for each connection claims. -/
private structure Settles (claims : Claims) (connections : List (VertexId × List (List VertexId)))
    (claimed final : Table VertexId VertexId) :
    Prop where
  kept : ∀ {vertex owner}, claimed.get? vertex = some owner → final.get? vertex = some owner
  taken : ∀ connection ∈ connections, ∃ path ∈ connection.2,
    ∀ vertex ∈ path, final.get? vertex = some connection.1
  origin : ∀ {vertex owner}, final.get? vertex = some owner → claimed.get? vertex = some owner ∨
    ∃ connection ∈ connections, ∃ path ∈ connection.2, connection.1 = owner ∧ vertex ∈ path ∧
      ∀ other ∈ path, final.get? other = some owner

private theorem force_path {claimed after : Table VertexId VertexId} {path : List VertexId}
    (forced : force claimed (path.map fun vertex => (vertex, owner)) = some after)
    {member target : VertexId} :
    after.get? member = some target ↔ claimed.get? member = some target ∨ member ∈ path ∧
    target = owner := by
  rw [force_some forced, List.mem_map]
  refine or_congr_right ⟨fun known => ?_, fun known => ?_⟩
  · obtain ⟨vertex, inside, same⟩ := known
    cases same
    exact ⟨inside, rfl⟩
  · exact ⟨member, known.1, by rw [known.2]⟩

private theorem choose_sound {connections : List (VertexId × List (List VertexId))}
    {claimed : Table VertexId VertexId} (chosen : claims.choose spare connections claimed = true) :
    ∃ final, claims.Settles connections claimed final ∧
      spare ≤ claims.bigger.vertexCount - final.size := by
  induction connections generalizing claimed with
  | nil => exact ⟨claimed, ⟨id, nofun, .inl⟩, of_decide_eq_true chosen⟩
  | cons connection rest ih =>
    obtain ⟨owner, paths⟩ := connection
    rw [choose] at chosen
    obtain ⟨path, member, tried⟩ := List.any_eq_true.mp chosen
    split at tried
    next after forced =>
      obtain ⟨final, settles, room⟩ := ih tried
      have through : ∀ vertex ∈ path, final.get? vertex = some owner := fun vertex inside =>
        settles.kept ((force_path forced).mpr (.inr ⟨inside, rfl⟩))
      refine ⟨final, ⟨fun stored => settles.kept ((force_path forced).mpr (.inl stored)), ?_,
        fun {vertex target} stored => ?_⟩, room⟩
      · exact List.forall_mem_cons.mpr ⟨⟨path, member, through⟩, settles.taken⟩
      · rcases settles.origin stored with known | ⟨connection, later, known⟩
        · rcases (force_path forced).mp known with old | ⟨inside, rfl⟩
          · exact .inl old
          · exact .inr ⟨_, List.mem_cons_self, path, member, rfl, inside, through⟩
        · exact .inr ⟨connection, List.mem_cons_of_mem _ later, known⟩
    · cases tried

private theorem choose_complete (branch : VertexId → VertexId → Prop)
    (apart : ∀ {one other vertex}, branch one vertex → branch other vertex → one = other)
    {connections : List (VertexId × List (List VertexId))} {claimed : Table VertexId VertexId}
    (inside : ∀ {vertex owner}, claimed.get? vertex = some owner → branch owner vertex)
    (paths : ∀ connection ∈ connections,
      ∃ path ∈ connection.2, ∀ vertex ∈ path, branch connection.1 vertex)
    (room : ∀ final : Table VertexId VertexId,
      (∀ {vertex owner}, final.get? vertex = some owner → branch owner vertex) →
      spare ≤ claims.bigger.vertexCount - final.size) :
        claims.choose spare connections claimed = true := by
  -- The sets stay apart, so the paths that were chosen first take nothing that the others need.
  induction connections generalizing claimed with
  | nil => exact decide_eq_true (room claimed inside)
  | cons connection rest ih =>
    obtain ⟨owner, listed⟩ := connection
    rw [List.forall_mem_cons] at paths
    obtain ⟨⟨path, member, within⟩, later⟩ := paths
    have known : ∀ {vertex target}, claimed.get? vertex = some target ∨
        (vertex, target) ∈ path.map (fun vertex => (vertex, owner)) →
        branch target vertex := by
      intro vertex target stored
      rcases stored with old | new
      · exact inside old
      · obtain ⟨vertex, onPath, same⟩ := List.mem_map.mp new
        cases same
        exact within vertex onPath
    obtain ⟨after, forced⟩ : ∃ after,
        force claimed (path.map fun vertex => (vertex, owner)) = some after :=
      force_isSome fun vertex one other atOne atOther => apart (known atOne) (known atOther)
    rw [choose, List.any_eq_true]
    refine ⟨path, member, ?_⟩
    rw [forced]
    exact ih (fun stored => known ((force_some forced _ _).mp stored)) later

section Contracting

variable {final : Table VertexId VertexId}

private theorem joined_first (formed : claims.bigger.WellFormed)
    (settles : claims.Settles claims.connections claims.owners final)
    (claimed : final.get? vertex = some owner) :
    ∃ first others, claims.owned owner = first :: others ∧ final.get? first = some owner ∧
      EqvGen (fun one other => (final.get? one = some owner ∧ final.get? other = some owner) ∧
        Shared claims.bigger claims.selected one other) first vertex := by
  have start : ∀ {first others}, claims.owned owner = first :: others →
      final.get? first = some owner := by
    intro first others same
    exact settles.kept (mem_owned.mp (same ▸ List.mem_cons_self))
  rcases settles.origin claimed with stored | ⟨connection, member, path, listed, rfl, inside, within⟩
  · cases same : claims.owned owner with
    | nil =>
      have member := mem_owned.mpr stored
      rw [same] at member
      cases member
    | cons first others =>
      refine ⟨first, others, rfl, start same, ?_⟩
      have member := mem_owned.mpr stored
      rw [same] at member
      rcases List.mem_cons.mp member with rfl | other
      · exact .refl _
      · obtain ⟨path, listed, within⟩ :=
          settles.taken _ (mem_connections.mpr ⟨owner, first, others, vertex, same, other, rfl⟩)
        obtain ⟨trail, ends, reached⟩ := paths_sound formed (List.isChain_singleton first) listed
        exact joined_of_trail trail ends within reached
  · obtain ⟨owner, first, others, other, same, known, rfl⟩ := mem_connections.mp member
    obtain ⟨trail, ends, _⟩ := paths_sound formed (List.isChain_singleton first) listed
    exact ⟨first, others, same, start same, joined_of_trail trail ends within inside⟩

/-- The first vertex of the owner stands for all that is claimed. -/
private def rootOf (claims : Claims) (final : Table VertexId VertexId)
    (vertex : VertexId) : VertexId :=
  match final.get? vertex with
  | some owner => (claims.owned owner).headD vertex
  | none => vertex

private theorem final_rootOf (formed : claims.bigger.WellFormed)
    (settles : claims.Settles claims.connections claims.owners final) :
    final.get? (claims.rootOf final vertex) = final.get? vertex := by
  rw [rootOf]
  split
  next owner claimed =>
    obtain ⟨first, others, same, atFirst, _⟩ := joined_first formed settles claimed
    rw [same, List.headD_cons, atFirst, claimed]
  · rfl

private theorem rootOf_eq (formed : claims.bigger.WellFormed)
    (settles : claims.Settles claims.connections claims.owners final) {other : VertexId}
    (claimed : final.get? vertex = some owner) (claimedOther : final.get? other = some owner) :
    claims.rootOf final vertex = claims.rootOf final other := by
  obtain ⟨first, others, same, _⟩ := joined_first formed settles claimed
  simp only [rootOf, claimed, claimedOther, same, List.headD_cons]

private theorem rootOf_unclaimed (free : final.get? vertex = none) :
    claims.rootOf final vertex = vertex := by
  rw [rootOf, free]

private theorem joined_of_rootOf (formed : claims.bigger.WellFormed)
    (settles : claims.Settles claims.connections claims.owners final) {one other : VertexId}
    (same : claims.rootOf final one = claims.rootOf final other) :
    EqvGen (fun one other => claims.rootOf final one = claims.rootOf final other ∧
      Shared claims.bigger claims.selected one other) one other := by
  have claimed : final.get? one = final.get? other := by
    rw [← final_rootOf formed settles, same, final_rootOf formed settles]
  cases atOne : final.get? one with
  | some owner =>
    obtain ⟨first, others, equal, _, left⟩ := joined_first formed settles atOne
    obtain ⟨first', others', equal', _, right⟩ := joined_first formed settles (claimed ▸ atOne)
    cases equal.symm.trans equal'
    exact EqvGen.mono (fun _ _ shared => ⟨rootOf_eq formed settles shared.1.1 shared.1.2, shared.2⟩)
      _ _ (left.symm.trans _ _ _ right)
  | none =>
    rw [rootOf_unclaimed atOne, rootOf_unclaimed (claimed ▸ atOne)] at same
    exact same ▸ .refl _

private theorem contraction_of_settles (formed : claims.bigger.WellFormed)
    (settles : claims.Settles claims.connections claims.owners final)
    (room : spare ≤ claims.bigger.vertexCount - final.size) :
    Nonempty (Contraction claims.bigger claims.owners claims.selected spare) := by
  have rooted : ∀ {vertex}, final.get? (claims.rootOf final vertex) = final.get? vertex :=
    final_rootOf formed settles
  obtain ⟨spares, length, distinct, spared⟩ := Minor.exists_spared room
  refine ⟨⟨claims.rootOf final, joined_of_rootOf formed settles,
    fun {one other first second} atOne atOther => ⟨fun same => ?_, ?_⟩,
    spares, length, ?_, fun vertex member => (spared vertex member).1,
      fun vertex member other target stored same => ?_⟩⟩
  · have claimed := congrArg final.get? same
    rw [rooted, rooted, settles.kept atOne, settles.kept atOther, Option.some.injEq] at claimed
    exact claimed
  · rintro rfl
    exact rootOf_eq formed settles (settles.kept atOne) (settles.kept atOther)
  · refine (List.nodup_map_iff_inj_on distinct).mpr fun one first other second same => ?_
    rwa [rootOf_unclaimed (spared one first).2, rootOf_unclaimed (spared other second).2] at same
  · have claimed := congrArg final.get? same
    rw [rooted, rooted, (spared vertex member).2, settles.kept stored] at claimed
    cases claimed

end Contracting

section Reading

variable (contraction : Contraction claims.bigger claims.owners claims.selected spare)

/-- What a choice of paths may claim for an owner. -/
private def Block (owner vertex : VertexId) : Prop :=
  ∃ member, claims.owners.get? member = some owner ∧ contraction.root vertex = contraction.root member

variable {contraction}

private theorem block_present (formed : claims.bigger.WellFormed)
    (keys : ∀ vertex owner, claims.owners.get? vertex = some owner →
      claims.bigger.hasVertex vertex = true)
    (inside : Block contraction owner vertex) : claims.bigger.hasVertex vertex = true := by
  obtain ⟨member, stored, same⟩ := inside
  rw [Minor.hasVertex_of_joined formed
    (EqvGen.mono (fun _ _ => And.right) _ _ (contraction.joined same))]
  exact keys member owner stored

private theorem block_apart {one other : VertexId} (atOne : Block contraction one vertex)
    (atOther : Block contraction other vertex) :
    one = other := by
  obtain ⟨left, storedLeft, sameLeft⟩ := atOne
  obtain ⟨right, storedRight, sameRight⟩ := atOther
  exact (contraction.root_forced storedLeft storedRight).mp (sameLeft.symm.trans sameRight)

private theorem block_paths (formed : claims.bigger.WellFormed)
    (keys : ∀ vertex owner, claims.owners.get? vertex = some owner →
      claims.bigger.hasVertex vertex = true)
    {connection : VertexId × List (List VertexId)} (member : connection ∈ claims.connections) :
    ∃ path ∈ connection.2, ∀ vertex ∈ path, Block contraction connection.1 vertex := by
  obtain ⟨owner, first, others, other, same, known, rfl⟩ := mem_connections.mp member
  have atFirst : claims.owners.get? first = some owner := mem_owned.mp (same ▸ List.mem_cons_self)
  have atOther : claims.owners.get? other = some owner :=
    mem_owned.mp (same ▸ List.mem_cons_of_mem _ known)
  refine exists_path formed (block_present formed keys) (fun {vertex} inside => ?_)
    ⟨first, atFirst, rfl⟩ ?_
  · rw [Table.getD_eq]
    cases stored : claims.owners.get? vertex with
    | none => rfl
    | some target => exact block_apart ⟨vertex, stored, rfl⟩ inside
  · have walk := contraction.joined ((contraction.root_forced atFirst atOther).mpr rfl)
    have stays : ∀ one other, contraction.root one = contraction.root other ∧
        Shared claims.bigger claims.selected one other →
        Block contraction owner one = Block contraction owner other :=
          fun one other related => by simp only [Block, related.1]
    exact EqvGen.mono (fun one other related => ⟨related.1, related.2.2⟩)
      _ _ (eqvGen_within stays walk ⟨first, atFirst, rfl⟩)

private theorem block_room (formed : claims.bigger.WellFormed)
    (keys : ∀ vertex owner, claims.owners.get? vertex = some owner →
      claims.bigger.hasVertex vertex = true) {final : Table VertexId VertexId}
    (inside : ∀ {vertex owner}, final.get? vertex = some owner → Block contraction owner vertex) :
    spare ≤ claims.bigger.vertexCount - final.size := by
  rw [← contraction.length_spares]
  refine Minor.spared_le (fun vertex owner stored => block_present formed keys (inside stored))
    (.of_map _ contraction.distinct)
    contraction.inside fun vertex member => ?_
  refine Option.eq_none_iff_forall_ne_some.mpr fun owner stored => ?_
  obtain ⟨claimed, forced, rooted⟩ := inside stored
  exact contraction.free vertex member claimed owner forced rooted

end Reading

/-- Paths can be chosen just if the remaining edges can be contracted in the right way. -/
theorem connect_iff (formed : claims.bigger.WellFormed)
    (keys : ∀ vertex owner, claims.owners.get? vertex = some owner →
      claims.bigger.hasVertex vertex = true) :
    claims.connect spare = true ↔
    Nonempty (Contraction claims.bigger claims.owners claims.selected spare) := by
  rw [connect, Bool.and_eq_true]
  constructor
  · intro connected
    obtain ⟨final, settles, room⟩ := choose_sound connected.2
    exact contraction_of_settles formed settles room
  · intro known
    obtain ⟨contraction⟩ := known
    have paths : ∀ connection ∈ claims.connections,
        ∃ path ∈ connection.2, ∀ vertex ∈ path, Block contraction connection.1 vertex :=
      fun connection => block_paths formed keys
    refine ⟨List.all_eq_true.mpr fun connection member => ?_, ?_⟩
    · obtain ⟨path, listed, _⟩ := paths connection member
      cases empty : connection.2 with
      | nil =>
        rw [empty] at listed
        cases listed
      | cons => rfl
    · exact choose_complete (Block contraction) block_apart (fun stored => ⟨_, stored, rfl⟩) paths
        fun final => block_room formed keys

end Claims

variable {smaller bigger : Hypergraph} {chosen : List (EdgeId × EdgeId)}

theorem force_append (forced : Table VertexId VertexId) (front later : List (VertexId × VertexId)) :
    force forced (front ++ later) = (force forced front).bind fun next => force next later := by
  induction front generalizing forced with
  | nil => rfl
  | cons pair rest ih =>
    rw [List.cons_append, force, force]
    split
    · exact ih _
    · split
      · exact ih _
      · rfl

private theorem pairs_cons {id picked : EdgeId} {one other : Edge}
    (here : smaller.edge? id = some one) (there : bigger.edge? picked = some other) :
    Minor.pairs smaller bigger ((id, picked) :: chosen) =
      other.vertices.zip one.vertices ++ Minor.pairs smaller bigger chosen := by
  rw [Minor.pairs, List.flatMap_cons, here, there]
  rfl

/-- A way to pick an unused candidate for every edge, so that paths can be chosen. -/
private structure Picks (smaller bigger : Hypergraph) (plan : List (EdgeId × List EdgeId))
    (owners : Table VertexId VertexId) (selected : List EdgeId)
    (chosen : List (EdgeId × EdgeId)) : Prop where
  along : List.Forall₂ (fun pair entry => pair.1 = entry.1 ∧ pair.2 ∈ entry.2) chosen plan
  distinct : (chosen.map Prod.snd).Nodup
  unused : ∀ pair ∈ chosen, pair.2 ∉ selected
  connected : ∃ forced, force owners (Minor.pairs smaller bigger chosen) = some forced ∧
    Claims.connect ⟨bigger, forced, (chosen.map Prod.snd).reverse ++ selected⟩
      smaller.isolatedVertices.length = true

section Picking

variable {plan : List (EdgeId × List EdgeId)} {owners : Table VertexId VertexId}
  {selected : List EdgeId} {edge candidate : EdgeId} {candidates : List EdgeId} {one other : Edge}

private theorem selected_cons : (((edge, candidate) :: chosen).map Prod.snd).reverse ++ selected =
    (chosen.map Prod.snd).reverse ++ candidate :: selected := by
  rw [List.map_cons, List.reverse_cons, List.append_assoc, List.singleton_append]

private theorem Picks.cons {next : Table VertexId VertexId} (here : smaller.edge? edge = some one)
    (there : bigger.edge? candidate = some other) (member : candidate ∈ candidates)
    (free : candidate ∉ selected)
    (forced : force owners (other.vertices.zip one.vertices) = some next)
    (picks : Picks smaller bigger plan next (candidate :: selected) chosen) :
    Picks smaller bigger ((edge, candidates) :: plan) owners selected
      ((edge, candidate) :: chosen) := by
  obtain ⟨along, distinct, unused, final, rest, connected⟩ := picks
  have fresh : candidate ∉ chosen.map Prod.snd := by
    intro again
    obtain ⟨pair, inside, rfl⟩ := List.mem_map.mp again
    exact unused pair inside List.mem_cons_self
  refine ⟨.cons ⟨rfl, member⟩ along, List.nodup_cons.mpr ⟨fresh, distinct⟩, ?_, final, ?_, ?_⟩
  · exact List.forall_mem_cons.mpr ⟨free,
      fun pair inside taken => unused pair inside (List.mem_cons_of_mem _ taken)⟩
  · rw [pairs_cons here there, force_append, forced]
    exact rest
  · rw [selected_cons]
    exact connected

private theorem Picks.uncons (here : smaller.edge? edge = some one)
    (there : ∀ candidate ∈ candidates, ∃ other, bigger.edge? candidate = some other)
    (picks : Picks smaller bigger ((edge, candidates) :: plan) owners selected chosen) :
    ∃ candidate ∈ candidates, ∃ other next later,
      bigger.edge? candidate = some other ∧ candidate ∉ selected ∧
      force owners (other.vertices.zip one.vertices) = some next ∧
        Picks smaller bigger plan next (candidate :: selected) later := by
  obtain ⟨along, distinct, unused, final, forced, connected⟩ := picks
  cases along with
  | @cons pair _ later _ picked along =>
    obtain ⟨_, candidate⟩ := pair
    obtain ⟨rfl, member⟩ := picked
    obtain ⟨other, stored⟩ := there candidate member
    rw [List.forall_mem_cons] at unused
    obtain ⟨fresh, distinct⟩ := List.nodup_cons.mp distinct
    rw [pairs_cons here stored, force_append, Option.bind_eq_some_iff] at forced
    obtain ⟨next, first, rest⟩ := forced
    rw [selected_cons] at connected
    refine ⟨candidate, member, other, next, later, stored, unused.1, first, along, distinct,
      fun pair inside taken => ?_, final, rest, connected⟩
    rcases List.mem_cons.mp taken with same | taken
    · exact fresh (List.mem_map.mpr ⟨pair, inside, same⟩)
    · exact unused.2 pair inside taken

private theorem assign_iff
    (known : ∀ entry ∈ plan, (∃ one, smaller.edge? entry.1 = some one) ∧
      ∀ candidate ∈ entry.2, ∃ other, bigger.edge? candidate = some other) :
    assign smaller bigger plan owners selected = true ↔
    ∃ chosen, Picks smaller bigger plan owners selected chosen := by
  induction plan generalizing owners selected with
  | nil =>
    rw [assign]
    constructor
    · intro connected
      exact ⟨[], .nil, .nil, nofun, owners, rfl, connected⟩
    · intro found
      obtain ⟨chosen, along, _, _, forced, same, connected⟩ := found
      cases along
      cases same
      exact connected
  | cons entry rest ih =>
    obtain ⟨edge, candidates⟩ := entry
    rw [List.forall_mem_cons] at known
    obtain ⟨⟨⟨one, here⟩, there⟩, later⟩ := known
    rw [assign, List.any_eq_true]
    constructor
    · intro found
      obtain ⟨candidate, member, tried⟩ := found
      obtain ⟨other, stored⟩ := there candidate member
      rw [Bool.and_eq_true, decide_eq_true_iff, here, stored] at tried
      obtain ⟨free, assigned⟩ := tried
      dsimp only at assigned
      split at assigned
      next next forced =>
        obtain ⟨chosen, picks⟩ := (ih later).mp assigned
        exact ⟨_, picks.cons here stored member free forced⟩
      · cases assigned
    · intro found
      obtain ⟨chosen, picks⟩ := found
      obtain ⟨candidate, member, other, next, chosenLater, stored, free, forced, picks⟩ :=
        picks.uncons here there
      refine ⟨candidate, member, ?_⟩
      rw [Bool.and_eq_true, decide_eq_true_iff, here, stored]
      simp only [forced]
      exact ⟨free, (ih later).mpr ⟨chosenLater, picks⟩⟩

end Picking

private theorem contraction_congr {forced : Table VertexId VertexId}
    {selected others : List EdgeId} {spare : Nat} (same : ∀ edge, edge ∈ selected ↔ edge ∈ others)
    (contraction : Contraction bigger forced selected spare) :
    Nonempty (Contraction bigger forced others spare) := by
  have shared : Shared bigger selected = Shared bigger others := by
    funext one other
    simp only [Shared, same]
  exact ⟨{ contraction with joined := fun equal => shared ▸ contraction.joined equal }⟩

private theorem mem_plan (formedSmaller : smaller.WellFormed) (formed : bigger.WellFormed)
    {entry : EdgeId × List EdgeId}
    (member : entry ∈ smaller.edgeList.map fun edge => (edge.id, bigger.edgesOfShape edge.shape)) :
    ∃ one, smaller.edge? entry.1 = some one ∧ ∀ candidate, candidate ∈ entry.2 ↔
      ∃ other, bigger.edge? candidate = some other ∧ other.shape = one.shape := by
  obtain ⟨edge, listed, rfl⟩ := List.mem_map.mp member
  exact ⟨edge, formedSmaller.mem_edgeList.mp listed, fun candidate => formed.mem_edgesOfShape⟩

private theorem assigned_of_picks (formedSmaller : smaller.WellFormed) (formed : bigger.WellFormed)
    (along : List.Forall₂ (fun pair entry => pair.1 = entry.1 ∧ pair.2 ∈ entry.2) chosen
      (smaller.edgeList.map fun edge => (edge.id, bigger.edgesOfShape edge.shape)))
    (distinct : (chosen.map Prod.snd).Nodup) : Assigned smaller bigger chosen := by
  have edges : chosen.map Prod.fst = smaller.edgeIds := by
    rw [← formedSmaller.edgeList_ids]
    have firsts := Listing.map_eq_of_along along fun left right picked => picked.1
    rw [List.map_map] at firsts
    exact firsts
  have distinctEdges : (chosen.map Prod.fst).Nodup := edges ▸ Hypergraph.nodup_edgeIds
  refine ⟨fun {id edge} stored => ?_, fun {id picked} member => ?_,
    fun {id picked other} left right => ?_, fun {id other picked} left right => ?_⟩
  · have listed : id ∈ chosen.map Prod.fst := edges ▸ Hypergraph.mem_edgeIds.mpr ⟨edge, stored⟩
    obtain ⟨⟨_, picked⟩, member, rfl⟩ := List.mem_map.mp listed
    exact ⟨picked, member⟩
  · obtain ⟨entry, listed, same, candidate⟩ := Listing.along_left along member
    obtain ⟨one, here, candidates⟩ := mem_plan formedSmaller formed listed
    obtain ⟨other, there, shape⟩ := (candidates picked).mp candidate
    rw [← same] at here
    exact ⟨one, other, here, there, shape.symm⟩
  · exact congrArg Prod.snd (List.inj_on_of_nodup_map distinctEdges left right rfl)
  · exact congrArg Prod.fst (List.inj_on_of_nodup_map distinct left right rfl)

private theorem along_images (formedSmaller : smaller.WellFormed) (formed : bigger.WellFormed)
    (model : Model smaller.skeleton bigger.skeleton) :
    List.Forall₂ (fun pair entry => pair.1 = entry.1 ∧ pair.2 ∈ entry.2)
      (smaller.edgeIds.map fun edge => (edge, model.image edge))
      (smaller.edgeList.map fun edge => (edge.id, bigger.edgesOfShape edge.shape)) := by
  rw [← formedSmaller.edgeList_ids, List.map_map, List.forall₂_map_left_iff,
    List.forall₂_map_right_iff, List.forall₂_same]
  intro edge member
  exact ⟨rfl, Minor.image_shape formed formedSmaller model
    (formedSmaller.mem_edgesOfShape.mpr ⟨edge, formedSmaller.mem_edgeList.mp member, rfl⟩)⟩

private theorem nodup_images (model : Model smaller.skeleton bigger.skeleton) :
    ((smaller.edgeIds.map fun edge => (edge, model.image edge)).map Prod.snd).Nodup := by
  rw [List.map_map]
  refine (List.nodup_map_iff_inj_on Hypergraph.nodup_edgeIds).mpr
    fun one first other second same => ?_
  exact model.image_injective (Hypergraph.mem_edgeIds_iff.mp first)
    (Hypergraph.mem_edgeIds_iff.mp second) same

/-- The search over paths finds a model of every kind there is, and nothing else. -/
theorem isPathMinor_iff (formedSmaller : smaller.WellFormed) (formed : bigger.WellFormed) :
    isPathMinor smaller bigger = true ↔ Nonempty (Model smaller.skeleton bigger.skeleton) := by
  have known : ∀ entry ∈ smaller.edgeList.map fun edge => (edge.id, bigger.edgesOfShape edge.shape),
      (∃ one, smaller.edge? entry.1 = some one) ∧
      ∀ candidate ∈ entry.2, ∃ other, bigger.edge? candidate = some other := by
    intro entry member
    obtain ⟨one, here, candidates⟩ := mem_plan formedSmaller formed member
    exact ⟨⟨one, here⟩, fun candidate inside =>
      ((candidates candidate).mp inside).imp fun _ => And.left⟩
  rw [isPathMinor]
  split
  · exact Minor.isMinor_iff formedSmaller formed
  constructor
  · intro decided
    split at decided
    · cases decided
    obtain ⟨chosen, picks⟩ := (assign_iff known).mp decided
    obtain ⟨forced, found, connected⟩ := picks.connected
    have assigned := assigned_of_picks formedSmaller formed picks.along picks.distinct
    rw [← assigned.forcedBy_eq] at found
    have keys := Minor.forced_inside formed found
    obtain ⟨contraction⟩ := (Claims.connect_iff formed keys).mp connected
    apply Minor.model_of_succeeds formedSmaller formed assigned
    rw [Minor.Succeeds, found, Option.any_some, Minor.contractRest_iff formed keys]
    exact contraction_congr (fun edge => by rw [List.append_nil, List.mem_reverse]) contraction
  · intro minor
    obtain ⟨model⟩ := minor
    have along := along_images formedSmaller formed model
    have distinct := nodup_images model
    have assigned := assigned_of_picks formedSmaller formed along distinct
    have succeeds :=
      Minor.succeeds_of_model model formedSmaller formed assigned fun {id picked} member => by
        obtain ⟨edge, _, same⟩ := List.mem_map.mp member
        cases same
        rfl
    rw [Minor.Succeeds, Option.any_eq_true] at succeeds
    obtain ⟨forced, found, contracts⟩ := succeeds
    have keys := Minor.forced_inside formed found
    obtain ⟨contraction⟩ := (Minor.contractRest_iff formed keys).mp contracts
    rw [assigned.forcedBy_eq] at found
    rw [if_neg (by simp [Minor.mayFit_of_model formedSmaller formed model]), assign_iff known]
    refine ⟨_, along, distinct, fun _ _ => List.not_mem_nil, forced, found,
      (Claims.connect_iff formed keys).mpr ?_⟩
    exact contraction_congr (fun edge => by rw [List.append_nil, List.mem_reverse]) contraction

end PathMinor

theorem Order.pathMinor_decides : Order.pathMinor.Decides := by
  intro smaller bigger formedSmaller formed
  exact (PathMinor.isPathMinor_iff formedSmaller formed).trans Skeleton.below_contracting.symm

end Coverability
