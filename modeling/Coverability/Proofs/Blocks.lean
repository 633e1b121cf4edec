import Coverability.Proofs.Partitions
import Coverability.Proofs.Trees
import Mathlib.Data.List.Nodup
import Mathlib.Logic.Relation

/-! Joining vertices to blocks. Two vertices have one root just if the pairs joined so far connect
them, and the root of a block stores the one target of the block. A clash of targets only depends on
the joins up to the place where it is found. -/

namespace Coverability

open Relation (EqvGen)

theorem force_some {forced result : Table VertexId VertexId} {pairs : List (VertexId × VertexId)}
    (found : force forced pairs = some result) (vertex target : VertexId) :
    result.get? vertex = some target ↔ forced.get? vertex = some target ∨
    (vertex, target) ∈ pairs := by
  induction pairs generalizing forced with
  | nil =>
    cases Option.some.inj found
    simp
  | cons pair rest ih =>
    obtain ⟨other, goal⟩ := pair
    rw [force] at found
    split at found
    next missing =>
      rw [ih found, Table.get?_insert, List.mem_cons, Prod.mk.injEq]
      by_cases same : vertex = other
      · subst same
        simp [missing, eq_comm]
      · simp [same]
    next stored =>
      split at found
      next equal =>
        subst equal
        rw [ih found, List.mem_cons, Prod.mk.injEq]
        constructor
        · exact Or.imp_right .inr
        · rintro (here | ⟨rfl, rfl⟩ | later)
          · exact .inl here
          · exact .inl stored
          · exact .inr later
      · simp at found

theorem force_isSome {forced : Table VertexId VertexId} {pairs : List (VertexId × VertexId)}
    (agree : ∀ vertex first second, (forced.get? vertex = some first ∨ (vertex, first) ∈ pairs) →
      (forced.get? vertex = some second ∨ (vertex, second) ∈ pairs) → first = second) :
    ∃ result, force forced pairs = some result := by
  induction pairs generalizing forced with
  | nil => exact ⟨forced, rfl⟩
  | cons pair rest ih =>
    obtain ⟨other, goal⟩ := pair
    rw [force]
    cases stored : forced.get? other with
    | none =>
      have widen : ∀ {vertex target}, (forced.insert other goal).get? vertex = some target ∨
          (vertex, target) ∈ rest →
          forced.get? vertex = some target ∨ (vertex, target) ∈ (other, goal) :: rest := by
        intro vertex target known
        rw [Table.get?_insert] at known
        by_cases same : vertex = other
        · subst same
          rw [if_pos rfl] at known
          exact .inr (List.mem_cons.mpr (known.imp_left fun equal => by rw [Option.some.inj equal]))
        · rw [if_neg same] at known
          exact known.imp_right (List.mem_cons_of_mem _)
      exact ih fun vertex first second atFirst atSecond =>
        agree vertex first second (widen atFirst) (widen atSecond)
    | some present =>
      have equal : present = goal := agree other present goal (.inl stored) (.inr List.mem_cons_self)
      simp only [if_pos equal]
      exact ih fun vertex first second atFirst atSecond => agree vertex first second
        (atFirst.imp_right (List.mem_cons_of_mem _)) (atSecond.imp_right (List.mem_cons_of_mem _))

theorem force_agree {forced result : Table VertexId VertexId} {pairs : List (VertexId × VertexId)}
    (found : force forced pairs = some result) {vertex first second : VertexId}
    (atFirst : (vertex, first) ∈ pairs) (atSecond : (vertex, second) ∈ pairs) : first = second := by
  have one := (force_some found vertex first).mpr (.inr atFirst)
  have other := (force_some found vertex second).mpr (.inr atSecond)
  exact Option.some.inj (one.symm.trans other)

theorem eqvGen_value {α β : Type} {relation : α → α → Prop} {value : α → β}
    (agrees : ∀ first second, relation first second → value first = value second) {first second : α}
    (joined : EqvGen relation first second) : value first = value second := by
  induction joined with
  | rel first second related => exact agrees first second related
  | refl first => rfl
  | symm first second _ ih => exact ih.symm
  | trans first middle last _ _ ihFirst ihLast => exact ihFirst.trans ihLast

/-- A chain never leaves a set that every step stays in. -/
theorem eqvGen_within {α : Type} {relation : α → α → Prop} {inside : α → Prop}
    (stays : ∀ first second, relation first second → inside first = inside second) {first second : α}
    (joined : EqvGen relation first second) (start : inside first) :
    EqvGen (fun one other => (inside one ∧ inside other) ∧ relation one other) first second := by
  induction joined with
  | rel first second related => exact .rel _ _ ⟨⟨start, stays first second related ▸ start⟩, related⟩
  | refl first => exact .refl first
  | symm first second joined ih => exact (ih (eqvGen_value stays joined ▸ start)).symm
  | trans first middle last joined _ ihFirst ihLast =>
    exact (ihFirst start).trans _ _ _ (ihLast (eqvGen_value stays joined ▸ start))

/-- Without any pairs everything is a class of its own. -/
theorem eq_iff_eqvGen {α : Type} {first second : α} :
    first = second ↔ EqvGen (fun _ _ => False) first second := by
  constructor
  · intro same
    exact same ▸ .refl _
  · intro joined
    apply eqvGen_value _ joined
    intro one other impossible
    exact impossible.elim

/-- Where a value tells the classes apart and the class of one element takes over the value of
another's, one more pair has been joined. -/
theorem eqvGen_join {α β : Type} [DecidableEq β] {pair : α → α → Prop} {value : α → β}
    (told : ∀ one other, value one = value other ↔ EqvGen pair one other)
    (first second one other : α) :
    (if value one = value second then value first else value one) =
      (if value other = value second then value first else value other) ↔
      EqvGen (fun one other => pair one other ∨ one = first ∧ other = second) one other := by
  have within : ∀ {one other}, value one = value other →
      EqvGen (fun one other => pair one other ∨ one = first ∧ other = second) one other :=
    fun same => EqvGen.mono (fun _ _ => .inl) _ _ ((told _ _).mp same)
  have bridge :
      EqvGen (fun one other => pair one other ∨ one = first ∧ other = second) first second :=
    .rel _ _ (.inr ⟨rfl, rfl⟩)
  constructor
  · intro same
    by_cases left : value one = value second <;> by_cases right : value other = value second
    · exact within (left.trans right.symm)
    · rw [if_pos left, if_neg right] at same
      exact (within left).trans _ _ _ (bridge.symm.trans _ _ _ (within same))
    · rw [if_neg left, if_pos right] at same
      exact (within same).trans _ _ _ (bridge.trans _ _ _ (within right.symm))
    · rw [if_neg left, if_neg right] at same
      exact within same
  · apply eqvGen_value
    intro one other related
    rcases related with old | ⟨rfl, rfl⟩
    · rw [(told _ _).mpr (.rel _ _ old)]
    · simp

namespace Blocks

variable {blocks next : Blocks} {forced : Table VertexId VertexId} {pair : VertexId → VertexId → Prop}

/-- The blocks are the classes of the joined pairs, and their roots know the targets. -/
structure Tracks (blocks : Blocks) (forced : Table VertexId VertexId)
    (pair : VertexId → VertexId → Prop) : Prop where
  grounded : Grounded blocks
  root_eq_iff : ∀ first second, blocks.root first = blocks.root second ↔ EqvGen pair first second
  target_forced : ∀ root target, blocks.targets.get? root = some target →
    ∃ vertex, blocks.root vertex = root ∧ forced.get? vertex = some target
  forced_target : ∀ vertex target, forced.get? vertex = some target →
    blocks.targets.get? (blocks.root vertex) = some target

/-- Two forced vertices with different targets that the pairs connect. -/
def Clash (forced : Table VertexId VertexId) (pair : VertexId → VertexId → Prop) : Prop :=
  ∃ first second one other, forced.get? first = some one ∧
    forced.get? second = some other ∧ one ≠ other ∧
    EqvGen pair first second

theorem tracks_start : Tracks { targets := forced } forced fun _ _ => False where
  grounded := grounded_start
  root_eq_iff _ _ := eq_iff_eqvGen
  target_forced root _ stored := ⟨root, rfl, stored⟩
  forced_target _ _ stored := stored

theorem Tracks.congr {other : VertexId → VertexId → Prop} (tracks : Tracks blocks forced pair)
    (same : ∀ first second, pair first second ↔ other first second) : Tracks blocks forced other := by
  have : pair = other := funext fun first => funext fun second => propext (same first second)
  exact this ▸ tracks

theorem Tracks.same_target (tracks : Tracks blocks forced pair) {first second one other : VertexId}
    (atFirst : forced.get? first = some one) (atSecond : forced.get? second = some other)
    (joined : EqvGen pair first second) : one = other := by
  have left := tracks.forced_target first one atFirst
  rw [(tracks.root_eq_iff first second).mpr joined,
    tracks.forced_target second other atSecond] at left
  exact (Option.some.inj left).symm

theorem Tracks.rooted (tracks : Tracks blocks forced pair) (vertex : VertexId) :
    blocks.root (blocks.root vertex) = blocks.root vertex :=
  tracks.grounded.rooted vertex

theorem Tracks.shortened (tracks : Tracks blocks forced pair) (shortened : Shortened blocks next) :
    Tracks next forced pair where
  grounded := shortened.grounded
  root_eq_iff first second := by
    rw [shortened.root, shortened.root]
    exact tracks.root_eq_iff first second
  target_forced root target stored := by
    simp only [shortened.root]
    exact tracks.target_forced root target (shortened.targets ▸ stored)
  forced_target vertex target stored := by
    rw [shortened.root, shortened.targets]
    exact tracks.forced_target vertex target stored

private theorem tracks_link (tracks : Tracks blocks forced pair) {first second : VertexId}
    (apart : blocks.root first ≠ blocks.root second) {targets : Table VertexId VertexId}
    (target_forced : ∀ root target, targets.get? root = some target → ∃ vertex,
      (if blocks.root vertex = blocks.root second then blocks.root first
        else blocks.root vertex) = root ∧
        forced.get? vertex = some target)
    (forced_target : ∀ vertex target, forced.get? vertex = some target →
      targets.get? (if blocks.root vertex = blocks.root second then blocks.root first
        else blocks.root vertex) = some target) :
    Tracks ⟨blocks.parents.insert (blocks.root second) (blocks.root first), targets⟩ forced
      fun one other => pair one other ∨ one = first ∧ other = second := by
  obtain ⟨grounded, after⟩ :=
    link_shortened tracks.grounded targets (tracks.rooted first) (tracks.rooted second) apart
  refine ⟨grounded, fun one other => ?_, fun root target stored => ?_, fun vertex target stored => ?_⟩
  · rw [after, after]
    exact eqvGen_join tracks.root_eq_iff first second one other
  · obtain ⟨vertex, same, atVertex⟩ := target_forced root target stored
    exact ⟨vertex, (after vertex).trans same, atVertex⟩
  · rw [after]
    exact forced_target vertex target stored

private theorem tracks_move (tracks : Tracks blocks forced pair) {first second goal : VertexId}
    (apart : blocks.root first ≠ blocks.root second)
    (atGone : blocks.targets.get? (blocks.root second) = some goal)
    (atKept : ∀ other, blocks.targets.get? (blocks.root first) = some other → other = goal) :
    Tracks ⟨blocks.parents.insert (blocks.root second) (blocks.root first),
        (blocks.targets.erase (blocks.root second)).insert (blocks.root first) goal⟩ forced
      fun one other => pair one other ∨ one = first ∧ other = second := by
  -- The block takes over the target of the root that goes only where the root that stays has none.
  refine tracks_link tracks apart (fun root target stored => ?_) (fun vertex target stored => ?_)
  · rw [Table.get?_insert] at stored
    split at stored
    next here =>
      cases Option.some.inj stored
      obtain ⟨vertex, same, atVertex⟩ := tracks.target_forced _ _ atGone
      exact ⟨vertex, by rw [if_pos same, here], atVertex⟩
    · rw [Table.get?_erase] at stored
      split at stored
      · simp at stored
      next different =>
        obtain ⟨vertex, rfl, atVertex⟩ := tracks.target_forced root target stored
        exact ⟨vertex, if_neg different, atVertex⟩
  · have known := tracks.forced_target vertex target stored
    rw [Table.get?_insert, Table.get?_erase]
    by_cases gone : blocks.root vertex = blocks.root second
    · rw [gone, atGone] at known
      rw [if_pos gone, if_pos rfl, known]
    · rw [if_neg gone]
      by_cases kept : blocks.root vertex = blocks.root first
      · rw [if_pos kept, atKept target (kept ▸ known)]
      · rw [if_neg kept, if_neg gone, known]

private theorem link_some (tracks : Tracks blocks forced pair) {first second : VertexId}
    (found : blocks.link (blocks.root first) (blocks.root second) = some next) :
    Tracks next forced fun one other => pair one other ∨ one = first ∧ other = second := by
  rw [link] at found
  split at found
  next same =>
    cases Option.some.inj found
    have joined := (tracks.root_eq_iff first second).mp same
    refine ⟨tracks.grounded, fun one other => ⟨fun equal => ?_, fun path => ?_⟩,
      tracks.target_forced, tracks.forced_target⟩
    · exact EqvGen.mono (fun _ _ => .inl) _ _ ((tracks.root_eq_iff one other).mp equal)
    · refine eqvGen_value (fun one other related => ?_) path
      rcases related with old | ⟨rfl, rfl⟩
      · exact (tracks.root_eq_iff one other).mpr (.rel _ _ old)
      · exact same
  next apart =>
    split at found
    next target other atKept atGone =>
      split at found
      next same =>
        cases Option.some.inj found
        exact tracks_move tracks apart atGone fun known stored => by
          rw [atKept, same] at stored
          exact (Option.some.inj stored).symm
      · simp at found
    next other atKept atGone =>
      cases Option.some.inj found
      exact tracks_move tracks apart atGone fun known stored => by simp [atKept] at stored
    next atGone =>
      cases Option.some.inj found
      refine tracks_link tracks apart (fun root goal stored => ?_) (fun vertex goal stored => ?_)
      · obtain ⟨vertex, rfl, atVertex⟩ := tracks.target_forced root goal stored
        have different : blocks.root vertex ≠ blocks.root second := by
          intro same
          rw [same, atGone] at stored
          cases stored
        exact ⟨vertex, if_neg different, atVertex⟩
      · have known := tracks.forced_target vertex goal stored
        have different : blocks.root vertex ≠ blocks.root second := by
          intro same
          rw [same, atGone] at known
          cases known
        rw [if_neg different, known]

private theorem link_none (tracks : Tracks blocks forced pair) {first second : VertexId}
    (found : blocks.link (blocks.root first) (blocks.root second) = none) :
    Clash forced fun one other => pair one other ∨ one = first ∧ other = second := by
  rw [link] at found
  split at found
  · simp at found
  · split at found
    next target other atKept atGone =>
      split at found
      · simp at found
      next different =>
        obtain ⟨one, sameOne, atOne⟩ := tracks.target_forced _ _ atKept
        obtain ⟨two, sameTwo, atTwo⟩ := tracks.target_forced _ _ atGone
        have within : ∀ {one other}, blocks.root one = blocks.root other →
            EqvGen (fun one other => pair one other ∨ one = first ∧ other = second) one other :=
          fun same => EqvGen.mono (fun _ _ => .inl) _ _ ((tracks.root_eq_iff _ _).mp same)
        exact ⟨one, two, target, other, atOne, atTwo, different,
          (within sameOne).trans
            _ _ _ ((EqvGen.rel _ _ (.inr ⟨rfl, rfl⟩)).trans _ _ _ (within sameTwo.symm))⟩
    · simp at found
    · simp at found

theorem join_some (tracks : Tracks blocks forced pair) {first second : VertexId}
    (found : blocks.join first second = some next) :
    Tracks next forced fun one other => pair one other ∨ one = first ∧ other = second := by
  obtain ⟨shorter, shortened, same⟩ := join_eq tracks.grounded first second
  exact link_some (tracks.shortened shortened) (same ▸ found)

theorem join_none (tracks : Tracks blocks forced pair) {first second : VertexId}
    (found : blocks.join first second = none) :
    Clash forced fun one other => pair one other ∨ one = first ∧ other = second := by
  obtain ⟨shorter, shortened, same⟩ := join_eq tracks.grounded first second
  exact link_none (tracks.shortened shortened) (same ▸ found)

theorem joinAll_ok {joins : List (Nat × VertexId × VertexId)} (tracks : Tracks blocks forced pair)
    (found : blocks.joinAll joins = .ok next) :
    Tracks next forced fun one other => pair one other ∨
      ∃ position, (position, one, other) ∈ joins := by
  induction joins generalizing blocks pair with
  | nil =>
    cases found
    exact tracks.congr fun _ _ => by simp
  | cons entry rest ih =>
    obtain ⟨position, first, second⟩ := entry
    rw [joinAll] at found
    split at found
    next joined step =>
      refine (ih (join_some tracks step) found).congr fun one other => ?_
      simp only [List.mem_cons, Prod.mk.injEq, exists_or, or_assoc, exists_and_right,
        exists_eq, true_and]
    · simp at found

theorem joinAll_error {joins : List (Nat × VertexId × VertexId)} {place : Nat}
    (tracks : Tracks blocks forced pair) (found : blocks.joinAll joins = .error place) :
    Clash forced fun one other => pair one other ∨ ∃ position, (position, one, other) ∈ joins := by
  induction joins generalizing blocks pair with
  | nil => cases found
  | cons entry rest ih =>
    obtain ⟨position, first, second⟩ := entry
    rw [joinAll] at found
    split at found
    next joined step =>
      obtain ⟨one, two, target, other, atOne, atTwo, different, path⟩ :=
        ih (join_some tracks step) found
      refine ⟨one, two, target, other, atOne, atTwo, different,
        EqvGen.mono (fun left right related => ?_) _ _ path⟩
      rcases related with (old | ⟨rfl, rfl⟩) | ⟨later, member⟩
      · exact .inl old
      · exact .inr ⟨position, List.mem_cons_self⟩
      · exact .inr ⟨later, List.mem_cons_of_mem _ member⟩
    next step =>
      obtain ⟨one, two, target, other, atOne, atTwo, different, path⟩ := join_none tracks step
      refine ⟨one, two, target, other, atOne, atTwo, different,
        EqvGen.mono (fun left right related => ?_) _ _ path⟩
      rcases related with old | ⟨rfl, rfl⟩
      · exact .inl old
      · exact .inr ⟨position, List.mem_cons_self⟩

theorem joinAll_append {front later : List (Nat × VertexId × VertexId)} :
    blocks.joinAll (front ++ later) = (blocks.joinAll front).bind fun joined =>
      joined.joinAll later := by
  induction front generalizing blocks with
  | nil => rfl
  | cons entry rest ih =>
    obtain ⟨position, first, second⟩ := entry
    rw [List.cons_append, joinAll, joinAll]
    cases blocks.join first second with
    | none => rfl
    | some joined => exact ih

theorem joinAll_error_mem {joins : List (Nat × VertexId × VertexId)} {place : Nat}
    (found : blocks.joinAll joins = .error place) : ∃ entry ∈ joins, entry.1 = place := by
  induction joins generalizing blocks with
  | nil => cases found
  | cons entry rest ih =>
    obtain ⟨position, first, second⟩ := entry
    rw [joinAll] at found
    split at found
    · obtain ⟨entry, member, same⟩ := ih found
      exact ⟨entry, List.mem_cons_of_mem _ member, same⟩
    · cases found
      exact ⟨_, List.mem_cons_self, rfl⟩

end Blocks

namespace Partition

variable {α : Type} {partition other : Partition α}

/-- What is joined at one position. -/
private def joinAt (partition : Partition α) (position : Nat) : Option (Nat × α × α) :=
  match partition.ids[partition.representative position]?, partition.ids[position]? with
  | some earlier, some member =>
    if partition.representative position = position then none else some (position, earlier, member)
  | _, _ => none

private theorem joins_eq :
    partition.joins = (List.range' 1 (partition.ids.length - 1)).filterMap partition.joinAt := rfl

private theorem joinAt_eq_some {position place : Nat} {earlier member : α} :
    partition.joinAt position = some (place, earlier, member) ↔ place = position ∧
      partition.representative position ≠ position ∧
      partition.ids[partition.representative position]? = some earlier ∧
        partition.ids[position]? = some member := by
  rw [joinAt]
  constructor
  · intro made
    split at made
    next atEarlier atMember =>
      split at made
      · simp at made
      next different =>
        simp only [Option.some.injEq, Prod.mk.injEq] at made
        obtain ⟨rfl, rfl, rfl⟩ := made
        exact ⟨rfl, different, atEarlier, atMember⟩
    · simp at made
  · rintro ⟨rfl, different, atEarlier, atMember⟩
    simp [atEarlier, atMember, different]

theorem mem_joins {position : Nat} {earlier member : α} :
    (position, earlier, member) ∈ partition.joins ↔
    1 ≤ position ∧ position < partition.ids.length ∧ partition.representative position ≠ position ∧
      partition.ids[partition.representative position]? = some earlier ∧
      partition.ids[position]? = some member := by
  simp only [joins_eq, List.mem_filterMap, List.mem_range'_1, joinAt_eq_some]
  constructor
  · rintro ⟨place, ⟨after, before⟩, rfl, different, atEarlier, atMember⟩
    exact ⟨after, by omega, different, atEarlier, atMember⟩
  · rintro ⟨after, before, different, atEarlier, atMember⟩
    exact ⟨position, ⟨after, by omega⟩, rfl, different, atEarlier, atMember⟩

private theorem representative_agree {position place : Nat}
    (same : partition.blocks.take (position + 1) = other.blocks.take (position + 1))
    (within : place ≤ position) : partition.representative place = other.representative place := by
  have numbers : partition.blocks[place]? = other.blocks[place]? := by
    have here := congrArg (·[place]?) same
    simpa [List.getElem?_take, Nat.lt_succ_of_le within] using here
  rw [representative, representative, numbers]
  cases stored : other.blocks[place]? with
  | none => rfl
  | some block =>
    have inside : block ∈ other.blocks.take (position + 1) := by
      refine @List.mem_of_getElem? _ _ place _ ?_
      rw [List.getElem?_take, if_pos (Nat.lt_succ_of_le within), stored]
    change partition.blocks.idxOf block = other.blocks.idxOf block
    rw [← List.take_append_drop (position + 1) partition.blocks,
      ← List.take_append_drop (position + 1) other.blocks,
      List.idxOf_append_of_mem (same ▸ inside), List.idxOf_append_of_mem inside, same]

/-- What a partition joins up to a position depends on its blocks up to there. -/
theorem joins_agree {position : Nat} (ids : partition.ids = other.ids)
    (same : partition.blocks.take (position + 1) = other.blocks.take (position + 1)) :
    ∃ front later others, partition.joins = front ++ later ∧ other.joins = front ++ others ∧
      ∀ entry ∈ later, position < entry.1 := by
  have split : List.range' 1 (partition.ids.length - 1) =
      List.range' 1 (min position (partition.ids.length - 1)) ++
      List.range' (1 + min position (partition.ids.length - 1))
        (partition.ids.length - 1 - min position (partition.ids.length - 1)) := by
    rw [List.range'_append_1, Nat.add_sub_cancel' (Nat.min_le_right _ _)]
  have early : (List.range' 1 (min position (partition.ids.length - 1))).filterMap partition.joinAt =
      (List.range' 1 (min position (partition.ids.length - 1))).filterMap other.joinAt := by
    refine List.filterMap_congr fun place inside => ?_
    rw [List.mem_range'_1] at inside
    rw [joinAt, joinAt, representative_agree same (by omega), ids]
  refine ⟨_, _, _, by rw [joins_eq, split, List.filterMap_append, early],
    by rw [joins_eq, ← ids, split, List.filterMap_append], ?_⟩
  rintro ⟨place, earlier, found⟩ member
  obtain ⟨place, inside, made⟩ := List.mem_filterMap.mp member
  rw [List.mem_range'_1] at inside
  have := (joinAt_eq_some.mp made).1
  dsimp only
  omega

theorem joins_congr (ids : partition.ids = other.ids) (same : partition.blocks = other.blocks) :
    partition.joins = other.joins := by
  rw [joins_eq, joins_eq, ids]
  refine List.filterMap_congr fun place _ => ?_
  rw [joinAt, joinAt, representative, representative, ids, same]

private theorem representative_of_block {position block : Nat}
    (stored : partition.blocks[position]? = some block) :
    partition.representative position = partition.blocks.idxOf block := by
  rw [representative, stored]

theorem joins_inside {position : Nat} {earlier member : α}
    (joined : (position, earlier, member) ∈ partition.joins) :
    earlier ∈ partition.ids ∧ member ∈ partition.ids := by
  obtain ⟨_, _, _, atEarlier, atMember⟩ := mem_joins.mp joined
  exact ⟨List.mem_of_getElem? atEarlier, List.mem_of_getElem? atMember⟩

private theorem connected_of_block (valid : Valid partition) {first second block : Nat} {one two : α}
    (blockFirst : partition.blocks[first]? = some block)
    (blockSecond : partition.blocks[second]? = some block)
    (atFirst : partition.ids[first]? = some one) (atSecond : partition.ids[second]? = some two) :
    EqvGen (fun left right => ∃ position, (position, left, right) ∈ partition.joins) one two := by
  have inside : partition.blocks.idxOf block < partition.ids.length :=
    valid.length ▸ List.idxOf_lt_length_of_mem (List.mem_of_getElem? blockFirst)
  have toFirst : ∀ {position : Nat} {member : α}, partition.blocks[position]? = some block →
      partition.ids[position]? = some member →
      EqvGen (fun left right => ∃ position, (position, left, right) ∈ partition.joins)
        partition.ids[partition.blocks.idxOf block] member := by
    intro position member stored atMember
    have representative := representative_of_block stored
    by_cases same : partition.blocks.idxOf block = position
    · have equal : partition.ids[partition.blocks.idxOf block] = member := by
        simpa [List.getElem?_eq_getElem inside]
          using (congrArg (partition.ids[·]?) same).trans atMember
      exact equal ▸ .refl _
    · have before : position < partition.ids.length := (List.getElem?_eq_some_iff.mp atMember).1
      have first : partition.blocks.idxOf block ≤ position := by
        by_contra later
        obtain ⟨length, value⟩ := List.getElem?_eq_some_iff.mp stored
        have absent :=
          @List.not_of_lt_findIdx _ (· == block) partition.blocks _ (Nat.lt_of_not_le later)
        simp [value] at absent
      refine .rel _ _ ⟨position,
        mem_joins.mpr ⟨by omega, before, representative ▸ same, ?_, atMember⟩⟩
      rw [representative, List.getElem?_eq_getElem inside]
  exact (EqvGen.symm _ _ (toFirst blockFirst atFirst)).trans _ _ _ (toFirst blockSecond atSecond)

section Classes

variable {κ : Type} [DecidableEq κ]

/-- Numbers the classes in order of first occurrence, behind the classes that have a number already. -/
def numbering : List κ → List κ → List Nat
  | _, [] => []
  | seen, first :: rest =>
    if first ∈ seen then seen.idxOf first :: numbering seen rest
      else seen.length :: numbering (seen ++ [first]) rest

/-- The partition of a list that puts members of one class into one block. -/
def ofClasses (kind : α → κ) (ids : List α) : Partition α := ⟨ids, numbering [] (ids.map kind), false⟩

private theorem length_numbering {seen kinds : List κ} :
    (numbering seen kinds).length = kinds.length := by
  induction kinds generalizing seen with
  | nil => rfl
  | cons first rest ih =>
    rw [numbering]
    split <;> rw [List.length_cons, List.length_cons, ih]

private theorem numbering_grows (seen kinds : List κ) (some : seen ≠ []) :
    Grows (seen.length - 1) (numbering seen kinds) := by
  have positive := List.length_pos_iff.mpr some
  induction kinds generalizing seen with
  | nil => trivial
  | cons first rest ih =>
    rw [numbering]
    split
    next known =>
      have below := List.idxOf_lt_length_of_mem known
      refine ⟨by omega, ?_⟩
      rw [Nat.max_eq_left (by omega)]
      exact ih seen some positive
    next fresh =>
      refine ⟨by omega, ?_⟩
      have later := ih (seen ++ [first]) (by simp) (by simp)
      rw [List.length_append, List.length_singleton, Nat.add_sub_cancel] at later
      rwa [Nat.max_eq_right (by omega)]

private theorem numbering_eq (seen kinds : List κ) :
    ∃ later, numbering seen kinds = kinds.map (seen ++ later).idxOf ∧
    ∀ kind ∈ kinds, kind ∈ seen ++ later := by
  induction kinds generalizing seen with
  | nil => exact ⟨[], rfl, by simp⟩
  | cons first rest ih =>
    rw [numbering]
    split
    next known =>
      obtain ⟨later, numbers, inside⟩ := ih seen
      refine ⟨later, ?_, List.forall_mem_cons.mpr ⟨List.mem_append_left _ known, inside⟩⟩
      rw [List.map_cons, numbers, List.idxOf_append_of_mem known]
    next fresh =>
      obtain ⟨later, numbers, inside⟩ := ih (seen ++ [first])
      refine ⟨first :: later, ?_, List.forall_mem_cons.mpr ⟨by simp, by simpa using inside⟩⟩
      rw [List.map_cons, numbers, List.append_assoc, List.singleton_append,
        List.idxOf_append_of_notMem fresh, List.idxOf_cons_self, Nat.add_zero]

theorem valid_ofClasses {kind : α → κ} {ids : List α} : Valid (ofClasses kind ids) := by
  refine ⟨rfl, by rw [ofClasses, length_numbering, List.length_map], ?_⟩
  intro block rest same
  cases ids with
  | nil => simp [ofClasses, numbering] at same
  | cons first others =>
    simp only [ofClasses, List.map_cons, numbering, List.not_mem_nil, if_false, List.length_nil,
      List.nil_append, List.cons.injEq] at same
    exact ⟨same.1.symm, same.2 ▸ numbering_grows [kind first] _ (by simp)⟩

private theorem block_ofClasses (kind : α → κ) (ids : List α) : ∃ known : List κ,
    (∀ (position : Nat) (member : α), ids[position]? = some member →
      (ofClasses kind ids).blocks[position]? = some (known.idxOf (kind member))) ∧
      ∀ member ∈ ids, kind member ∈ known := by
  obtain ⟨known, numbers, inside⟩ := numbering_eq [] (ids.map kind)
  refine ⟨known, fun position member atMember => ?_,
    fun member present => inside _ (List.mem_map_of_mem present)⟩
  rw [ofClasses, numbers, List.getElem?_map, List.getElem?_map, atMember]
  rfl

theorem block_ofClasses_eq_iff {kind : α → κ} {ids : List α} {first second : Nat} {one other : α}
    (atFirst : ids[first]? = some one) (atSecond : ids[second]? = some other) :
    (ofClasses kind ids).blocks[first]? = (ofClasses kind ids).blocks[second]? ↔
    kind one = kind other := by
  obtain ⟨known, blocks, inside⟩ := block_ofClasses kind ids
  rw [blocks first one atFirst, blocks second other atSecond, Option.some.injEq]
  exact List.idxOf_inj (inside _ (List.mem_of_getElem? atFirst))

theorem joins_ofClasses {kind : α → κ} {ids : List α} {position : Nat} {earlier member : α}
    (joined : (position, earlier, member) ∈ (ofClasses kind ids).joins) :
    kind earlier = kind member := by
  obtain ⟨known, blocks, inside⟩ := block_ofClasses kind ids
  obtain ⟨_, _, _, atEarlier, atMember⟩ := mem_joins.mp joined
  have block := blocks position member atMember
  rw [representative_of_block block] at atEarlier
  have blockEarlier := blocks _ earlier atEarlier
  have self := List.getElem?_idxOf (List.mem_of_getElem? block)
  rw [self, Option.some.injEq] at blockEarlier
  exact ((List.idxOf_inj (inside _ (List.mem_of_getElem? atMember))).mp blockEarlier).symm

theorem connected_ofClasses {kind : α → κ} {ids : List α} {first second : α} (atFirst : first ∈ ids)
    (atSecond : second ∈ ids) (same : kind first = kind second) :
    EqvGen (fun left right => ∃ position, (position, left, right) ∈ (ofClasses kind ids).joins)
      first second := by
  obtain ⟨known, blocks, _⟩ := block_ofClasses kind ids
  obtain ⟨here, found⟩ := List.mem_iff_getElem?.mp atFirst
  obtain ⟨there, foundThere⟩ := List.mem_iff_getElem?.mp atSecond
  exact connected_of_block valid_ofClasses (blocks here first found)
    (same ▸ blocks there second foundThere) found foundThere

end Classes

end Partition

namespace Blocks

variable {blocks next : Blocks} {forced : Table VertexId VertexId} {pair : VertexId → VertexId → Prop}
  {partitions others : List (Partition VertexId)}

/-- The pairs that a state of the search joins. -/
def Pairs (partitions : List (Partition VertexId)) (first second : VertexId) : Prop :=
  ∃ partition ∈ partitions, ∃ position, (position, first, second) ∈ partition.joins

private theorem joinAll_agree {partition other : Partition VertexId} {position : Nat}
    (found : blocks.joinAll partition.joins = .error position) (ids : partition.ids = other.ids)
    (same : partition.blocks.take (position + 1) = other.blocks.take (position + 1)) :
    blocks.joinAll other.joins = .error position := by
  obtain ⟨front, later, others, split, splitOther, behind⟩ := Partition.joins_agree ids same
  rw [split, joinAll_append] at found
  rw [splitOther, joinAll_append]
  cases early : blocks.joinAll front with
  | error place =>
    rw [early] at found
    exact found
  | ok joined =>
    rw [early] at found
    obtain ⟨entry, member, rfl⟩ := @joinAll_error_mem joined _ _ found
    exact absurd (behind entry member) (Nat.lt_irrefl _)

/-- A clash stays when nothing changes up to the place where it is found. -/
theorem joinPartitions_agree {start index position : Nat}
    (found : blocks.joinPartitions start partitions = .error (index, position)) :
    start ≤ index ∧ index - start < partitions.length ∧
      ∀ others, Partition.shape others = Partition.shape partitions →
        Partition.Agree (index - start) position partitions others →
        blocks.joinPartitions start others = .error (index, position) := by
  induction partitions generalizing blocks start with
  | nil => cases found
  | cons partition rest ih =>
    rw [joinPartitions] at found
    split at found
    next joined step =>
      obtain ⟨after, inside, stays⟩ := ih found
      refine ⟨by omega, by simp only [List.length_cons]; omega, ?_⟩
      intro others shapes agree
      cases others with
      | nil => simp [Partition.shape] at shapes
      | cons other others =>
        obtain ⟨ids, shapesRest⟩ := List.cons.inj shapes
        rw [show index - start = index - (start + 1) + 1 by omega] at agree
        rw [joinPartitions, Partition.joins_congr ids agree.1.symm, step]
        exact stays others shapesRest agree.2
    next place step =>
      simp only [Except.error.injEq, Prod.mk.injEq] at found
      obtain ⟨rfl, rfl⟩ := found
      refine ⟨Nat.le_refl _, by simp, ?_⟩
      intro others shapes agree
      cases others with
      | nil => simp [Partition.shape] at shapes
      | cons other others =>
        rw [Nat.sub_self] at agree
        rw [joinPartitions, joinAll_agree step (List.cons.inj shapes).1.symm agree]

theorem joinPartitions_ok {start : Nat} (tracks : Tracks blocks forced pair)
    (found : blocks.joinPartitions start partitions = .ok next) :
    Tracks next forced fun one other => pair one other ∨ Pairs partitions one other := by
  induction partitions generalizing blocks pair start with
  | nil =>
    cases found
    exact tracks.congr fun _ _ => by simp [Pairs]
  | cons partition rest ih =>
    rw [joinPartitions] at found
    split at found
    next joined step =>
      refine (ih (joinAll_ok tracks step) found).congr fun one other => ?_
      simp only [Pairs, List.mem_cons, exists_eq_or_imp, or_assoc]
    · simp at found

theorem joinPartitions_error {start : Nat} {place : Nat × Nat} (tracks : Tracks blocks forced pair)
    (found : blocks.joinPartitions start partitions = .error place) :
    Clash forced fun one other => pair one other ∨ Pairs partitions one other := by
  induction partitions generalizing blocks pair start with
  | nil => cases found
  | cons partition rest ih =>
    have widen : ∀ {relation : VertexId → VertexId → Prop}, Clash forced relation →
        (∀ one other, relation one other → pair one other ∨ Pairs (partition :: rest) one other) →
        Clash forced fun one other => pair one other ∨ Pairs (partition :: rest) one other := by
      rintro relation ⟨one, two, target, other, atOne, atTwo, different, path⟩ within
      exact ⟨one, two, target, other, atOne, atTwo, different, EqvGen.mono within _ _ path⟩
    rw [joinPartitions] at found
    split at found
    next joined step =>
      refine widen (ih (joinAll_ok tracks step) found) fun one other related => ?_
      rcases related with (old | here) | ⟨later, member, place⟩
      · exact .inl old
      · exact .inr ⟨partition, List.mem_cons_self, here⟩
      · exact .inr ⟨later, List.mem_cons_of_mem _ member, place⟩
    next step =>
      refine widen (joinAll_error tracks step) fun one other related => ?_
      exact related.imp_right fun here => ⟨partition, List.mem_cons_self, here⟩

end Blocks

end Coverability
