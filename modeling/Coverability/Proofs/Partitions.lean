import Coverability.Order.Partition
import Coverability.Proofs.Odometer

/-! Partitions in lexicographic order. A step that skips goes to the least state that is larger already
in the part that may move: only states that agree with the present one in that part are passed over. -/

namespace Coverability.Partition

open Odometer

variable {α : Type} {top reach : Nat} {current next target : List Nat}

/-- Block numbers behind a position whose largest number so far is `top`. -/
def Grows : Nat → List Nat → Prop
  | _, [] => True
  | top, block :: rest => block ≤ top + 1 ∧ Grows (max top block) rest

theorem grows_zeros {β : Type} {items : List β} : Grows top (items.map fun _ => 0) := by
  induction items generalizing top with
  | nil => trivial
  | cons _ rest ih => exact ⟨Nat.zero_le _, ih⟩

private theorem zeros_least (same : target.length = current.length) :
    current.map (fun _ => 0) = target ∨ current.map (fun _ => 0) < target := by
  induction current generalizing target with
  | nil => exact .inl (List.length_eq_zero_iff.mp same).symm
  | cons _ rest ih =>
    cases target with
    | nil => simp at same
    | cons other others =>
      rcases Nat.eq_zero_or_pos other with rfl | positive
      · have lengths : others.length = rest.length := by simpa using same
        rcases ih lengths with equal | less
        · exact .inl (congrArg (0 :: ·) equal)
        · exact .inr (List.cons_lt_cons_iff.mpr (.inr ⟨rfl, less⟩))
      · exact .inr (List.cons_lt_cons_iff.mpr (.inl positive))

theorem successor_none (stuck : successor top reach current = none) (grows : Grows top target)
    (same : target.length = current.length) : ¬current.take reach < target.take reach := by
  induction reach generalizing top current target with
  | zero => exact List.not_lt_nil _
  | succ reach ih =>
    cases current with
    | nil =>
      rw [List.length_eq_zero_iff.mp same]
      exact List.not_lt_nil _
    | cons block rest =>
      cases target with
      | nil => exact List.not_lt_nil _
      | cons other others =>
        rw [successor] at stuck
        split at stuck
        · simp at stuck
        next inner =>
          split at stuck
          · simp at stuck
          next large =>
            intro less
            rw [List.take_succ_cons, List.take_succ_cons, List.cons_lt_cons_iff] at less
            rcases less with bigger | ⟨rfl, later⟩
            · have := grows.1
              omega
            · exact ih inner grows.2 (by simpa using same) later

/-- Among the numberings whose part that may move is larger, the successor is the least. -/
theorem successor_some (found : successor top reach current = some next) (grows : Grows top current) :
    Grows top next ∧ next.length = current.length ∧ current.take reach < next.take reach ∧
      ∀ target, Grows top target → target.length = current.length →
        current.take reach < target.take reach →
        next = target ∨ next < target := by
  induction reach generalizing top current next with
  | zero => simp [successor] at found
  | succ reach ih =>
    cases current with
    | nil => simp [successor] at found
    | cons block rest =>
      rw [successor] at found
      split at found
      next advanced inner =>
        obtain ⟨growsLater, lengths, less, least⟩ := ih inner grows.2
        cases Option.some.inj found
        refine ⟨⟨grows.1, growsLater⟩, congrArg (· + 1) lengths,
          List.cons_lt_cons_iff.mpr (.inr ⟨rfl, less⟩), ?_⟩
        intro target fits same greater
        cases target with
        | nil => simp at same
        | cons other others =>
          rcases List.cons_lt_cons_iff.mp greater with bigger | ⟨rfl, bigger⟩
          · exact .inr (List.cons_lt_cons_iff.mpr (.inl bigger))
          · rcases least others fits.2 (by simpa using same) bigger with equal | smaller
            · exact .inl (congrArg _ equal)
            · exact .inr (List.cons_lt_cons_iff.mpr (.inr ⟨rfl, smaller⟩))
      next inner =>
        split at found
        next small =>
          cases Option.some.inj found
          refine ⟨⟨by omega, grows_zeros⟩, by simp,
            List.cons_lt_cons_iff.mpr (.inl (Nat.lt_succ_self _)), ?_⟩
          intro target fits same greater
          cases target with
          | nil => simp at same
          | cons other others =>
            have lengths : others.length = rest.length := by simpa using same
            rcases List.cons_lt_cons_iff.mp greater with bigger | ⟨rfl, bigger⟩
            · rcases Nat.eq_or_lt_of_le (Nat.succ_le_of_lt bigger) with rfl | less
              · rcases zeros_least lengths with equal | smaller
                · exact .inl (congrArg _ equal)
                · exact .inr (List.cons_lt_cons_iff.mpr (.inr ⟨rfl, smaller⟩))
              · exact .inr (List.cons_lt_cons_iff.mpr (.inl less))
            · exact absurd bigger (successor_none inner fits.2 lengths)
        · simp at found

/-- A numbering that starts with zero, of a partition that is in use. -/
structure Valid (partition : Partition α) : Prop where
  running : partition.ended = false
  length : partition.blocks.length = partition.ids.length
  head : ∀ block rest, partition.blocks = block :: rest → block = 0 ∧ Grows 0 rest

theorem advanceAt_ids {partition : Partition α} {position : Nat} :
    (partition.advanceAt position).ids = partition.ids := by
  unfold advanceAt
  split
  · rfl
  · split
    · rfl
    · split <;> rfl

theorem advanceAt_some {partition : Partition α} {position : Nat} (valid : Valid partition)
    (moved : (partition.advanceAt position).ended = false) :
    Valid (partition.advanceAt position) ∧
      partition.blocks.take (position + 1) <
        (partition.advanceAt position).blocks.take (position + 1) ∧
      ∀ target : Partition α, Valid target → target.ids = partition.ids →
        partition.blocks.take (position + 1) < target.blocks.take (position + 1) →
        (partition.advanceAt position).blocks = target.blocks ∨
        (partition.advanceAt position).blocks < target.blocks := by
  obtain ⟨ids, blocks, ended⟩ := partition
  obtain ⟨rfl, lengths, zero⟩ := valid
  cases blocks with
  | nil => simp [advanceAt] at moved
  | cons block rest =>
    obtain ⟨rfl, grows⟩ := zero block rest rfl
    simp only [advanceAt, Bool.false_eq_true, if_false] at moved ⊢
    cases found : successor 0 position rest with
    | none => simp [found] at moved
    | some later =>
      obtain ⟨growsLater, same, less, least⟩ := successor_some found grows
      refine ⟨⟨rfl, ?_, ?_⟩, List.cons_lt_cons_iff.mpr (.inr ⟨rfl, less⟩), ?_⟩
      · simpa [same] using lengths
      · rintro _ _ ⟨⟩
        exact ⟨rfl, growsLater⟩
      rintro ⟨targetIds, targetBlocks, _⟩ validTarget rfl greater
      cases targetBlocks with
      | nil => exact absurd (validTarget.length.trans lengths.symm) (by simp)
      | cons other others =>
        obtain ⟨rfl, growsOther⟩ := validTarget.head other others rfl
        have sizes : others.length = rest.length := by
          simpa using validTarget.length.trans lengths.symm
        rcases List.cons_lt_cons_iff.mp greater with impossible | ⟨_, bigger⟩
        · exact absurd impossible (Nat.lt_irrefl 0)
        · rcases least others growsOther sizes bigger with equal | smaller
          · exact .inl (congrArg (0 :: ·) equal)
          · exact .inr (List.cons_lt_cons_iff.mpr (.inr ⟨rfl, smaller⟩))

theorem advanceAt_none {partition target : Partition α} {position : Nat} (valid : Valid partition)
    (stopped : (partition.advanceAt position).ended = true) (validTarget : Valid target)
    (same : target.ids = partition.ids) :
    ¬partition.blocks.take (position + 1) < target.blocks.take (position + 1) := by
  obtain ⟨ids, blocks, ended⟩ := partition
  obtain ⟨targetIds, targetBlocks, _⟩ := target
  obtain ⟨rfl, lengths, zero⟩ := valid
  cases same
  cases blocks with
  | nil =>
    cases targetBlocks with
    | nil => exact List.not_lt_nil _
    | cons => exact absurd (validTarget.length.trans lengths.symm) (by simp)
  | cons block rest =>
    obtain ⟨rfl, grows⟩ := zero block rest rfl
    simp only [advanceAt, Bool.false_eq_true, if_false] at stopped
    cases targetBlocks with
    | nil => exact List.not_lt_nil _
    | cons other others =>
      obtain ⟨rfl, growsOther⟩ := validTarget.head other others rfl
      have sizes : others.length = rest.length := by simpa using validTarget.length.trans lengths.symm
      cases found : successor 0 position rest with
      | some later => simp [found] at stopped
      | none =>
        intro greater
        rcases List.cons_lt_cons_iff.mp greater with impossible | ⟨_, bigger⟩
        · exact absurd impossible (Nat.lt_irrefl 0)
        · exact successor_none found growsOther sizes bigger

def AllValid (partitions : List (Partition α)) : Prop := ∀ partition ∈ partitions, Valid partition

def dials (partitions : List (Partition α)) : Dials :=
  partitions.map fun partition => (partition.ids.length, partition.blocks)

def shape (partitions : List (Partition α)) : List (List α) := partitions.map Partition.ids

/-- The second state is larger already in the part up to a position of the partition with an index. -/
def Beyond : Nat → Nat → List (Partition α) → List (Partition α) → Prop
  | 0, position, first :: _, second :: _ =>
    first.blocks.take (position + 1) < second.blocks.take (position + 1)
  | index + 1, position, first :: firsts, second :: seconds =>
    first.blocks < second.blocks ∨ first.blocks = second.blocks ∧ Beyond index position firsts seconds
  | _, _, _, _ => False

/-- The states agree up to a position of the partition with an index. -/
def Agree : Nat → Nat → List (Partition α) → List (Partition α) → Prop
  | 0, position, first :: _, second :: _ =>
    first.blocks.take (position + 1) = second.blocks.take (position + 1)
  | index + 1, position, first :: firsts, second :: seconds =>
    first.blocks = second.blocks ∧ Agree index position firsts seconds
  | _, _, _, _ => False

def Before (first second : List (Partition α)) : Prop :=
  (dials first).map Prod.snd < (dials second).map Prod.snd

def NotAfter (first second : List (Partition α)) : Prop :=
  UpTo ((dials first).map Prod.snd) ((dials second).map Prod.snd)

private theorem less_of_take {first second : List Nat} {count : Nat}
    (less : first.take count < second.take count) :
    first < second := by
  induction count generalizing first second with
  | zero => exact absurd less (List.not_lt_nil _)
  | succ count ih =>
    cases second with
    | nil => exact absurd less (List.not_lt_nil _)
    | cons other others =>
      cases first with
      | nil => exact List.nil_lt_cons _ _
      | cons block rest =>
        rw [List.take_succ_cons, List.take_succ_cons, List.cons_lt_cons_iff] at less
        exact List.cons_lt_cons_iff.mpr (less.imp_right fun same => ⟨same.1, ih same.2⟩)

private theorem take_of_less {first second : List Nat} {count : Nat} (less : first < second)
    (same : first.length = second.length) :
    first.take count = second.take count ∨ first.take count < second.take count := by
  induction count generalizing first second with
  | zero => exact .inl rfl
  | succ count ih =>
    cases second with
    | nil => exact absurd less (List.not_lt_nil _)
    | cons other others =>
      cases first with
      | nil => simp at same
      | cons block rest =>
        rw [List.take_succ_cons, List.take_succ_cons]
        rcases List.cons_lt_cons_iff.mp less with smaller | ⟨rfl, later⟩
        · exact .inr (List.cons_lt_cons_iff.mpr (.inl smaller))
        · rcases ih later (by simpa using same) with equal | smaller
          · exact .inl (congrArg _ equal)
          · exact .inr (List.cons_lt_cons_iff.mpr (.inr ⟨rfl, smaller⟩))

theorem before_of_beyond {index position : Nat} {first second : List (Partition α)}
    (beyond : Beyond index position first second) : Before first second := by
  induction index generalizing first second with
  | zero =>
    cases first with
    | nil => exact beyond.elim
    | cons one rest =>
      cases second with
      | nil => exact beyond.elim
      | cons other others => exact List.cons_lt_cons_iff.mpr (.inl (less_of_take beyond))
  | succ index ih =>
    cases first with
    | nil => exact beyond.elim
    | cons one rest =>
      cases second with
      | nil => exact beyond.elim
      | cons other others =>
        exact List.cons_lt_cons_iff.mpr (beyond.imp_right fun same => ⟨same.1, ih same.2⟩)

/-- A state that is not before another one agrees with it up to any place, or is beyond there. -/
theorem agree_or_beyond {index position : Nat} {first second : List (Partition α)}
    (notAfter : NotAfter first second)
    (lengths : first.map (·.blocks.length) = second.map (·.blocks.length))
    (inside : index < first.length) :
    Agree index position first second ∨ Beyond index position first second := by
  induction index generalizing first second with
  | zero =>
    cases first with
    | nil => simp at inside
    | cons one rest =>
      cases second with
      | nil => simp at lengths
      | cons other others =>
        have same : one.blocks.length = other.blocks.length := (List.cons.inj lengths).1
        rcases notAfter with equal | less
        · exact .inl (congrArg _ (List.cons.inj equal).1)
        · rcases List.cons_lt_cons_iff.mp less with smaller | ⟨equal, _⟩
          · exact take_of_less smaller same
          · exact .inl (congrArg _ equal)
  | succ index ih =>
    cases first with
    | nil => simp at inside
    | cons one rest =>
      cases second with
      | nil => simp at lengths
      | cons other others =>
        have further : NotAfter rest others → one.blocks = other.blocks →
            Agree (index + 1) position (one :: rest) (other :: others) ∨
            Beyond (index + 1) position (one :: rest) (other :: others) := by
          intro later equal
          rcases ih later (List.cons.inj lengths).2 (by simpa using inside) with agree | beyond
          · exact .inl ⟨equal, agree⟩
          · exact .inr (.inr ⟨equal, beyond⟩)
        rcases notAfter with equal | less
        · exact further (.inl (List.cons.inj equal).2) (List.cons.inj equal).1
        · rcases List.cons_lt_cons_iff.mp less with smaller | ⟨equal, later⟩
          · exact .inr (.inl smaller)
          · exact further (.inr later) equal

/-- Up to the end of the last partition, to be beyond is to be larger. -/
theorem beyond_of_before {position : Nat} {first second : List (Partition α)}
    (before : Before first second)
    (lengths : first.map (·.blocks.length) = second.map (·.blocks.length))
    (reaches : ∀ last ∈ first.getLast?, last.blocks.length ≤ position + 1) :
    Beyond (first.length - 1) position first second := by
  induction first generalizing second with
  | nil =>
    cases second with
    | nil => exact absurd before (List.not_lt_nil _)
    | cons => simp at lengths
  | cons one rest ih =>
    cases second with
    | nil => simp at lengths
    | cons other others =>
      obtain ⟨same, sameRest⟩ := List.cons.inj lengths
      cases rest with
      | nil =>
        cases others with
        | cons => simp at sameRest
        | nil =>
          have all := reaches one rfl
          change one.blocks.take (position + 1) < other.blocks.take (position + 1)
          rw [List.take_of_length_le all,
            List.take_of_length_le (Nat.le_trans (Nat.le_of_eq same.symm) all)]
          rcases List.cons_lt_cons_iff.mp before with smaller | ⟨_, impossible⟩
          · exact smaller
          · exact absurd impossible (List.not_lt_nil _)
      | cons following rest =>
        refine (List.cons_lt_cons_iff.mp before).imp_right fun ⟨equal, later⟩ => ⟨equal, ?_⟩
        exact ih later sameRest (by simpa [List.getLast?_cons_cons] using reaches)

private theorem resetAll_valid {partitions : List (Partition α)} (valid : AllValid partitions) :
    AllValid (partitions.map (·.resetFrom 0)) := by
  intro partition member
  obtain ⟨earlier, inside, rfl⟩ := List.mem_map.mp member
  refine ⟨rfl, by simpa [resetFrom] using (valid earlier inside).length, ?_⟩
  intro block rest same
  rw [resetFrom, List.take_zero, List.nil_append, List.drop_zero] at same
  cases blocks : earlier.blocks with
  | nil => simp [blocks] at same
  | cons first others =>
    rw [blocks, List.map_cons, List.cons.injEq] at same
    obtain ⟨rfl, rfl⟩ := same
    exact ⟨rfl, grows_zeros⟩

theorem shape_resetAll {partitions : List (Partition α)} :
    shape (partitions.map (·.resetFrom 0)) = shape partitions := by
  simp [shape, resetFrom]

private theorem notAfter_cons {one other : Partition α} {rest others : List (Partition α)}
    (equal : one.blocks = other.blocks) (later : NotAfter rest others) :
    NotAfter (one :: rest) (other :: others) :=
  upTo_cons equal later

private theorem resetAll_least {partitions targets : List (Partition α)}
    (valid : AllValid partitions) (validTargets : AllValid targets)
    (same : shape targets = shape partitions) :
    NotAfter (partitions.map (·.resetFrom 0)) targets := by
  induction partitions generalizing targets with
  | nil =>
    cases targets with
    | nil => exact .inl rfl
    | cons => simp [shape] at same
  | cons partition rest ih =>
    cases targets with
    | nil => simp [shape] at same
    | cons target targets =>
      obtain ⟨validHere, validRest⟩ := List.forall_mem_cons.mp valid
      obtain ⟨validTarget, validOthers⟩ := List.forall_mem_cons.mp validTargets
      obtain ⟨ids, shapes⟩ := List.cons.inj same
      have lengths : target.blocks.length = partition.blocks.length := by
        rw [validTarget.length, validHere.length, ids]
      rcases zeros_least lengths with equal | less
      · exact notAfter_cons (by simpa [resetFrom] using equal) (ih validRest validOthers shapes)
      · exact .inr (List.cons_lt_cons_iff.mpr (.inl (by simpa [resetFrom] using less)))

theorem take_advance {partition : Partition α} (valid : Valid partition) :
    partition.blocks.take (partition.ids.length - 1 + 1) = partition.blocks := by
  refine List.take_of_length_le ?_
  have := valid.length
  omega

theorem skipAhead_none {partitions targets : List (Partition α)} {index position : Nat}
    (stuck : skipAhead partitions index position = none) (valid : AllValid partitions)
    (validTargets : AllValid targets) (same : shape targets = shape partitions) :
    ¬Beyond index position partitions targets := by
  induction partitions generalizing index targets with
  | nil => cases index <;> exact id
  | cons partition rest ih =>
    cases targets with
    | nil => simp [shape] at same
    | cons target targets =>
      obtain ⟨validHere, validRest⟩ := List.forall_mem_cons.mp valid
      obtain ⟨validTarget, validOthers⟩ := List.forall_mem_cons.mp validTargets
      obtain ⟨ids, shapes⟩ := List.cons.inj same
      cases index with
      | zero =>
        simp only [skipAhead] at stuck
        split at stuck
        next stopped => exact advanceAt_none validHere stopped validTarget ids
        · simp at stuck
      | succ index =>
        simp only [skipAhead] at stuck
        split at stuck
        · simp at stuck
        next inner =>
          split at stuck
          next stopped =>
            rintro (bigger | ⟨_, later⟩)
            · refine advanceAt_none validHere stopped validTarget ids ?_
              rwa [take_advance validHere, ← ids, take_advance validTarget]
            · exact ih inner validRest validOthers shapes later
          · simp at stuck

private theorem advanceAt_restart {partition : Partition α} {rest : List (Partition α)}
    {position : Nat} (running : (partition.advanceAt position).ended = false)
    (valid : AllValid (partition :: rest)) :
    AllValid (partition.advanceAt position :: rest.map (·.resetFrom 0)) ∧
    shape (partition.advanceAt position :: rest.map (·.resetFrom 0)) = shape (partition :: rest) ∧
    Beyond 0 position (partition :: rest) (partition.advanceAt position :: rest.map (·.resetFrom 0)) ∧
    ∀ targets, AllValid targets → shape targets = shape (partition :: rest) →
      Beyond 0 position (partition :: rest) targets →
      NotAfter (partition.advanceAt position :: rest.map (·.resetFrom 0)) targets := by
  -- Behind the partition that moves all others start over.
  obtain ⟨validHere, validRest⟩ := List.forall_mem_cons.mp valid
  obtain ⟨validNext, less, least⟩ := advanceAt_some validHere running
  refine ⟨List.forall_mem_cons.mpr ⟨validNext, resetAll_valid validRest⟩,
    congrArg₂ (· :: ·) advanceAt_ids shape_resetAll, less, ?_⟩
  intro targets validTargets same bigger
  cases targets with
  | nil => exact bigger.elim
  | cons target targets =>
    obtain ⟨validTarget, validOthers⟩ := List.forall_mem_cons.mp validTargets
    obtain ⟨ids, shapes⟩ := List.cons.inj same
    rcases least target validTarget ids bigger with equal | smaller
    · exact notAfter_cons equal (resetAll_least validRest validOthers shapes)
    · exact .inr (List.cons_lt_cons_iff.mpr (.inl smaller))

/-- Among the states beyond the place, the next one is the least. -/
theorem skipAhead_some {partitions following : List (Partition α)} {index position : Nat}
    (moved : skipAhead partitions index position = some following) (valid : AllValid partitions) :
    AllValid following ∧ shape following = shape partitions ∧
    Beyond index position partitions following ∧
      ∀ targets, AllValid targets → shape targets = shape partitions →
        Beyond index position partitions targets →
        NotAfter following targets := by
  induction partitions generalizing index following with
  | nil => cases index <;> simp [skipAhead] at moved
  | cons partition rest ih =>
    obtain ⟨validHere, validRest⟩ := List.forall_mem_cons.mp valid
    cases index with
    | zero =>
      simp only [skipAhead] at moved
      split at moved
      · simp at moved
      next running =>
        cases Option.some.inj moved
        exact advanceAt_restart (by simpa using running) valid
    | succ index =>
      simp only [skipAhead] at moved
      split at moved
      next advanced inner =>
        cases Option.some.inj moved
        obtain ⟨validLater, shapes, beyond, least⟩ := ih inner validRest
        refine ⟨List.forall_mem_cons.mpr ⟨validHere, validLater⟩, congrArg (_ :: ·) shapes,
          .inr ⟨rfl, beyond⟩, ?_⟩
        intro targets validTargets same further
        cases targets with
        | nil => exact further.elim
        | cons target targets =>
          rcases further with bigger | ⟨equal, later⟩
          · exact .inr (List.cons_lt_cons_iff.mpr (.inl bigger))
          · exact notAfter_cons equal
              (least targets (List.forall_mem_cons.mp validTargets).2 (List.cons.inj same).2 later)
      next inner =>
        split at moved
        · simp at moved
        next running =>
          cases Option.some.inj moved
          have running : (partition.advanceAt (partition.ids.length - 1)).ended =
            false := by simpa [advance] using running
          obtain ⟨validAll, shapes, less, least⟩ := advanceAt_restart running valid
          refine ⟨validAll, shapes, .inl (less_of_take less), ?_⟩
          intro targets validTargets same further
          cases targets with
          | nil => exact further.elim
          | cons target targets =>
            obtain ⟨validTarget, validOthers⟩ := List.forall_mem_cons.mp validTargets
            obtain ⟨ids, shapesRest⟩ := List.cons.inj same
            rcases further with bigger | ⟨equal, later⟩
            · refine least (target :: targets) validTargets same ?_
              change partition.blocks.take _ < target.blocks.take _
              rwa [take_advance validHere, ← ids, take_advance validTarget]
            · exact absurd later (skipAhead_none inner validRest validOthers shapesRest)

private theorem grows_le (grows : Grows top current) {block : Nat} (member : block ∈ current) :
    block ≤ top + current.length := by
  induction current generalizing top with
  | nil => cases member
  | cons first rest ih =>
    rw [List.length_cons]
    rcases List.mem_cons.mp member with rfl | later
    · have := grows.1
      omega
    · have := ih grows.2 later
      have := grows.1
      omega

theorem dials_inRange {partitions : List (Partition α)} (valid : AllValid partitions) :
    InRange (dials partitions) := by
  intro dial member digit inside
  obtain ⟨partition, present, rfl⟩ := List.mem_map.mp member
  have length := (valid partition present).length
  cases blocks : partition.blocks with
  | nil => simp [blocks] at inside
  | cons first rest =>
    obtain ⟨rfl, grows⟩ := (valid partition present).head first rest blocks
    rw [blocks, List.length_cons] at length
    rcases List.mem_cons.mp (blocks ▸ inside) with rfl | later
    · dsimp only
      omega
    · have := grows_le grows later
      dsimp only
      omega

theorem frame_of_shape {first second : List (Partition α)} (validFirst : AllValid first)
    (validSecond : AllValid second) (same : shape first = shape second) :
    frame (dials first) = frame (dials second) := by
  have frames : ∀ {partitions : List (Partition α)}, AllValid partitions →
      frame (dials partitions) = (shape partitions).map fun ids => (ids.length, ids.length) := by
    intro partitions valid
    rw [frame, dials, shape, List.map_map, List.map_map]
    exact List.map_congr_left fun partition member => Prod.ext rfl (valid partition member).length
  rw [frames validFirst, frames validSecond, same]

theorem lengths_of_shape {first second : List (Partition α)} (validFirst : AllValid first)
    (validSecond : AllValid second) (same : shape first = shape second) :
    first.map (·.blocks.length) = second.map (·.blocks.length) := by
  have frames := congrArg (List.map Prod.snd) (frame_of_shape validFirst validSecond same)
  simpa [frame, dials, Function.comp_def] using frames

theorem eq_of_blocks {first second : List (Partition α)} (validFirst : AllValid first)
    (validSecond : AllValid second) (same : shape first = shape second)
    (blocks : (dials first).map Prod.snd = (dials second).map Prod.snd) : first = second := by
  induction first generalizing second with
  | nil =>
    cases second with
    | nil => rfl
    | cons => simp [shape] at same
  | cons one rest ih =>
    cases second with
    | nil => simp [shape] at same
    | cons other others =>
      obtain ⟨validOne, validRest⟩ := List.forall_mem_cons.mp validFirst
      obtain ⟨validOther, validOthers⟩ := List.forall_mem_cons.mp validSecond
      obtain ⟨ids, shapes⟩ := List.cons.inj same
      obtain ⟨numbers, later⟩ := List.cons.inj blocks
      have equal : one = other := by
        obtain ⟨_, _, ended⟩ := one
        obtain ⟨_, _, stopped⟩ := other
        cases ids
        cases numbers
        cases (show ended = false from validOne.running)
        cases (show stopped = false from validOther.running)
        rfl
      rw [equal, ih validRest validOthers shapes later]

theorem valid_first {ids : List α} : Valid (first ids) := by
  refine ⟨rfl, by simp [first], ?_⟩
  intro block rest same
  cases ids with
  | nil => simp [first] at same
  | cons head others =>
    simp only [first, List.map_cons, List.cons.injEq] at same
    obtain ⟨rfl, rfl⟩ := same
    exact ⟨rfl, grows_zeros⟩

theorem first_notAfter {lists : List (List α)} {targets : List (Partition α)}
    (valid : AllValid targets) (same : shape targets = lists) :
    NotAfter (lists.map first) targets := by
  induction lists generalizing targets with
  | nil =>
    cases targets with
    | nil => exact .inl rfl
    | cons => simp [shape] at same
  | cons ids rest ih =>
    cases targets with
    | nil => simp [shape] at same
    | cons target targets =>
      obtain ⟨validTarget, validOthers⟩ := List.forall_mem_cons.mp valid
      obtain ⟨rfl, shapes⟩ := List.cons.inj same
      have lengths : target.blocks.length = (target.ids.map fun _ => 0).length := by
        simpa using validTarget.length
      rcases zeros_least lengths with equal | less
      · exact notAfter_cons (by simpa [first] using equal) (ih validOthers shapes)
      · exact .inr (List.cons_lt_cons_iff.mpr (.inl (by simpa [first] using less)))

theorem countBound_eq {partitions : List (Partition α)} (valid : AllValid partitions) :
    (partitions.map countBound).foldl (· * ·) 1 = size (dials partitions) := by
  have general : ∀ start, (partitions.map countBound).foldl (· * ·) start =
      start * size (dials partitions) := by
    induction partitions with
    | nil => simp [dials, size]
    | cons partition rest ih =>
      intro start
      obtain ⟨validHere, validRest⟩ := List.forall_mem_cons.mp valid
      rw [List.map_cons, List.foldl_cons, ih validRest, countBound]
      change _ = start * (partition.ids.length ^ partition.blocks.length * size (dials rest))
      rw [validHere.length, Nat.mul_assoc]
      rfl
  rw [general, Nat.one_mul]

end Coverability.Partition
