import Coverability.Proofs.Blocks
import Coverability.Proofs.Traversal
import Mathlib.Data.Quot

/-! Partitions as restricted growth strings. The strings of one length, listed in lexicographic
order, are what advancing a new partition goes through, so every way to put the positions into
blocks comes up once. A skip from any state that calls can lead to goes to the least string that is
larger within its reach. -/

namespace Coverability.Partition

variable {α : Type} {top count position : Nat} {blocks one other : List Nat} {ids : List α}

/-- A restricted growth string starts with zero, and no number in it exceeds all numbers before it
by more than one. -/
structure Growth (blocks : List Nat) : Prop where
  zero : ∀ block, blocks[0]? = some block → block = 0
  grows : ∀ position block, 0 < position → blocks[position]? = some block →
    ∃ earlier ∈ blocks.take position, block ≤ earlier + 1

/-- All numberings of some positions behind a largest number so far, in lexicographic order. -/
def numberings (top : Nat) : Nat → List (List Nat)
  | 0 => [[]]
  | count + 1 =>
    (List.range (top + 2)).flatMap fun block => (numberings (max top block) count).map (block :: ·)

/-- All restricted growth strings of one length, in lexicographic order. -/
def strings : Nat → List (List Nat)
  | 0 => [[]]
  | count + 1 => (numberings 0 count).map (0 :: ·)

-- How many there are of each length: the Bell numbers.
example : (List.range 6).map (fun count => (strings count).length) = [1, 1, 2, 5, 15, 52] := by decide

private theorem grows_iff : Grows top blocks ↔ ∀ position block, blocks[position]? = some block →
    block ≤ top + 1 ∨ ∃ earlier ∈ blocks.take position, block ≤ earlier + 1 := by
  induction blocks generalizing top with
  | nil => simp [Grows]
  | cons first rest ih =>
    rw [Grows, ih]
    constructor
    · rintro ⟨small, later⟩ position block found
      cases position with
      | zero => exact .inl (by simp_all)
      | succ position =>
        rw [List.getElem?_cons_succ] at found
        rw [List.take_succ_cons]
        rcases later position block found with below | ⟨earlier, member, below⟩
        · rcases Nat.le_total top first with wide | wide
          · exact .inr ⟨first, List.mem_cons_self, by omega⟩
          · exact .inl (by omega)
        · exact .inr ⟨earlier, List.mem_cons_of_mem _ member, below⟩
    · intro known
      refine ⟨by simpa using known 0 first rfl, ?_⟩
      intro position block found
      have step := known (position + 1) block (List.getElem?_cons_succ.trans found)
      rw [List.take_succ_cons] at step
      rcases step with below | ⟨earlier, member, below⟩
      · exact .inl (by omega)
      · rcases List.mem_cons.mp member with rfl | member
        · exact .inl (by omega)
        · exact .inr ⟨earlier, member, below⟩

theorem growth_cons_iff {block : Nat} {rest : List Nat} :
    Growth (block :: rest) ↔ block = 0 ∧ Grows 0 rest := by
  rw [grows_iff]
  constructor
  · rintro ⟨zero, grows⟩
    obtain rfl : block = 0 := zero block rfl
    refine ⟨rfl, ?_⟩
    intro position block found
    obtain ⟨earlier, member, below⟩ :=
      grows (position + 1) block (Nat.succ_pos _) (List.getElem?_cons_succ.trans found)
    rw [List.take_succ_cons] at member
    rcases List.mem_cons.mp member with rfl | member
    · exact .inl below
    · exact .inr ⟨earlier, member, below⟩
  · rintro ⟨rfl, grows⟩
    refine ⟨by simp, ?_⟩
    intro position block positive found
    obtain ⟨position, rfl⟩ := Nat.exists_eq_succ_of_ne_zero (Nat.ne_of_gt positive)
    rw [Nat.succ_eq_add_one, List.getElem?_cons_succ] at found
    rw [Nat.succ_eq_add_one, List.take_succ_cons]
    rcases grows position block found with below | ⟨earlier, member, below⟩
    · exact ⟨0, List.mem_cons_self, below⟩
    · exact ⟨earlier, List.mem_cons_of_mem _ member, below⟩

theorem growth_nil : Growth [] := ⟨by simp, by simp⟩

theorem valid_iff {partition : Partition α} : Valid partition ↔
    partition.ended = false ∧ partition.blocks.length = partition.ids.length ∧
    Growth partition.blocks := by
  have told : Growth partition.blocks ↔ ∀ block rest, partition.blocks = block :: rest → block = 0 ∧
      Grows 0 rest := by
    cases partition.blocks with
    | nil => simp [growth_nil]
    | cons block rest => simp [growth_cons_iff]
  rw [told]
  constructor
  · rintro ⟨running, length, head⟩
    exact ⟨running, length, head⟩
  · rintro ⟨running, length, head⟩
    exact ⟨running, length, head⟩

theorem mem_numberings :
    blocks ∈ numberings top count ↔ Grows top blocks ∧ blocks.length = count := by
  induction count generalizing top blocks with
  | zero =>
    rw [numberings, List.mem_singleton, List.length_eq_zero_iff, iff_and_self]
    rintro rfl
    trivial
  | succ count ih =>
    simp only [numberings, List.mem_flatMap, List.mem_range, List.mem_map, ih]
    constructor
    · rintro ⟨block, small, rest, ⟨grows, rfl⟩, rfl⟩
      exact ⟨⟨by omega, grows⟩, rfl⟩
    · rintro ⟨grows, length⟩
      cases blocks with
      | nil => cases length
      | cons block rest =>
        exact ⟨block, by have := grows.1; omega, rest, ⟨grows.2, Nat.succ.inj length⟩, rfl⟩

theorem mem_strings : blocks ∈ strings count ↔ Growth blocks ∧ blocks.length = count := by
  cases count with
  | zero =>
    rw [strings, List.mem_singleton, List.length_eq_zero_iff, iff_and_self]
    rintro rfl
    exact growth_nil
  | succ count =>
    simp only [strings, List.mem_map, mem_numberings]
    constructor
    · rintro ⟨rest, ⟨grows, rfl⟩, rfl⟩
      exact ⟨growth_cons_iff.mpr ⟨rfl, grows⟩, rfl⟩
    · rintro ⟨growth, length⟩
      cases blocks with
      | nil => cases length
      | cons block rest =>
        obtain ⟨rfl, grows⟩ := growth_cons_iff.mp growth
        exact ⟨rest, ⟨grows, Nat.succ.inj length⟩, rfl⟩

theorem numberings_ascending : (numberings top count).Pairwise (· < ·) := by
  induction count generalizing top with
  | zero => exact List.pairwise_singleton _ _
  | succ count ih =>
    rw [numberings, List.pairwise_flatMap]
    constructor
    · intro block _
      rw [List.pairwise_map]
      exact ih.imp fun less => List.cons_lt_cons_iff.mpr (.inr ⟨rfl, less⟩)
    · refine List.pairwise_lt_range.imp ?_
      rintro first second less _ inFirst _ inSecond
      obtain ⟨rest, _, rfl⟩ := List.mem_map.mp inFirst
      obtain ⟨others, _, rfl⟩ := List.mem_map.mp inSecond
      exact List.cons_lt_cons_iff.mpr (.inl less)

theorem strings_ascending : (strings count).Pairwise (· < ·) := by
  cases count with
  | zero => exact List.pairwise_singleton _ _
  | succ count =>
    rw [strings, List.pairwise_map]
    exact numberings_ascending.imp fun less => List.cons_lt_cons_iff.mpr (.inr ⟨rfl, less⟩)

/-- Two positions have the same number in both lists, or in neither. -/
def Alike (one other : List Nat) : Prop :=
  ∀ first second, first < one.length → second < one.length →
    (one[first]? = one[second]? ↔ other[first]? = other[second]?)

private theorem eq_of_alike {front : List Nat} (full : ∀ block, block ∈ front ↔ block ≤ top)
    (growsOne : Grows top one) (growsOther : Grows top other) (length : one.length = other.length)
    (alike : Alike (front ++ one) (front ++ other)) : one = other := by
  -- All numbers up to the largest are in use, so the next one is known both when it is old and when
  -- it is new.
  induction one generalizing front top other with
  | nil => exact (List.length_eq_zero_iff.mp length.symm).symm
  | cons first rest ih =>
    cases other with
    | nil => cases length
    | cons second others =>
      have inside : front.length < (front ++ first :: rest).length := by simp
      have here : ∀ {block : Nat} {later : List Nat}, (front ++ block :: later)[front.length]? =
        some block := by simp
      have old : ∀ {block : Nat} {later : List Nat}, block ≤ top →
          ∃ place, place < front.length ∧ (front ++ later)[place]? = some block := by
        intro block later small
        obtain ⟨place, found⟩ := List.mem_iff_getElem?.mp ((full block).mpr small)
        have early := (List.getElem?_eq_some_iff.mp found).1
        exact ⟨place, early, by rw [List.getElem?_append_left early, found]⟩
      have same : first = second := by
        by_cases known : first ≤ top
        · obtain ⟨place, early, found⟩ := @old first (second :: others) known
          have there : (front ++ first :: rest)[place]? = some first := by
            rw [List.getElem?_append_left early] at found ⊢
            exact found
          have equal :=
            (alike place front.length (Nat.lt_trans early inside) inside).mp (there.trans here.symm)
          rw [found, here] at equal
          exact Option.some.inj equal
        · by_cases knownOther : second ≤ top
          · obtain ⟨place, early, found⟩ := @old second (first :: rest) knownOther
            have there : (front ++ second :: others)[place]? = some second := by
              rw [List.getElem?_append_left early] at found ⊢
              exact found
            have equal :=
              (alike place front.length (Nat.lt_trans early inside) inside).mpr
                (there.trans here.symm)
            rw [found, here] at equal
            exact (Option.some.inj equal).symm
          · have := growsOne.1
            have := growsOther.1
            omega
      subst same
      refine congrArg
        _ (@ih (max top first) others (front ++ [first]) ?_ growsOne.2 growsOther.2
          (Nat.succ.inj length) ?_)
      · intro block
        have := growsOne.1
        rw [List.mem_append, List.mem_singleton, full]
        omega
      · simpa only [List.append_assoc, List.singleton_append] using alike

theorem Growth.eq_of_alike (growthOne : Growth one) (growthOther : Growth other)
    (length : one.length = other.length) (alike : Alike one other) : one = other := by
  cases one with
  | nil => exact (List.length_eq_zero_iff.mp length.symm).symm
  | cons first rest =>
    cases other with
    | nil => cases length
    | cons second others =>
      obtain ⟨rfl, grows⟩ := growth_cons_iff.mp growthOne
      obtain ⟨rfl, growsOther⟩ := growth_cons_iff.mp growthOther
      have full : ∀ block, block ∈ [0] ↔ block ≤ 0 := by simp
      exact congrArg _ (Partition.eq_of_alike full grows growsOther (Nat.succ.inj length) alike)

open Classical in
/-- Every way to put the positions into blocks is told by exactly one of the strings. -/
theorem strings_exhaust (same : Setoid (Fin count)) : ∃! blocks, blocks ∈ strings count ∧
    ∀ first second : Fin count, blocks[first.val]? = blocks[second.val]? ↔ same.r first second := by
  have seats : ∀ position : Fin count, (List.finRange count)[position.val]? = some position := by
    intro position
    simp
  refine ⟨(ofClasses (Quotient.mk same) (List.finRange count)).blocks, ⟨mem_strings.mpr ?_, ?_⟩, ?_⟩
  · obtain ⟨_, length, growth⟩ :=
      valid_iff.mp (@valid_ofClasses _ _ _ (Quotient.mk same) (List.finRange count))
    exact ⟨growth, length.trans List.length_finRange⟩
  · intro first second
    rw [block_ofClasses_eq_iff (seats first) (seats second), Quotient.eq]
  · rintro blocks ⟨member, told⟩
    obtain ⟨growth, length⟩ := mem_strings.mp member
    obtain ⟨_, lengthOther, growthOther⟩ :=
      valid_iff.mp (@valid_ofClasses _ _ _ (Quotient.mk same) (List.finRange count))
    have lengths : blocks.length = count := length
    refine growth.eq_of_alike growthOther
      (length.trans (lengthOther.trans List.length_finRange).symm) ?_
    intro first second insideFirst insideSecond
    rw [lengths] at insideFirst insideSecond
    rw [told ⟨first, insideFirst⟩ ⟨second, insideSecond⟩,
      block_ofClasses_eq_iff (seats ⟨first, insideFirst⟩) (seats ⟨second, insideSecond⟩),
      Quotient.eq]

theorem advanceAt_of_ended {partition : Partition α} (ended : partition.ended = true) :
    partition.advanceAt position = partition := by
  rw [advanceAt, if_pos ended]

theorem advanceAt_blocks {partition : Partition α}
    (ends : (partition.advanceAt position).ended = true) :
    (partition.advanceAt position).blocks = partition.blocks := by
  obtain ⟨ids, blocks, ended⟩ := partition
  cases ended with
  | true => rfl
  | false =>
    cases blocks with
    | nil => rfl
    | cons block rest =>
      simp only [advanceAt, Bool.false_eq_true, if_false] at ends ⊢
      cases found : successor block position rest with
      | some later => simp [found] at ends
      | none => rfl

theorem numberings_head : (numberings top count).head? = some (List.replicate count 0) := by
  induction count generalizing top with
  | zero => rfl
  | succ count ih =>
    rw [numberings, List.range_succ_eq_map, List.flatMap_cons, List.head?_append, List.head?_map, ih]
    rfl

theorem strings_head : (strings count).head? = some (List.replicate count 0) := by
  cases count with
  | zero => rfl
  | succ count =>
    rw [strings, List.head?_map, numberings_head]
    rfl

theorem advance_some {partition : Partition α} (valid : Valid partition)
    (moved : partition.advance.ended = false) :
    Valid partition.advance ∧ partition.blocks < partition.advance.blocks ∧
    ∀ other, Growth other → other.length = partition.ids.length →
      partition.blocks < other → partition.advance.blocks = other ∨
      partition.advance.blocks < other := by
  obtain ⟨validNext, less, least⟩ := advanceAt_some valid moved
  have ids : partition.advance.ids = partition.ids := advanceAt_ids
  have whole : partition.advance.blocks.take (partition.ids.length - 1 + 1) =
    partition.advance.blocks := ids ▸ take_advance validNext
  rw [take_advance valid] at less least
  refine ⟨validNext, whole ▸ less, ?_⟩
  intro other growth length greater
  have validOther : Valid (⟨partition.ids, other, false⟩ : Partition α) :=
    valid_iff.mpr ⟨rfl, length, growth⟩
  exact least ⟨partition.ids, other, false⟩ validOther rfl (by rwa [take_advance validOther])

theorem advance_none {partition : Partition α} (valid : Valid partition)
    (stopped : partition.advance.ended = true) {other : List Nat} (growth : Growth other)
    (length : other.length = partition.ids.length) : ¬partition.blocks < other := by
  have validOther : Valid (⟨partition.ids, other, false⟩ : Partition α) :=
    valid_iff.mpr ⟨rfl, length, growth⟩
  have stuck := advanceAt_none valid stopped validOther rfl
  rwa [take_advance valid, take_advance validOther] at stuck

/-- The string that advancing leads to, if there is one. -/
def nextString (ids : List α) (blocks : List Nat) : Option (List Nat) :=
  if (⟨ids, blocks, false⟩ : Partition α).advance.ended then none
    else some (⟨ids, blocks, false⟩ : Partition α).advance.blocks

private theorem advance_eq {partition : Partition α} :
    partition.advance = ⟨partition.ids, partition.advance.blocks, partition.advance.ended⟩ :=
  congrArg (Partition.mk · partition.advance.blocks partition.advance.ended) advanceAt_ids

theorem advance_of_some {next : List Nat} (moved : nextString ids blocks = some next) :
    (⟨ids, blocks, false⟩ : Partition α).advance = ⟨ids, next, false⟩ := by
  rw [nextString] at moved
  split at moved
  · cases moved
  next running => rw [advance_eq, Option.some.inj moved, (Bool.not_eq_true _).mp running]

theorem advance_of_none (stuck : nextString ids blocks = none) :
    (⟨ids, blocks, false⟩ : Partition α).advance = ⟨ids, blocks, true⟩ := by
  rw [nextString] at stuck
  split at stuck
  next stopped =>
    have same : (⟨ids, blocks, false⟩ : Partition α).advance.blocks = blocks :=
      advanceAt_blocks stopped
    rw [advance_eq, same, stopped]
  · cases stuck

theorem nextString_traverses : Traverses (nextString ids) (strings ids.length) := by
  have valid : ∀ {blocks}, blocks ∈ strings ids.length →
      Valid (⟨ids, blocks, false⟩ : Partition α) := by
    intro blocks member
    obtain ⟨growth, length⟩ := mem_strings.mp member
    exact valid_iff.mpr ⟨rfl, length, growth⟩
  refine .of_ascending strings_ascending ?_ ?_ ?_
  · intro empty
    simpa [empty] using @strings_head ids.length
  · intro blocks member next moved
    have same := advance_of_some moved
    obtain ⟨validNext, less, least⟩ := advance_some (valid member) (by rw [same])
    rw [same] at validNext less least
    obtain ⟨_, length, growth⟩ := valid_iff.mp validNext
    exact ⟨mem_strings.mpr ⟨growth, length⟩, less,
      fun other inside => least other (mem_strings.mp inside).1 (mem_strings.mp inside).2⟩
  · intro blocks member stuck other inside
    exact advance_none (valid member) (by rw [advance_of_none stuck]) (mem_strings.mp inside).1
      (mem_strings.mp inside).2

/-- What advancing a new partition leads to. -/
theorem advance_iterate (ids : List α) (steps : Nat) : advance^[steps] (first ids) =
    match (strings ids.length)[steps]? with
    | some blocks => ⟨ids, blocks, false⟩
    | none => ⟨ids, (strings ids.length).getLastD [], true⟩ := by
  have start : first ids = ⟨ids, List.replicate ids.length 0, false⟩ := by
    simp [first, List.map_const']
  obtain ⟨rest, all⟩ := List.head?_eq_some_iff.mp (@strings_head ids.length)
  have way := @nextString_traverses _ ids
  rw [all] at way ⊢
  rw [start, way.iterate_ending advance_of_some advance_of_none (fun _ => advanceAt_of_ended rfl) []]
  cases (List.replicate ids.length 0 :: rest)[steps]? <;> rfl

/-- A call that changes a partition. -/
inductive Call where
  | advance
  | advanceAt (position : Nat)
  | resetFrom (position : Nat)

def Call.run (partition : Partition α) : Call → Partition α
  | advance => partition.advance
  | advanceAt position => partition.advanceAt position
  | resetFrom position => partition.resetFrom position

/-- The partition after some calls. -/
def afterCalls (partition : Partition α) (calls : List Call) : Partition α :=
  calls.foldl Call.run partition

/-- The blocks are a restricted growth string for the members, be the partition in use or not. -/
structure Numbers (ids : List α) (partition : Partition α) : Prop where
  members : partition.ids = ids
  length : partition.blocks.length = ids.length
  growth : Growth partition.blocks

theorem numbers_first : Numbers ids (first ids) := by
  obtain ⟨_, length, growth⟩ := valid_iff.mp (@valid_first _ ids)
  exact ⟨rfl, length, growth⟩

theorem Numbers.valid {partition : Partition α} (numbers : Numbers ids partition)
    (running : partition.ended = false) : Valid partition :=
  valid_iff.mpr ⟨running, by rw [numbers.length, numbers.members], numbers.growth⟩

theorem Numbers.advanceAt {partition : Partition α} (numbers : Numbers ids partition)
    (position : Nat) :
    Numbers ids (partition.advanceAt position) := by
  have same : (partition.advanceAt position).ids = ids := advanceAt_ids.trans numbers.members
  cases stopped : (partition.advanceAt position).ended with
  | true =>
    have blocks := advanceAt_blocks stopped
    exact ⟨same, blocks ▸ numbers.length, blocks ▸ numbers.growth⟩
  | false =>
    cases ended : partition.ended with
    | true => rwa [advanceAt_of_ended ended]
    | false =>
      obtain ⟨_, length, growth⟩ := valid_iff.mp (advanceAt_some (numbers.valid ended) stopped).1
      exact ⟨same, length.trans (by rw [same]), growth⟩

/-- The numbers that start over are zero, which is never too large. -/
theorem Numbers.resetFrom {partition : Partition α} (numbers : Numbers ids partition)
    (position : Nat) :
    Numbers ids (partition.resetFrom position) := by
  obtain ⟨same, length, zero, grows⟩ := numbers
  have kept : ∀ place block, (partition.resetFrom position).blocks[place]? = some block →
      block = 0 ∨ partition.blocks[place]? = some block ∧ place < position := by
    intro place block found
    rw [Partition.resetFrom, List.getElem?_append, List.length_take] at found
    split at found
    next early =>
      rw [List.getElem?_take] at found
      split at found
      next before => exact .inr ⟨found, before⟩
      · cases found
    next =>
      rw [List.getElem?_map, Option.map_eq_some_iff] at found
      obtain ⟨_, _, rfl⟩ := found
      exact .inl rfl
  refine ⟨same, ?_, ?_, ?_⟩
  · rw [Partition.resetFrom, List.length_append, List.length_map, ← List.length_append,
      List.take_append_drop, length]
  · intro block found
    rcases kept 0 block found with none | ⟨old, _⟩
    · exact none
    · exact zero block old
  · intro place block positive found
    rcases kept place block found with rfl | ⟨old, before⟩
    · have inside := (List.getElem?_eq_some_iff.mp found).1
      have some : (partition.resetFrom position).blocks.take place ≠ [] := by
        rw [ne_eq, ← List.length_eq_zero_iff, List.length_take]
        omega
      obtain ⟨earlier, member⟩ := List.exists_mem_of_ne_nil _ some
      exact ⟨earlier, member, Nat.zero_le _⟩
    · obtain ⟨earlier, member, below⟩ := grows place block positive old
      refine ⟨earlier, ?_, below⟩
      rw [Partition.resetFrom, List.take_append_of_le_length, List.take_take,
        Nat.min_eq_left (Nat.le_of_lt before)]
      · exact member
      · have inside := (List.getElem?_eq_some_iff.mp old).1
        rw [List.length_take]
        omega

theorem Numbers.run {partition : Partition α} (numbers : Numbers ids partition) (call : Call) :
    Numbers ids (call.run partition) := by
  cases call with
  | advance => exact numbers.advanceAt _
  | advanceAt position => exact numbers.advanceAt position
  | resetFrom position => exact numbers.resetFrom position

theorem Numbers.afterCalls {partition : Partition α} (numbers : Numbers ids partition)
    (calls : List Call) :
    Numbers ids (partition.afterCalls calls) := by
  induction calls generalizing partition with
  | nil => exact numbers
  | cons call rest ih => exact ih (numbers.run call)

/-- The place is the first one with the number that stands at the position. -/
def FirstWith (blocks : List Nat) (position place : Nat) : Prop :=
  place ≤ position ∧ blocks[place]? = blocks[position]? ∧
  ∀ before < place, blocks[before]? ≠ blocks[position]?

theorem representative_first {partition : Partition α} (inside : position < partition.blocks.length) :
    FirstWith partition.blocks position (partition.representative position) := by
  have found := List.getElem?_eq_getElem inside
  have same : partition.representative position =
      partition.blocks.idxOf partition.blocks[position] := by
    rw [representative, found]
  have apart : ∀ before < partition.representative position,
      partition.blocks[before]? ≠ partition.blocks[position]? := by
    intro before early equal
    rw [same] at early
    obtain ⟨within, value⟩ := List.getElem?_eq_some_iff.mp (equal.trans found)
    have absent :=
      @List.not_of_lt_findIdx _ (· == partition.blocks[position]) partition.blocks _ early
    simp [value] at absent
  refine ⟨?_, ?_, apart⟩
  · by_contra later
    exact apart position (Nat.lt_of_not_le later) rfl
  · rw [same, List.getElem?_idxOf (List.getElem_mem _), found]

/-- A string is the least one that is larger than another already in the first few numbers. -/
def LeastBeyond (count : Nat) (blocks next : List Nat) : Prop :=
  Growth next ∧ next.length = blocks.length ∧ blocks.take count < next.take count ∧
    ∀ other, Growth other → other.length = blocks.length → blocks.take count < other.take count →
      next = other ∨ next < other

/-- One partition goes to the least string that is larger already in the first few numbers, or ends
as there is none. -/
def SkipsTo (count : Nat) (before after : Partition α) : Prop :=
  after.ended = false ∧ LeastBeyond count before.blocks after.blocks ∨
    after.ended = true ∧ ∀ other, Growth other → other.length = before.blocks.length →
      ¬before.blocks.take count < other.take count

theorem Numbers.advanceAt_skips {partition : Partition α} (numbers : Numbers ids partition)
    (running : partition.ended = false) (position : Nat) :
    SkipsTo (min position (ids.length - 1) + 1) partition (partition.advanceAt position) := by
  have valid := numbers.valid running
  have length := numbers.length
  -- Behind the last position there is nothing more to reach.
  have reach : ∀ {blocks : List Nat}, blocks.length = partition.blocks.length →
      blocks.take (min position (ids.length - 1) + 1) = blocks.take (position + 1) := by
    intro blocks same
    rw [List.take_eq_take_iff]
    omega
  have validOther : ∀ {other : List Nat}, Growth other → other.length = partition.blocks.length →
      Valid (⟨partition.ids, other, false⟩ : Partition α) :=
    fun growth same => valid_iff.mpr ⟨rfl, same.trans (by rw [length, numbers.members]), growth⟩
  cases stopped : (partition.advanceAt position).ended with
  | false =>
    obtain ⟨_, less, least⟩ := advanceAt_some valid stopped
    obtain ⟨_, lengthNext, growthNext⟩ := numbers.advanceAt position
    have same := lengthNext.trans length.symm
    refine .inl ⟨stopped, growthNext, same, ?_, ?_⟩
    · rwa [reach rfl, reach same]
    · intro other growth same greater
      rw [reach rfl, reach same] at greater
      exact least ⟨partition.ids, other, false⟩ (validOther growth same) rfl greater
  | true =>
    refine .inr ⟨stopped, ?_⟩
    intro other growth same
    rw [reach rfl, reach same]
    exact advanceAt_none valid stopped (validOther growth same) rfl

/-- Advancing a new partition goes through the restricted growth strings of its length, each of them
once and in lexicographic order, and then ends; the strings stand for the ways to put the positions
into blocks. After any calls the blocks are such a string and the representative of a position is
the first one in its block, and a skip loses no string that is larger within its reach. -/
theorem enumeration_exact (ids : List α) :
    (strings ids.length).Pairwise (· < ·) ∧
    (∀ blocks, blocks ∈ strings ids.length ↔ Growth blocks ∧ blocks.length = ids.length) ∧
    (∀ same : Setoid (Fin ids.length), ∃! blocks, blocks ∈ strings ids.length ∧
      ∀ first second : Fin ids.length, blocks[first.val]? = blocks[second.val]? ↔
        same.r first second) ∧
    (∀ steps, advance^[steps] (first ids) = match (strings ids.length)[steps]? with
      | some blocks => ⟨ids, blocks, false⟩
      | none => ⟨ids, (strings ids.length).getLastD [], true⟩) ∧
    ∀ calls, Numbers ids ((first ids).afterCalls calls) ∧
      (∀ position < ids.length, FirstWith ((first ids).afterCalls calls).blocks position
        (((first ids).afterCalls calls).representative position)) ∧
      (((first ids).afterCalls calls).ended = false → ∀ position,
        SkipsTo (min position (ids.length - 1) + 1) ((first ids).afterCalls calls)
          (((first ids).afterCalls calls).advanceAt position)) := by
  refine ⟨strings_ascending, fun _ => mem_strings, strings_exhaust, advance_iterate ids, ?_⟩
  intro calls
  have numbers : Numbers ids ((first ids).afterCalls calls) := numbers_first.afterCalls calls
  refine ⟨numbers, ?_, numbers.advanceAt_skips⟩
  intro position inside
  exact representative_first (numbers.length.symm ▸ inside)

/-- A skip behind the second position goes on, one behind the first two ends, as the second
number cannot grow. -/
theorem enumeration_skips : ((first [7, 3, 5]).afterCalls [.advanceAt 1]).ended = false ∧
    FirstWith [0, 1, 0] 2 0 ∧
    SkipsTo 3 (⟨[7, 3, 5], [0, 1, 0], false⟩ : Partition Nat) ⟨[7, 3, 5], [0, 1, 1], false⟩ ∧
    SkipsTo 2 (⟨[7, 3, 5], [0, 1, 0], false⟩ : Partition Nat) ⟨[7, 3, 5], [0, 1, 0], true⟩ := by
  obtain ⟨_, _, _, _, called⟩ := enumeration_exact [7, 3, 5]
  obtain ⟨_, representatives, skips⟩ := called [.advanceAt 1]
  exact ⟨rfl, representatives 2 (by decide), skips rfl 2, skips rfl 1⟩

end Coverability.Partition
