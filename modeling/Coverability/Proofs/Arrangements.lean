import Coverability.Proofs.Selections
import Coverability.Proofs.Traversal

/-! What selections go through. A single one goes through all sequences of distinct indices, in
lexicographic order. Where several are advanced as one, those behind the one that moves are reset,
which takes them back to their first indices, and so they go through all combinations. -/

namespace Coverability.Selection

open Odometer

variable {bound count : Nat} {indices : List Nat} {selection : Selection} {sizes : List (Nat × Nat)}

/-- All sequences of so many distinct indices below a bound, in lexicographic order. -/
def arrangements (bound count : Nat) : List (List Nat) :=
  (rows (List.replicate count (List.range bound))).filter fun indices => indices.Nodup

theorem mem_arrangements : indices ∈ arrangements bound count ↔
    indices.length = count ∧ indices.Nodup ∧ ∀ index ∈ indices, index < bound := by
  rw [arrangements, List.mem_filter, mem_rows_replicate, decide_eq_true_iff, and_assoc,
    and_comm (b := indices.Nodup)]
  simp only [List.mem_range]

theorem arrangements_ascending : (arrangements bound count).Pairwise (· < ·) := by
  refine (rows_ascending fun items member => ?_).filter _
  rw [List.eq_of_mem_replicate member]
  exact List.pairwise_lt_range

example : arrangements 3 2 = [[0, 1], [0, 2], [1, 0], [1, 2], [2, 0], [2, 1]] := by decide

theorem mem_arrangements_iff_picks : indices ∈ arrangements bound count ↔ Picks bound [] indices ∧
    indices.length = count := by
  rw [mem_arrangements, picks_iff]
  simp [and_comm]

theorem arrangements_eq_nil (short : bound < count) : arrangements bound count = [] := by
  refine List.eq_nil_iff_forall_not_mem.mpr fun indices member => ?_
  obtain ⟨picks, rfl⟩ := mem_arrangements_iff_picks.mp member
  have := picks_le_room picks
  have : room bound [] = bound := by simp [room]
  omega

theorem arrangements_head (enough : count ≤ bound) :
    (arrangements bound count).head? = some (List.range count) := by
  have inside : List.range count ∈ arrangements bound count :=
    mem_arrangements_iff_picks.mpr ⟨(first_valid enough).picks, List.length_range⟩
  have ascending := @arrangements_ascending bound count
  cases found : arrangements bound count with
  | nil => simp [found] at inside
  | cons head rest =>
    obtain ⟨picks, length⟩ :=
      mem_arrangements_iff_picks.mp (found ▸ List.mem_cons_self : head ∈ arrangements bound count)
    rw [found] at inside ascending
    rcases first_least picks length with same | less
    · exact congrArg some same.symm
    · rcases List.mem_cons.mp inside with same | later
      · exact congrArg some same.symm
      · exact absurd ((List.pairwise_cons.mp ascending).1 _ later) (List.lt_asymm less)

theorem successor_traverses (enough : count ≤ bound) :
    Traverses (successor bound []) (arrangements bound count) := by
  refine .of_ascending arrangements_ascending ?_ ?_ ?_
  · intro empty
    simpa [empty] using arrangements_head enough
  · intro indices member next moved
    obtain ⟨picks, length⟩ := mem_arrangements_iff_picks.mp member
    obtain ⟨picksNext, same, less, least⟩ := successor_some moved picks
    refine ⟨mem_arrangements_iff_picks.mpr ⟨picksNext, same.trans length⟩, less,
      fun other inside => ?_⟩
    obtain ⟨picksOther, lengthOther⟩ := mem_arrangements_iff_picks.mp inside
    exact least other picksOther (lengthOther.trans length.symm)
  · intro indices member stuck other inside
    obtain ⟨picksOther, lengthOther⟩ := mem_arrangements_iff_picks.mp inside
    exact successor_none stuck picksOther
      (lengthOther.trans (mem_arrangements_iff_picks.mp member).2.symm)

theorem advance_of_ended (ended : selection.ended = true) : selection.advance = selection := by
  rw [advance, if_pos ended]

theorem advance_of_some {next : List Nat} (moved : successor bound [] indices = some next) :
    (⟨bound, indices, false⟩ : Selection).advance = ⟨bound, next, false⟩ := by
  simp [advance, moved]

theorem advance_of_none (stuck : successor bound [] indices = none) :
    (⟨bound, indices, false⟩ : Selection).advance = ⟨bound, indices, true⟩ := by
  simp [advance, stuck]

/-- What advancing a new selection leads to. -/
theorem advance_iterate (bound count steps : Nat) : advance^[steps] (first bound count) =
    match (arrangements bound count)[steps]? with
    | some indices => ⟨bound, indices, false⟩
    | none => ⟨bound, (arrangements bound count).getLastD (List.range count), true⟩ := by
  by_cases enough : count ≤ bound
  · have start : first bound count = ⟨bound, List.range count, false⟩ := by simp [first, enough]
    obtain ⟨rest, found⟩ := List.head?_eq_some_iff.mp (arrangements_head enough)
    have way := successor_traverses enough
    rw [found] at way ⊢
    rw [start, way.iterate_ending advance_of_some advance_of_none (fun _ => advance_of_ended rfl)
      (List.range count)]
    cases (List.range count :: rest)[steps]? <;> rfl
  · have ended : (first bound count).ended = true := by simpa [first] using enough
    rw [Function.iterate_fixed (advance_of_ended ended),
      arrangements_eq_nil (Nat.lt_of_not_le enough)]
    simpa [first] using enough

/-- A call that changes a selection. -/
inductive Call where
  | advance
  | reset

def Call.run (selection : Selection) : Call → Selection
  | advance => selection.advance
  | reset => selection.reset

/-- The selection after some calls. -/
def afterCalls (selection : Selection) (calls : List Call) : Selection :=
  calls.foldl Call.run selection

theorem length_successor {used next : List Nat} (moved : successor bound used indices = some next) :
    next.length = indices.length := by
  induction indices generalizing used next with
  | nil => cases moved
  | cons index rest ih =>
    rw [successor] at moved
    split at moved
    next later found =>
      cases moved
      rw [List.length_cons, List.length_cons, ih found]
    next =>
      obtain ⟨_, _, rfl⟩ := Option.map_eq_some_iff.mp moved
      rw [List.length_cons, List.length_cons, length_fill]

theorem reset_advance : selection.advance.reset = selection.reset := by
  obtain ⟨bound, indices, ended⟩ := selection
  cases ended with
  | true => rw [advance_of_ended rfl]
  | false =>
    cases moved : successor bound [] indices with
    | none => rw [advance_of_none moved]; rfl
    | some next => rw [advance_of_some moved, reset, reset, length_successor moved]

theorem reset_first : (first bound count).reset = first bound count :=
  congrArg (first bound) List.length_range

/-- No call changes what a selection is reset to. -/
theorem reset_afterCalls (calls : List Call) :
    (selection.afterCalls calls).reset = selection.reset := by
  induction calls generalizing selection with
  | nil => rfl
  | cons call rest ih =>
    have run : (call.run selection).reset = selection.reset := by
      cases call with
      | advance => exact reset_advance
      | reset => exact reset_first
    exact (@ih (call.run selection)).trans run

/-- The next selection, unless the present one is the last. -/
def advance? (selection : Selection) : Option Selection :=
  if selection.advance.ended then none else some selection.advance

/-- What a selection goes through as long as it can be advanced. One that has ended from the start
stays as it is. -/
def stages (bound count : Nat) : List Selection :=
  if count ≤ bound then (arrangements bound count).map fun indices => ⟨bound, indices, false⟩
  else [first bound count]

theorem stages_of_le (enough : count ≤ bound) :
    stages bound count = (arrangements bound count).map fun indices => ⟨bound, indices, false⟩ :=
  if_pos enough

theorem stages_of_lt (short : bound < count) : stages bound count = [first bound count] :=
  if_neg (Nat.not_le_of_lt short)

theorem stages_traversed : Traverses advance? (stages bound count) := by
  rcases Nat.lt_or_ge bound count with short | enough
  · have ended : (first bound count).ended = true := by simpa [first] using short
    rw [stages_of_lt short]
    exact .last (by rw [advance?, advance_of_ended ended, if_pos ended])
  · rw [stages_of_le enough, ← List.append_nil (List.map _ _)]
    refine (successor_traverses enough).append ?_ ?_ fun some => absurd rfl some
    · intro indices next moved
      rw [advance?, advance_of_some moved, if_neg Bool.false_ne_true]
    · intro indices _ stuck
      rw [advance?, advance_of_none stuck, if_pos rfl]
      rfl

theorem stages_ascending :
    (stages bound count).Pairwise fun one other => one.indices < other.indices := by
  rcases Nat.lt_or_ge bound count with short | enough
  · rw [stages_of_lt short]
    exact List.pairwise_singleton _ _
  · rw [stages_of_le enough, List.pairwise_map]
    exact arrangements_ascending

theorem stages_head : (stages bound count).head? = some (first bound count) := by
  rcases Nat.lt_or_ge bound count with short | enough
  · rw [stages_of_lt short, List.head?_cons]
  · rw [stages_of_le enough, List.head?_map, arrangements_head enough]
    simp [first, enough]

theorem reset_stage (member : selection ∈ stages bound count) :
    selection.reset = first bound count := by
  rcases Nat.lt_or_ge bound count with short | enough
  · rw [stages_of_lt short, List.mem_singleton] at member
    rw [member, reset_first]
  · rw [stages_of_le enough, List.mem_map] at member
    obtain ⟨indices, inside, rfl⟩ := member
    exact congrArg (first bound) (mem_arrangements.mp inside).1

theorem stages_ended (member : selection ∈ stages bound count) :
    selection.ended = decide (bound < count) := by
  rcases Nat.lt_or_ge bound count with short | enough
  · rw [stages_of_lt short, List.mem_singleton] at member
    rw [member, first]
  · rw [stages_of_le enough, List.mem_map] at member
    obtain ⟨indices, _, rfl⟩ := member
    exact (decide_eq_false (Nat.not_lt_of_le enough)).symm

theorem mem_stages_iff : selection ∈ stages bound count ∧ selection.ended = false ↔
    Valid selection ∧ selection.bound = bound ∧ selection.indices.length = count := by
  constructor
  · rintro ⟨member, running⟩
    have enough : count ≤ bound := by simpa [stages_ended member] using running
    rw [stages_of_le enough, List.mem_map] at member
    obtain ⟨indices, inside, rfl⟩ := member
    obtain ⟨picks, length⟩ := mem_arrangements_iff_picks.mp inside
    exact ⟨⟨rfl, picks⟩, rfl, length⟩
  · rintro ⟨⟨running, picks⟩, rfl, length⟩
    have inside := mem_arrangements_iff_picks.mpr ⟨picks, length⟩
    have enough : count ≤ selection.bound := by
      by_contra short
      rw [arrangements_eq_nil (Nat.lt_of_not_le short)] at inside
      cases inside
    refine ⟨?_, running⟩
    rw [stages_of_le enough, List.mem_map]
    exact ⟨selection.indices, inside, by rw [← running]⟩

theorem advanceAll_of_some {selections next : List Selection}
    (moved : advanceAll selections = some next) :
    advanceAll (selection :: selections) = some (selection :: next) := by
  rw [advanceAll, moved]

theorem advanceAll_of_none {selections : List Selection} (stuck : advanceAll selections = none) :
    advanceAll (selection :: selections) = selection.advance?.map fun next =>
      next :: selections.map reset := by
  cases ended : selection.advance.ended <;> simp [advanceAll, advance?, stuck, ended]

/-- What some selections go through as one. -/
def combinations (sizes : List (Nat × Nat)) : List (List Selection) :=
  rows (sizes.map fun size => stages size.1 size.2)

theorem mem_combinations {selections : List Selection} : selections ∈ combinations sizes ↔
    List.Forall₂ (fun selection size => selection ∈ stages size.1 size.2) selections sizes := by
  rw [combinations, mem_rows, List.forall₂_map_right_iff]

theorem combinations_ascending :
    (combinations sizes).Pairwise (List.Lex fun one other => one.indices < other.indices) := by
  refine rows_ascending fun items member => ?_
  obtain ⟨size, _, rfl⟩ := List.mem_map.mp member
  exact stages_ascending

private theorem resets_to_head :
    ∀ items ∈ sizes.map (fun size => stages size.1 size.2), ∀ selection ∈ items,
    items.head? = some selection.reset := by
  intro items member selection inside
  obtain ⟨size, _, rfl⟩ := List.mem_map.mp member
  rw [stages_head, reset_stage inside]

theorem combinations_head :
    (combinations sizes).head? = some (sizes.map fun size => first size.1 size.2) := by
  have inside : sizes.map (fun size => first size.1 size.2) ∈ combinations sizes := by
    rw [mem_combinations, List.forall₂_map_left_iff, List.forall₂_same]
    exact fun size _ => List.mem_of_mem_head? stages_head
  rw [combinations, head?_rows resets_to_head inside, List.map_map]
  exact congrArg some (List.map_congr_left fun size _ => reset_first)

theorem combinations_traversed : Traverses advanceAll (combinations sizes) := by
  refine .rows rfl advanceAll_of_some advanceAll_of_none ?_ resets_to_head
  intro items member
  obtain ⟨size, _, rfl⟩ := List.mem_map.mp member
  exact stages_traversed

theorem length_arrangements_le : (arrangements bound count).length ≤ bound ^ count := by
  refine Nat.le_trans (List.length_filter_le _ _) (Nat.le_of_eq ?_)
  induction count with
  | zero => rfl
  | succ count ih =>
    rw [List.replicate_succ, length_rows_cons, ih, List.length_range, Nat.pow_succ, Nat.mul_comm]

theorem length_combinations_le (enough : ∀ size ∈ sizes, size.2 ≤ size.1) :
    (combinations sizes).length ≤ size (dials (sizes.map fun size => first size.1 size.2)) := by
  induction sizes with
  | nil => exact Nat.le_refl _
  | cons here sizes ih =>
    obtain ⟨fits, others⟩ := List.forall_mem_cons.mp enough
    rw [combinations, List.map_cons, length_rows_cons, stages_of_le fits, List.length_map]
    refine Nat.mul_le_mul ?_ (ih others)
    simpa [first] using @length_arrangements_le here.1 here.2

/-- Either every combination has a selection that has ended, or none has. -/
theorem none_ended_iff {selections : List Selection} (member : selections ∈ combinations sizes) :
    selections.any ended = false ↔ ∀ size ∈ sizes, size.2 ≤ size.1 := by
  have along := mem_combinations.mp member
  clear member
  induction along with
  | nil => simp
  | cons here _ ih =>
    rw [List.any_cons, Bool.or_eq_false_iff, stages_ended here, decide_eq_false_iff_not, Nat.not_lt,
      List.forall_mem_cons]
    exact and_congr_right' ih

/-- The combinations in which no selection has ended, told by their bounds and lengths. -/
theorem combination_iff {selections : List Selection} :
    selections ∈ combinations sizes ∧ selections.any ended = false ↔ AllValid selections ∧
    frame (dials selections) = sizes := by
  induction selections generalizing sizes with
  | nil =>
    rw [mem_combinations, List.forall₂_nil_left_iff]
    simp [AllValid, dials, frame, eq_comm]
  | cons selection rest ih =>
    cases sizes with
    | nil => simp [mem_combinations, dials, frame]
    | cons size sizes =>
      rw [mem_combinations, List.forall₂_cons, ← mem_combinations, List.any_cons,
        Bool.or_eq_false_iff, AllValid, List.forall_mem_cons]
      constructor
      · rintro ⟨⟨here, member⟩, running, none⟩
        obtain ⟨valid, bounds, lengths⟩ := mem_stages_iff.mp ⟨here, running⟩
        obtain ⟨validRest, same⟩ := ih.mp ⟨member, none⟩
        exact ⟨⟨valid, validRest⟩, congrArg₂ List.cons (Prod.ext bounds lengths) same⟩
      · rintro ⟨⟨valid, validRest⟩, same⟩
        obtain ⟨make, sameRest⟩ := List.cons.inj same
        obtain ⟨bounds, lengths⟩ := Prod.ext_iff.mp make
        obtain ⟨here, running⟩ := mem_stages_iff.mpr ⟨valid, bounds, lengths⟩
        obtain ⟨member, none⟩ := ih.mpr ⟨validRest, sameRest⟩
        exact ⟨⟨here, member⟩, running, none⟩

end Coverability.Selection
