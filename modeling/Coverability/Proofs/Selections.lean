import Coverability.Order.Selection
import Coverability.Proofs.Odometer
import Mathlib.Data.List.Nodup
import Mathlib.Data.List.Perm.Subperm

/-! Selections in lexicographic order. A step goes to the least selection after the present one, so
the steps from the first selection on reach every other. -/

namespace Coverability.Selection

open Odometer

variable {bound : Nat} {used current next target : List Nat}

/-- What may be picked beside the indices in use. -/
def Picks (bound : Nat) (used : List Nat) : List Nat → Prop
  | [] => True
  | index :: rest => index < bound ∧ index ∉ used ∧ Picks bound (index :: used) rest

theorem picks_iff :
    Picks bound used current ↔ current.Nodup ∧ ∀ index ∈ current, index < bound ∧ index ∉ used := by
  induction current generalizing used with
  | nil => simp [Picks]
  | cons index rest ih =>
    rw [Picks, ih, List.nodup_cons]
    constructor
    · rintro ⟨below, free, distinct, others⟩
      refine ⟨⟨fun member => (others index member).2 List.mem_cons_self, distinct⟩, ?_⟩
      intro other member
      rcases List.mem_cons.mp member with rfl | later
      · exact ⟨below, free⟩
      · exact ⟨(others other later).1, fun taken =>
          (others other later).2 (List.mem_cons_of_mem _ taken)⟩
    · rintro ⟨⟨absent, distinct⟩, all⟩
      refine ⟨(all index List.mem_cons_self).1, (all index List.mem_cons_self).2, distinct, ?_⟩
      intro other member
      refine ⟨(all other (List.mem_cons_of_mem _ member)).1, fun taken => ?_⟩
      rcases List.mem_cons.mp taken with rfl | earlier
      · exact absent member
      · exact (all other (List.mem_cons_of_mem _ member)).2 earlier

/-- How many indices are left to pick. -/
def room (bound : Nat) (used : List Nat) : Nat := ((List.range bound).filter (· ∉ used)).length

theorem picks_le_room (picks : Picks bound used current) : current.length ≤ room bound used := by
  obtain ⟨distinct, all⟩ := picks_iff.mp picks
  refine (List.subperm_of_subset distinct fun index member => ?_).length_le
  simpa [List.mem_filter] using all index member

theorem room_cons {index : Nat} (below : index < bound) (free : index ∉ used) :
    room bound (index :: used) + 1 = room bound used := by
  have inside : index ∈ (List.range bound).filter (· ∉ used) := by simp [below, free]
  have removed : (List.range bound).filter (· ∉ index :: used) =
      ((List.range bound).filter (· ∉ used)).erase index := by
    rw [(List.nodup_range.filter _).erase_eq_filter, List.filter_filter]
    refine List.filter_congr fun other _ => ?_
    by_cases same : other = index <;> simp [same]
  rw [room, removed, List.length_erase_of_mem inside, room]
  have positive := List.length_pos_of_mem inside
  omega

private theorem exists_free (used : List Nat) :
    ∃ index ∈ List.range (used.length + 1), index ∉ used := by
  by_contra all
  push Not at all
  have lengths := (List.subperm_of_subset List.nodup_range all).length_le
  rw [List.length_range] at lengths
  omega

theorem smallestFree_free : smallestFree used ∉ used := by
  obtain ⟨index, inside, free⟩ := exists_free used
  cases found : (List.range (used.length + 1)).find? (· ∉ used) with
  | none => exact absurd (List.find?_eq_none.mp found index inside) (by simpa using free)
  | some least =>
    rw [smallestFree, found]
    simpa using List.find?_some found

theorem smallestFree_le {index : Nat} (free : index ∉ used) : smallestFree used ≤ index := by
  cases found : (List.range (used.length + 1)).find? (· ∉ used) with
  | none =>
    rw [smallestFree, found]
    exact Nat.zero_le _
  | some least =>
    rw [smallestFree, found, Option.getD_some]
    rw [List.find?_range_eq_some] at found
    by_contra later
    simpa [free] using found.2.2 index (by omega)

theorem length_fill {count : Nat} : (fill used count).length = count := by
  induction count generalizing used with
  | zero => rfl
  | succ count ih => rw [fill, List.length_cons, ih]

theorem fill_picks {count : Nat} (enough : count ≤ room bound used) :
    Picks bound used (fill used count) := by
  induction count generalizing used with
  | zero => trivial
  | succ count ih =>
    have some : ∃ index, index < bound ∧ index ∉ used := by
      obtain ⟨index, member⟩ :=
        List.exists_mem_of_length_pos (Nat.lt_of_lt_of_le (Nat.succ_pos _) enough)
      exact ⟨index, by simpa using member⟩
    obtain ⟨index, below, free⟩ := some
    have least := Nat.lt_of_le_of_lt (smallestFree_le free) below
    have left := room_cons least smallestFree_free
    exact ⟨least, smallestFree_free, ih (by omega)⟩

/-- Nothing that may be picked comes before the smallest free indices. -/
theorem fill_least (picks : Picks bound used target) :
    fill used target.length = target ∨ fill used target.length < target := by
  induction target generalizing used with
  | nil => exact .inl rfl
  | cons index rest ih =>
    obtain ⟨_, free, later⟩ := picks
    rw [List.length_cons, fill]
    rcases Nat.eq_or_lt_of_le (smallestFree_le free) with same | less
    · rw [same]
      rcases ih later with equal | smaller
      · exact .inl (congrArg _ equal)
      · exact .inr (List.cons_lt_cons_iff.mpr (.inr ⟨rfl, smaller⟩))
    · exact .inr (List.cons_lt_cons_iff.mpr (.inl less))

private theorem nextFree_some {index found : Nat} (next : nextFree bound used index = some found) :
    index < found ∧ found < bound ∧ found ∉ used ∧
    ∀ other, index < other → other ∉ used → found ≤ other := by
  rw [nextFree, List.find?_range'_eq_some, List.mem_range'_1] at next
  obtain ⟨free, ⟨after, below⟩, least⟩ := next
  refine ⟨after, by omega, by simpa using free, fun other later notUsed => ?_⟩
  by_contra less
  simpa [notUsed] using least other later (by omega)

private theorem nextFree_none {index : Nat} (next : nextFree bound used index = none) {other : Nat}
    (later : index < other) (below : other < bound) : other ∈ used := by
  rw [nextFree, List.find?_range'_eq_none] at next
  simpa using next other later (by omega)

theorem successor_none (stuck : successor bound used current = none) (picks : Picks bound used target)
    (same : target.length = current.length) : ¬current < target := by
  induction current generalizing used target with
  | nil =>
    rw [List.length_eq_zero_iff.mp same]
    exact List.not_lt_nil _
  | cons index rest ih =>
    rw [successor] at stuck
    split at stuck
    · simp at stuck
    next stays =>
      intro less
      cases target with
      | nil => exact List.not_lt_nil _ less
      | cons other others =>
        rcases List.cons_lt_cons_iff.mp less with bigger | ⟨rfl, bigger⟩
        · exact picks.2.1 (nextFree_none (Option.map_eq_none_iff.mp stuck) bigger picks.1)
        · exact ih stays picks.2.2 (by simpa using same) bigger

theorem successor_some (found : successor bound used current = some next)
    (picks : Picks bound used current) :
    Picks bound used next ∧ next.length = current.length ∧ current < next ∧
      ∀ target, Picks bound used target → target.length = current.length → current < target →
        next = target ∨ next < target := by
  induction current generalizing used next with
  | nil => simp [successor] at found
  | cons index rest ih =>
    obtain ⟨below, free, later⟩ := picks
    rw [successor] at found
    split at found
    next advanced moved =>
      obtain ⟨stays, lengths, less, least⟩ := ih moved later
      cases Option.some.inj found
      refine ⟨⟨below, free, stays⟩, congrArg (· + 1) lengths,
        List.cons_lt_cons_iff.mpr (.inr ⟨rfl, less⟩), ?_⟩
      intro target fits same greater
      cases target with
      | nil => simp at same
      | cons other others =>
        rcases List.cons_lt_cons_iff.mp greater with bigger | ⟨rfl, bigger⟩
        · exact .inr (List.cons_lt_cons_iff.mpr (.inl bigger))
        · rcases least others fits.2.2 (by simpa using same) bigger with equal | smaller
          · exact .inl (congrArg _ equal)
          · exact .inr (List.cons_lt_cons_iff.mpr (.inr ⟨rfl, smaller⟩))
    next stuck =>
      obtain ⟨digit, moved, rfl⟩ := Option.map_eq_some_iff.mp found
      obtain ⟨after, inside, unused, nearest⟩ := nextFree_some moved
      have enough : rest.length ≤ room bound (digit :: used) := by
        have length := picks_le_room later
        have here := room_cons below free
        have there := room_cons inside unused
        omega
      refine ⟨⟨inside, unused, fill_picks enough⟩,
        by rw [List.length_cons, length_fill, List.length_cons],
        List.cons_lt_cons_iff.mpr (.inl after), ?_⟩
      intro target fits same greater
      cases target with
      | nil => simp at same
      | cons other others =>
        rcases List.cons_lt_cons_iff.mp greater with bigger | ⟨rfl, bigger⟩
        · rcases Nat.eq_or_lt_of_le (nearest other bigger fits.2.1) with rfl | less
          · have lengths : others.length = rest.length := by simpa using same
            rcases fill_least fits.2.2 with equal | smaller
            · exact .inl (congrArg _ (lengths ▸ equal))
            · exact .inr (List.cons_lt_cons_iff.mpr (.inr ⟨rfl, lengths ▸ smaller⟩))
          · exact .inr (List.cons_lt_cons_iff.mpr (.inl less))
        · exact absurd bigger (successor_none stuck fits.2.2 (by simpa using same))

/-- A selection that is in use, as opposed to one that has ended. -/
structure Valid (selection : Selection) : Prop where
  running : selection.ended = false
  picks : Picks selection.bound [] selection.indices

def dials (selections : List Selection) : Dials :=
  selections.map fun selection => (selection.bound, selection.indices)

def AllValid (selections : List Selection) : Prop := ∀ selection ∈ selections, Valid selection

private theorem range_least {start : Nat} (distinct : target.Nodup)
    (above : ∀ index ∈ target, start ≤ index) :
    List.range' start target.length = target ∨ List.range' start target.length < target := by
  induction target generalizing start with
  | nil => exact .inl rfl
  | cons index rest ih =>
    obtain ⟨absent, distinctRest⟩ := List.nodup_cons.mp distinct
    rw [List.length_cons, List.range'_succ]
    rcases Nat.eq_or_lt_of_le (above index List.mem_cons_self) with rfl | less
    · have later : ∀ other ∈ rest, start + 1 ≤ other := by
        intro other member
        have different : other ≠ start := fun same => absent (same ▸ member)
        have := above other (List.mem_cons_of_mem _ member)
        omega
      rcases ih distinctRest later with equal | smaller
      · exact .inl (congrArg _ equal)
      · exact .inr (List.cons_lt_cons_iff.mpr (.inr ⟨rfl, smaller⟩))
    · exact .inr (List.cons_lt_cons_iff.mpr (.inl less))

theorem first_least {count : Nat} (picks : Picks bound [] target) (same : target.length = count) :
    (first bound count).indices = target ∨ (first bound count).indices < target := by
  subst same
  rw [first, List.range_eq_range']
  exact range_least (picks_iff.mp picks).1 fun _ _ => Nat.zero_le _

theorem first_valid {count : Nat} (enough : count ≤ bound) : Valid (first bound count) := by
  refine ⟨by simpa [first] using enough, picks_iff.mpr ⟨List.nodup_range, fun index member => ?_⟩⟩
  rw [first, List.mem_range] at member
  exact ⟨Nat.lt_of_lt_of_le member enough, by simp⟩

theorem countBound_eq {selections : List Selection} :
    (selections.map countBound).foldl (· * ·) 1 = size (dials selections) := by
  have general : ∀ start, (selections.map countBound).foldl (· * ·) start =
      start * size (dials selections) := by
    induction selections with
    | nil => simp [dials, size]
    | cons selection rest ih =>
      intro start
      rw [List.map_cons, List.foldl_cons, ih, countBound, Nat.mul_assoc]
      rfl
  rw [general, Nat.one_mul]

end Coverability.Selection
