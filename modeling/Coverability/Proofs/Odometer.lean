import Mathlib.Algebra.Ring.Nat
import Mathlib.Data.List.Basic

/-! Odometers as numbers. The dials are read from left to right with a base of their own each. A state
that comes later in lexicographic order is a larger number below the number of states, so that number
bounds how often a search can move on. -/

namespace Coverability.Odometer

/-- Digit lists of the dials of one odometer, each with the base of its digits. -/
abbrev Dials := List (Nat × List Nat)

def value (base : Nat) : List Nat → Nat
  | [] => 0
  | digit :: rest => digit * base ^ rest.length + value base rest

/-- How many states there are. -/
def size : Dials → Nat
  | [] => 1
  | (base, digits) :: rest => base ^ digits.length * size rest

/-- The state as a number. -/
def total : Dials → Nat
  | [] => 0
  | (base, digits) :: rest => value base digits * size rest + total rest

def InRange (dials : Dials) : Prop := ∀ dial ∈ dials, ∀ digit ∈ dial.2, digit < dial.1

/-- Dials of the same make: equal bases and equally many digits. -/
def frame (dials : Dials) : List (Nat × Nat) := dials.map fun dial => (dial.1, dial.2.length)

theorem value_lt {base : Nat} {digits : List Nat} (inRange : ∀ digit ∈ digits, digit < base) :
    value base digits < base ^ digits.length := by
  induction digits with
  | nil => simp [value]
  | cons digit rest ih =>
    have below := ih fun other member => inRange other (List.mem_cons_of_mem _ member)
    have bound : digit + 1 ≤ base := inRange digit List.mem_cons_self
    have scaled := Nat.mul_le_mul_right (base ^ rest.length) bound
    rw [value, List.length_cons, Nat.pow_succ, Nat.mul_comm _ base]
    rw [Nat.add_mul, Nat.one_mul] at scaled
    omega

theorem value_mono {base : Nat} {first second : List Nat} (same : first.length = second.length)
    (inRange : ∀ digit ∈ first, digit < base) (less : first < second) :
    value base first < value base second := by
  induction first generalizing second with
  | nil =>
    cases second with
    | nil => exact absurd less (List.not_lt_nil _)
    | cons => simp at same
  | cons digit rest ih =>
    cases second with
    | nil => simp at same
    | cons other others =>
      have lengths : rest.length = others.length := by simpa using same
      have restInRange := fun later member => inRange later (List.mem_cons_of_mem _ member)
      rw [value, value, ← lengths]
      rcases List.cons_lt_cons_iff.mp less with smaller | ⟨rfl, later⟩
      · have below := value_lt restInRange
        have scaled := Nat.mul_le_mul_right (base ^ rest.length) (Nat.succ_le_of_lt smaller)
        rw [Nat.succ_mul] at scaled
        omega
      · exact Nat.add_lt_add_left (ih lengths restInRange later) _

theorem size_eq_of_frame {first second : Dials} (same : frame first = frame second) :
    size first = size second := by
  induction first generalizing second with
  | nil =>
    cases second with
    | nil => rfl
    | cons => simp [frame] at same
  | cons dial rest ih =>
    cases second with
    | nil => simp [frame] at same
    | cons other others =>
      simp only [frame, List.map_cons, List.cons.injEq, Prod.mk.injEq] at same
      rw [size, size, ih same.2, same.1.1, same.1.2]

theorem total_lt {dials : Dials} (inRange : InRange dials) : total dials < size dials := by
  induction dials with
  | nil => simp [total, size]
  | cons dial rest ih =>
    have below := ih fun other member => inRange other (List.mem_cons_of_mem _ member)
    have bound : value dial.1 dial.2 + 1 ≤ dial.1 ^ dial.2.length :=
      value_lt (inRange dial List.mem_cons_self)
    have scaled := Nat.mul_le_mul_right (size rest) bound
    rw [Nat.add_mul, Nat.one_mul] at scaled
    rw [total, size]
    omega

theorem total_mono {first second : Dials} (same : frame first = frame second)
    (inRange : InRange first) (less : first.map Prod.snd < second.map Prod.snd) :
    total first < total second := by
  induction first generalizing second with
  | nil =>
    cases second with
    | nil => exact absurd less (List.not_lt_nil _)
    | cons => simp [frame] at same
  | cons dial rest ih =>
    cases second with
    | nil => simp [frame] at same
    | cons other others =>
      simp only [frame, List.map_cons, List.cons.injEq, Prod.mk.injEq] at same
      obtain ⟨⟨bases, lengths⟩, frames⟩ := same
      have restInRange : InRange rest :=
        fun later member => inRange later (List.mem_cons_of_mem _ member)
      rw [total, total, ← bases, ← size_eq_of_frame frames]
      rcases List.cons_lt_cons_iff.mp less with smaller | ⟨equal, later⟩
      · have below := total_lt restInRange
        have values := value_mono lengths (inRange dial List.mem_cons_self) smaller
        have scaled := Nat.mul_le_mul_right (size rest) (Nat.succ_le_of_lt values)
        rw [Nat.succ_mul] at scaled
        omega
      · rw [equal]
        exact Nat.add_lt_add_left (ih frames restInRange later) _

/-- The state is the first one, or comes before the second one. -/
def UpTo (first second : List (List Nat)) : Prop := first = second ∨ first < second

theorem upTo_cons {first second : List Nat} {firsts seconds : List (List Nat)} (same : first = second)
    (later : UpTo firsts seconds) : UpTo (first :: firsts) (second :: seconds) := by
  subst same
  exact later.imp (congrArg _) fun less => List.cons_lt_cons_iff.mpr (.inr ⟨rfl, less⟩)

end Coverability.Odometer
