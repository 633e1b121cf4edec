/-! Selections of some indices out of a range, each index at most once, in lexicographic
order. The last position moves first. When it cannot move, the position before it does, and
the positions behind start over with the smallest indices that are free. -/

namespace Coverability

structure Selection where
  /-- Indices lie below this bound. -/
  bound : Nat
  indices : List Nat
  ended : Bool
deriving DecidableEq

namespace Selection

def first (bound count : Nat) : Selection := ⟨bound, List.range count, bound < count⟩

def reset (selection : Selection) : Selection := first selection.bound selection.indices.length

/-- The smallest index that is not in use. Among one index more than are in use, one is free. -/
def smallestFree (used : List Nat) : Nat := ((List.range (used.length + 1)).find? (· ∉ used)).getD 0

/-- As many more indices as asked for, each the smallest that is still free. -/
def fill (used : List Nat) : Nat → List Nat
  | 0 => []
  | count + 1 => smallestFree used :: fill (smallestFree used :: used) count

/-- The smallest index above the given one that is in range and not in use. -/
def nextFree (bound : Nat) (used : List Nat) (index : Nat) : Option Nat :=
  (List.range' (index + 1) (bound - (index + 1))).find? (· ∉ used)

/-- The next sequence of indices, given those in use before it. -/
def successor (bound : Nat) (used : List Nat) : List Nat → Option (List Nat)
  | [] => none
  | index :: rest =>
    match successor bound (index :: used) rest with
    | some rest => some (index :: rest)
    | none => (nextFree bound used index).map fun index => index :: fill (index :: used) rest.length

/-- Moves on to the next selection, or ends at the last one. -/
def advance (selection : Selection) : Selection :=
  if selection.ended then selection
  else match successor selection.bound [] selection.indices with
    | some indices => { selection with indices }
    | none => { selection with ended := true }

/-- Moves several selections on as one, the last one first. -/
def advanceAll : List Selection → Option (List Selection)
  | [] => none
  | selection :: rest =>
    match advanceAll rest with
    | some rest => some (selection :: rest)
    | none =>
      let next := selection.advance
      if next.ended then none else some (next :: rest.map reset)

/-- A bound on the number of selections: every position holds an index below the bound. -/
def countBound (selection : Selection) : Nat := Nat.pow selection.bound selection.indices.length

end Selection

end Coverability
