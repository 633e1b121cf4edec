/-! Partitions of a list of identifiers, in lexicographic order. A partition numbers the
blocks by their first members, so that the number of a block exceeds the numbers before it by
at most one. The first partition has a single block, the last one a block for every member. -/

namespace Coverability

structure Partition (α : Type) where
  ids : List α
  /-- The number of the block at every position. -/
  blocks : List Nat
  ended : Bool
deriving DecidableEq

namespace Partition

variable {α : Type}

def first (ids : List α) : Partition α := ⟨ids, ids.map fun _ => 0, false⟩

/-- Keeps the blocks of the positions before the given one and restarts the others. -/
def resetFrom (partition : Partition α) (position : Nat) : Partition α :=
  { partition with
    blocks := partition.blocks.take position ++ (partition.blocks.drop position).map fun _ => 0
    ended := false }

/-- The first position in the block of the given one. -/
def representative (partition : Partition α) (position : Nat) : Nat :=
  match partition.blocks[position]? with
  | some block => partition.blocks.idxOf block
  | none => position

def blockCount (partition : Partition α) : Nat :=
  match partition.blocks.max? with
  | some last => last + 1
  | none => 0

/-- The next numbering behind a position whose largest block number so far is `top`, where only
the next few positions are taken to the next number and all behind them start over. -/
def successor (top : Nat) : Nat → List Nat → Option (List Nat)
  | 0, _ => none
  | _, [] => none
  | reach + 1, block :: rest =>
    match successor (max top block) reach rest with
    | some rest => some (block :: rest)
    | none => if block ≤ top then some ((block + 1) :: rest.map fun _ => 0) else none

/-- Skips every partition that agrees with this one up to the position, or ends. -/
def advanceAt (partition : Partition α) (position : Nat) : Partition α :=
  if partition.ended then partition
  else match partition.blocks with
    | [] => { partition with ended := true }
    | block :: rest =>
      match successor block position rest with
      | some rest => { partition with blocks := block :: rest }
      | none => { partition with ended := true }

def advance (partition : Partition α) : Partition α := partition.advanceAt (partition.ids.length - 1)

/-- The positions that are not the first in their block, each with the first member of the
block and the member at the position. -/
def joins (partition : Partition α) : List (Nat × α × α) :=
  (List.range' 1 (partition.ids.length - 1)).filterMap fun position =>
    let representative := partition.representative position
    match partition.ids[representative]?, partition.ids[position]? with
    | some earlier, some member => if representative = position then none else some (position, earlier, member)
    | _, _ => none

/-- Advances the partition with the given index at a position. When it has ended, the one
before it advances; all behind the one that advances start over. -/
def skipAhead : List (Partition α) → Nat → Nat → Option (List (Partition α))
  | [], _, _ => none
  | partition :: rest, 0, position =>
    let next := partition.advanceAt position
    if next.ended then none else some (next :: rest.map (·.resetFrom 0))
  | partition :: rest, index + 1, position =>
    match skipAhead rest index position with
    | some rest => some (partition :: rest)
    | none =>
      let next := partition.advance
      if next.ended then none else some (next :: rest.map (·.resetFrom 0))

/-- A bound on the number of partitions: every block number lies below the number of members. -/
def countBound (partition : Partition α) : Nat := Nat.pow partition.ids.length partition.ids.length

end Partition

end Coverability
