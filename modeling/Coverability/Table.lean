import Coverability.Id

/-! Finite maps as association lists in ascending key order. The order is part of the type,
so two tables with the same lookups are the same table, and listing a table always starts
from the smallest key. -/

namespace Coverability

structure Table (κ α : Type) [Ord κ] where
  entries : List (κ × α)
  ascending : entries.Pairwise fun first second => compare first.1 second.1 = .lt
deriving DecidableEq

namespace Table

variable {κ α β : Type} [Ord κ]

def empty : Table κ α := ⟨[], .nil⟩

instance : EmptyCollection (Table κ α) := ⟨empty⟩

instance : Inhabited (Table κ α) := ⟨empty⟩

def size (table : Table κ α) : Nat := table.entries.length

def isEmpty (table : Table κ α) : Bool := table.entries.isEmpty

/-- The keys, ascending. -/
def keys (table : Table κ α) : List κ := table.entries.map Prod.fst

/-- The values, in the order of their keys. -/
def values (table : Table κ α) : List α := table.entries.map Prod.snd

/-- Looks a key up among ascending entries, giving up at the first larger key. -/
def lookup (key : κ) : List (κ × α) → Option α
  | [] => none
  | entry :: rest =>
    match compare key entry.1 with
    | .lt => none
    | .eq => some entry.2
    | .gt => lookup key rest

def get? (table : Table κ α) (key : κ) : Option α := lookup key table.entries

def getD (table : Table κ α) (key : κ) (fallback : α) : α := (table.get? key).getD fallback

def contains (table : Table κ α) (key : κ) : Bool := (table.get? key).isSome

/-- Puts an entry at its place among ascending entries, over an entry with the same key. -/
def place (key : κ) (value : α) : List (κ × α) → List (κ × α)
  | [] => [(key, value)]
  | entry :: rest =>
    match compare key entry.1 with
    | .lt => (key, value) :: entry :: rest
    | .eq => (key, value) :: rest
    | .gt => entry :: place key value rest

theorem mem_place {key : κ} {value : α} {entries : List (κ × α)} {entry : κ × α}
    (member : entry ∈ place key value entries) : entry = (key, value) ∨ entry ∈ entries := by
  induction entries with
  | nil => exact .inl (List.mem_singleton.mp member)
  | cons first rest ih =>
    unfold place at member
    split at member
    · simpa using member
    · rcases List.mem_cons.mp member with same | inside
      · exact .inl same
      · exact .inr (List.mem_cons_of_mem _ inside)
    · rcases List.mem_cons.mp member with same | inside
      · exact .inr (same ▸ List.mem_cons_self)
      · exact (ih inside).imp_right (List.mem_cons_of_mem _)

theorem place_ascending [Std.TransOrd κ] [Std.LawfulEqOrd κ] {key : κ} {value : α} {entries : List (κ × α)}
    (sorted : entries.Pairwise fun first second => compare first.1 second.1 = .lt) :
    (place key value entries).Pairwise fun first second => compare first.1 second.1 = .lt := by
  induction entries with
  | nil => exact List.pairwise_singleton _ _
  | cons first rest ih =>
    obtain ⟨below, sortedRest⟩ := List.pairwise_cons.mp sorted
    unfold place
    split
    next less =>
      refine List.pairwise_cons.mpr ⟨?_, sorted⟩
      intro other member
      rcases List.mem_cons.mp member with same | inside
      · exact same ▸ less
      · exact Std.TransCmp.lt_trans less (below other inside)
    next same =>
      have equal := Std.LawfulEqCmp.compare_eq_iff_eq.mp same
      exact List.pairwise_cons.mpr ⟨fun other member => equal ▸ below other member, sortedRest⟩
    next greater =>
      refine List.pairwise_cons.mpr ⟨?_, ih sortedRest⟩
      intro other member
      rcases mem_place member with same | inside
      · exact same ▸ Std.OrientedCmp.gt_iff_lt.mp greater
      · exact below other inside

def erase [DecidableEq κ] (table : Table κ α) (key : κ) : Table κ α :=
  ⟨table.entries.filter fun entry => entry.1 ≠ key, table.ascending.filter _⟩

/-- Keeps the keys and changes every value. -/
def mapValues (change : κ → α → β) (table : Table κ α) : Table κ β :=
  ⟨table.entries.map fun entry => (entry.1, change entry.1 entry.2), by
    rw [List.pairwise_map]
    exact table.ascending⟩

def modify [DecidableEq κ] (table : Table κ α) (key : κ) (change : α → α) : Table κ α :=
  table.mapValues fun other value => if other = key then change value else value

variable [Std.TransOrd κ] [Std.LawfulEqOrd κ]

def insert (table : Table κ α) (key : κ) (value : α) : Table κ α :=
  ⟨place key value table.entries, place_ascending table.ascending⟩

/-- Later entries replace earlier ones with the same key. -/
def insertAll (table : Table κ α) (entries : List (κ × α)) : Table κ α :=
  entries.foldl (fun built entry => built.insert entry.1 entry.2) table

def ofList (entries : List (κ × α)) : Table κ α := insertAll empty entries

/-- Collects the values that are listed under one key, in the order of the list. -/
def group (entries : List (κ × α)) : Table κ (List α) :=
  entries.foldr (fun entry built => built.insert entry.1 (entry.2 :: built.getD entry.1 [])) empty

/-- The members of a list in ascending order, each once. -/
def distinct (members : List κ) : List κ := (ofList (members.map fun member => (member, ()))).keys

end Table

end Coverability
