/-! Identifiers are numbers tagged with the kind of thing they name, so a vertex is never
taken for an edge. They are ordered by number, and every listing in this library follows
that order. -/

namespace Coverability

/-- How many numbers 64 bits can tell apart. Identifiers, counts and times that are stored are
numbers below it. -/
def wordRange : Nat := 0x10000000000000000

inductive Kind where
  | vertex
  | edge
  | graph

structure Id (kind : Kind) where
  number : Nat
deriving DecidableEq

abbrev VertexId := Id .vertex

abbrev EdgeId := Id .edge

/-- Identifies a whole graph within one analysis. -/
abbrev GraphId := Id .graph

variable {kind : Kind}

instance : Inhabited (Id kind) := ⟨⟨0⟩⟩

instance : LawfulBEq (Id kind) := inferInstance

instance : Ord (Id kind) := ⟨compareOn Id.number⟩

instance : Std.TransOrd (Id kind) := inferInstanceAs (Std.TransCmp (compareOn Id.number))

theorem Id.compare_eq (a b : Id kind) : compare a b = compare a.number b.number := rfl

theorem Id.compare_lt_iff {a b : Id kind} : compare a b = .lt ↔ a.number < b.number := by
  rw [Id.compare_eq, Nat.compare_eq_lt]

instance : Std.LawfulEqOrd (Id kind) where
  compare_self := by simp
  eq_of_compare := by
    intro a b same
    rw [Id.compare_eq, Std.LawfulEqCmp.compare_eq_iff_eq] at same
    cases a
    cases b
    exact congrArg Id.mk same

/-- The letter that tells the kinds apart in messages and logs. -/
def Kind.mark : Kind → String
  | .vertex => "v"
  | .edge => "e"
  | .graph => "#"

def Id.text (id : Id kind) : String := kind.mark ++ toString id.number

end Coverability
