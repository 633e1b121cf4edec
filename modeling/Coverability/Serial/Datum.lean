import Coverability.Table

/-! Plain trees of values, in which graphs, rules and settings are written down. Reading is
strict about types and lenient about fields: a record may have fields that nobody asked for, and
a list can stand for a record if it gives the values in the order of the fields. -/

namespace Coverability

inductive Datum where
  | null
  | bool (value : Bool)
  /-- A number that fits in 64 bits and is written without a sign, a point or an exponent. -/
  | natural (value : Nat)
  | otherNumber
  | text (value : String)
  | list (items : List Datum)
  | record (fields : List (String × Datum))
deriving Inhabited

namespace Datum

def bool? : Datum → Option Bool
  | bool value => some value
  | _ => none

def natural? : Datum → Option Nat
  | natural value => some value
  | _ => none

def text? : Datum → Option String
  | text value => some value
  | _ => none

def list? {α : Type} (item? : Datum → Option α) : Datum → Option (List α)
  | list items => items.mapM item?
  | _ => none

/-- The values of the named fields, in the order of the names. -/
def fields? (names : List String) : Datum → Option (List Datum)
  | record fields => names.mapM (List.lookup · fields)
  | list items => if items.length = names.length then some items else none
  | _ => none

/-- The values of the named fields where they are given. A list may stop early. -/
def optionalFields? (names : List String) : Datum → Option (List (Option Datum))
  | record fields => some (names.map (List.lookup · fields))
  | list items =>
    if items.length ≤ names.length then some ((List.range names.length).map fun position => items[position]?) else none
  | _ => none

/-- Reads decimal digits without a leading zero. -/
def numeral? (digits : String) : Option Nat :=
  digits.toNat?.filter fun number => toString number = digits && number < wordRange

/-- The entries of a record as a table. -/
def table? {κ α : Type} [Ord κ] [Std.TransOrd κ] [Std.LawfulEqOrd κ]
    (key? : String → Option κ) (value? : Datum → Option α) : Datum → Option (Table κ α)
  | record fields => (fields.mapM fun field => (key? field.1).bind fun key => (value? field.2).map (key, ·)).map .ofList
  | _ => none

def ofTable {κ α : Type} [Ord κ] (key : κ → String) (value : α → Datum) (table : Table κ α) : Datum :=
  record (table.entries.map fun entry => (key entry.1, value entry.2))

end Datum

variable {kind : Kind}

def Id.datum (id : Id kind) : Datum := .natural id.number

def Id.ofDatum? (datum : Datum) : Option (Id kind) := datum.natural?.map Id.mk

/-- An identifier as the key of a record. -/
def Id.key (id : Id kind) : String := toString id.number

def Id.ofKey? (key : String) : Option (Id kind) := (Datum.numeral? key).map Id.mk

/-- A map between identifiers as a record. -/
def Datum.ofIdMap (table : Table (Id kind) (Id kind)) : Datum := ofTable Id.key Id.datum table

def Datum.idMap? : Datum → Option (Table (Id kind) (Id kind)) := table? Id.ofKey? Id.ofDatum?

end Coverability
