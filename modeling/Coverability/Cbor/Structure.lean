import Coverability.Cbor.Item

/-! Structures and alternatives as items. A structure is a map from the names of its fields, or an
array of their values in order. An alternative with fields is a map with one entry, whose key
is the name of the alternative, or an array of the name and the fields; one without fields is just
its name. A name may be given by its position among the names instead. -/

namespace Coverability.Cbor.Item
open Text

def natural? (item : Item) : Option Nat :=
  match item.untagged with
  | unsigned value => some value
  | _ => none

/-- A text, which may be given by its bytes. -/
def text? (item : Item) : Option String :=
  match item.untagged with
  | text content => some content
  | bytes content => ofUtf8? content
  | _ => none

def array? {α : Type} (item? : Item → Option α) (item : Item) : Option (List α) :=
  match item.untagged with
  | array items => items.mapM item?
  | _ => none

def isNull (item : Item) : Bool :=
  match item.untagged with
  | null => true
  | _ => false

/-- The name that an item stands for, if it stands for one of the names. Items that can stand for
no name at all are refused. -/
def name? (names : List String) (item : Item) : Option (Option String) :=
  match item.untagged with
  | unsigned position => some names[position]?
  | text content => some (names.find? fun name => name = content)
  | bytes content => some (names.find? fun name => utf8 name = content)
  | _ => none

/-- The values of the named fields, in the order of the names. No field may be missing or given
twice, and fields with other names do not count. -/
def fields? (names : List String) (item : Item) : Option (List Item) :=
  match item.untagged with
  | array items => if items.length = names.length then some items else none
  | map _ entries => do
    let named ← entries.mapM fun entry => (entry.1.name? names).map (·, entry.2)
    let known := named.filterMap fun entry => entry.1.map (·, entry.2)
    if (known.map Prod.fst).Nodup then names.mapM (List.lookup · known) else none
  | _ => none

/-- The name of an alternative with fields, and the item that holds the fields. -/
def alternative? (names : List String) (item : Item) : Option (String × Item) :=
  match item with
  | array [name, content] | map true [(name, content)] => (name.name? names).join.map (·, content)
  | _ => none

/-- The name of an alternative without fields. -/
def plainAlternative? (names : List String) (item : Item) : Option String :=
  match item with
  | array [name] => (name.name? names).join
  | map true [(name, content)] => if content.isNull then (name.name? names).join else none
  | item => (item.name? names).join

/-- A structure with named fields. -/
def ofFields (fields : List (String × Item)) : Item := map true (fields.map fun field => (text field.1, field.2))

/-- An alternative with named fields. -/
def ofAlternative (name : String) (fields : List (String × Item)) : Item := ofFields [(name, ofFields fields)]

end Coverability.Cbor.Item
