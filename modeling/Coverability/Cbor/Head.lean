import Coverability.Text.Bytes

/-! The concise binary object representation, cut into heads. A head starts with a byte whose
upper three bits are its major type; the lower five are an argument or tell how many bytes of
argument follow. Containers contribute just the head that opens them. -/

namespace Coverability.Cbor
open Text

inductive Head where
  | unsigned (value : Nat)
  /-- The number that lies one more than the value below zero. -/
  | negative (value : Nat)
  | bytes (content : Bytes)
  /-- The content need not be valid text, since a text may be cut within a character. -/
  | text (content : Bytes)
  /-- A byte string in chunks, up to the next stop. -/
  | openBytes
  /-- A text in chunks, up to the next stop. -/
  | openText
  /-- Without a count the items go on up to a stop. -/
  | array (count : Option Nat)
  /-- `short` tells whether the count is part of the first byte. -/
  | map (count : Option Nat) (short : Bool)
  | tag (number : Nat)
  | bool (value : Bool)
  | null
  | float (content : Bytes)
  | stop
deriving DecidableEq

/-- The given number of bytes and the rest. -/
def split? (count : Nat) (bytes : Bytes) : Option (Bytes × Bytes) :=
  if count ≤ bytes.length then some (bytes.take count, bytes.drop count) else none

/-- The argument that the lower bits of a first byte stand for, and the rest. -/
def argument? (info : Nat) (bytes : Bytes) : Option (Nat × Bytes) :=
  if info < 24 then some (info, bytes)
  else if info < 28 then (split? (1 <<< (info - 24)) bytes).map (Prod.map ofBigEndian id)
  else none

/-- The lower bits of a first byte that opens something without a length. -/
def openEnded : Nat := 31

namespace Head

/-- The content of a string whose length is the argument. -/
def content? (info : Nat) (bytes : Bytes) : Option (Bytes × Bytes) :=
  (argument? info bytes).bind fun (length, rest) => split? length rest

/-- The number of items of a container, if it is given. -/
def count? (info : Nat) (bytes : Bytes) : Option (Option Nat × Bytes) :=
  if info = openEnded then some (none, bytes)
  else (argument? info bytes).map (Prod.map some id)

/-- Heads of the last major type, which carry no argument. -/
def simple? (info : Nat) (bytes : Bytes) : Option (Head × Bytes) :=
  match info with
  | 20 => some (bool false, bytes)
  | 21 => some (bool true, bytes)
  | 22 | 23 => some (null, bytes)
  | 25 => (split? 2 bytes).map (Prod.map float id)
  | 26 => (split? 4 bytes).map (Prod.map float id)
  | 27 => (split? 8 bytes).map (Prod.map float id)
  | 31 => some (stop, bytes)
  | _ => none

def ofMajor? (major info : Nat) (bytes : Bytes) : Option (Head × Bytes) :=
  match major with
  | 0 => (argument? info bytes).map (Prod.map unsigned id)
  | 1 => (argument? info bytes).map (Prod.map negative id)
  | 2 => if info = openEnded then some (openBytes, bytes) else (content? info bytes).map (Prod.map Head.bytes id)
  | 3 => if info = openEnded then some (openText, bytes) else (content? info bytes).map (Prod.map text id)
  | 4 => (count? info bytes).map (Prod.map array id)
  | 5 => (count? info bytes).map (Prod.map (map · (info < 24)) id)
  | 6 => (argument? info bytes).map (Prod.map tag id)
  | _ => simple? info bytes

def read? : Bytes → Option (Head × Bytes)
  | [] => none
  | first :: rest => ofMajor? (first.toNat / 32) (first.toNat % 32) rest

end Head

/-- Changing what was found leaves the rest as it is. -/
theorem length_of_map {α β : Type} {wrap : α → β} {outcome : Option (α × Bytes)} {value : β} {rest bytes : Bytes}
    (shorter : ∀ value rest, outcome = some (value, rest) → rest.length ≤ bytes.length)
    (found : outcome.map (Prod.map wrap id) = some (value, rest)) : rest.length ≤ bytes.length := by
  obtain ⟨⟨inner, others⟩, given, same⟩ := Option.map_eq_some_iff.mp found
  exact (Prod.mk.inj same).2 ▸ shorter inner others given

theorem split?_length {count : Nat} {bytes content rest : Bytes} (found : split? count bytes = some (content, rest)) :
    rest.length ≤ bytes.length := by
  grind [split?]

theorem argument?_length {info value : Nat} {bytes rest : Bytes} (found : argument? info bytes = some (value, rest)) :
    rest.length ≤ bytes.length := by
  unfold argument? at found
  split at found
  · grind
  · split at found
    · exact length_of_map (fun _ _ => split?_length) found
    · grind

namespace Head

theorem content?_length {info : Nat} {bytes content rest : Bytes} (found : content? info bytes = some (content, rest)) :
    rest.length ≤ bytes.length := by
  obtain ⟨⟨length, between⟩, argument, split⟩ := Option.bind_eq_some_iff.mp found
  exact Nat.le_trans (split?_length split) (argument?_length argument)

theorem count?_length {info : Nat} {count : Option Nat} {bytes rest : Bytes}
    (found : count? info bytes = some (count, rest)) : rest.length ≤ bytes.length := by
  unfold count? at found
  split at found
  · grind
  · exact length_of_map (fun _ _ => argument?_length) found

theorem simple?_length {info : Nat} {bytes rest : Bytes} {head : Head}
    (found : simple? info bytes = some (head, rest)) : rest.length ≤ bytes.length := by
  have unchanged : ∀ {head' : Head}, some (head', bytes) = some (head, rest) → rest.length ≤ bytes.length := by
    grind
  unfold simple? at found
  split at found
  · exact unchanged found
  · exact unchanged found
  · exact unchanged found
  · exact unchanged found
  · exact length_of_map (fun _ _ => split?_length) found
  · exact length_of_map (fun _ _ => split?_length) found
  · exact length_of_map (fun _ _ => split?_length) found
  · exact unchanged found
  · exact nomatch found

theorem ofMajor?_length {major info : Nat} {bytes rest : Bytes} {head : Head}
    (found : ofMajor? major info bytes = some (head, rest)) : rest.length ≤ bytes.length := by
  have strings : ∀ {opening : Head} {wrap : Bytes → Head},
      (if info = openEnded then some (opening, bytes) else (content? info bytes).map (Prod.map wrap id)) =
        some (head, rest) → rest.length ≤ bytes.length := by
    intro opening wrap given
    split at given
    · grind
    · exact length_of_map (fun _ _ => content?_length) given
  unfold ofMajor? at found
  split at found
  · exact length_of_map (fun _ _ => argument?_length) found
  · exact length_of_map (fun _ _ => argument?_length) found
  · exact strings found
  · exact strings found
  · exact length_of_map (fun _ _ => count?_length) found
  · exact length_of_map (fun _ _ => count?_length) found
  · exact length_of_map (fun _ _ => argument?_length) found
  · exact simple?_length found

/-- Every head takes at least its first byte. -/
theorem read?_length {bytes rest : Bytes} {head : Head} (found : read? bytes = some (head, rest)) :
    rest.length < bytes.length := by
  cases bytes with
  | nil => simp [read?] at found
  | cons first others => exact Nat.lt_succ_of_le (ofMajor?_length found)

/-- All heads of a sequence of bytes. -/
def readAll? (bytes : Bytes) : Option (List Head) :=
  if bytes.isEmpty then some []
  else match _ : read? bytes with
    | none => none
    | some (head, rest) => (readAll? rest).map (head :: ·)
termination_by bytes.length
decreasing_by exact read?_length ‹_›

end Head

end Coverability.Cbor
