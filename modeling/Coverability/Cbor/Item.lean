import Coverability.Cbor.Head

/-! Items of the concise binary object representation. Reading puts every head at its place in
the innermost container that is still open, so one pass over the heads builds the item. Writing
uses the shortest head and gives every length. -/

namespace Coverability.Cbor
open Text

inductive Item where
  | unsigned (value : Nat)
  /-- The number that lies one more than the value below zero. -/
  | negative (value : Nat)
  | bytes (content : Bytes)
  | text (content : String)
  | array (items : List Item)
  /-- `short` tells whether the number of entries is part of the first byte. -/
  | map (short : Bool) (entries : List (Item × Item))
  | tagged (number : Nat) (content : Item)
  | bool (value : Bool)
  | null
  | float (content : Bytes)
deriving Inhabited

namespace Item

/-- The item without its tags. -/
def untagged : Item → Item
  | tagged _ content => content.untagged
  | item => item

/-- Keys and values alternate; a key without a value is refused. -/
def pairs? : List Item → Option (List (Item × Item))
  | [] => some []
  | key :: value :: rest => (pairs? rest).map ((key, value) :: ·)
  | [_] => none

/-- What a sequence of items is going to be. -/
inductive Shape where
  | array
  | map (short : Bool)
  | tagged (number : Nat)
  | byteChunks
  | textChunks
deriving DecidableEq

/-- The item that a complete sequence makes. -/
def ofShape? (shape : Shape) (items : List Item) : Option Item :=
  match shape with
  | .array => some (array items)
  | .map short => (pairs? items).map (map short)
  | .tagged number => items.head?.map (tagged number)
  | .byteChunks => some (bytes (items.flatMap chunk))
  | .textChunks => (ofUtf8? (items.flatMap chunk)).map text
where
  chunk : Item → Bytes
    | bytes content => content
    | _ => []

/-- A container that is not complete yet. -/
structure Frame where
  shape : Shape
  /-- How many items are missing, unless a stop ends the container. -/
  missing : Option Nat
  /-- The items so far, the last one first. -/
  items : List Item := []

def Frame.push (frame : Frame) (item : Item) : Frame :=
  { frame with missing := frame.missing.map (· - 1), items := item :: frame.items }

def Frame.close? (frame : Frame) : Option Item := ofShape? frame.shape frame.items.reverse

/-- How far reading has come: the open containers, the innermost first, or the whole item. -/
inductive Progress where
  | reading (frames : List Frame)
  | done (item : Item)

/-- Containers and tags may lie this deep in each other. -/
def depthLimit : Nat := 127

/-- Adds an item to the innermost container, and closes the containers that it completes. -/
def place? (item : Item) : List Frame → Option Progress
  | [] => some (.done item)
  | frame :: outer =>
    let frame := frame.push item
    if frame.missing = some 0 then frame.close?.bind fun item => place? item outer
    else some (.reading (frame :: outer))

def enter? (shape : Shape) (count : Option Nat) (frames : List Frame) : Option Progress :=
  if frames.length < depthLimit then
    if count = some 0 then (ofShape? shape []).bind fun item => place? item frames
    else some (.reading (⟨shape, count, []⟩ :: frames))
  else none

/-- Ends the innermost container, which has to be one that waits for a stop. -/
def stop? : List Frame → Option Progress
  | [] => none
  | frame :: outer => if frame.missing.isSome then none else frame.close?.bind fun item => place? item outer

/-- Reads one more head outside of strings. -/
def readHead? (frames : List Frame) : Head → Option Progress
  | .unsigned value => place? (unsigned value) frames
  | .negative value => place? (negative value) frames
  | .bytes content => place? (bytes content) frames
  | .text content => (ofUtf8? content).bind fun content => place? (text content) frames
  | .openBytes => some (.reading (⟨.byteChunks, none, []⟩ :: frames))
  | .openText => some (.reading (⟨.textChunks, none, []⟩ :: frames))
  | .array count => enter? .array count frames
  | .map count short => enter? (.map short) (count.map (2 * ·)) frames
  | .tag number => enter? (.tagged number) (some 1) frames
  | .bool value => place? (bool value) frames
  | .null => place? null frames
  | .float content => place? (float content) frames
  | .stop => stop? frames

/-- Reads one more head. Inside a string just chunks of its kind and the stop are allowed. -/
def Progress.read? : Progress → Head → Option Progress
  | .done _, _ => none
  | .reading frames, head =>
    match frames.head?.map Frame.shape, head with
    | some .byteChunks, .bytes content => place? (bytes content) frames
    | some .textChunks, .text content => place? (bytes content) frames
    | some .byteChunks, .stop | some .textChunks, .stop => stop? frames
    | some .byteChunks, _ | some .textChunks, _ => none
    | _, _ => readHead? frames head

/-- The item that a sequence of bytes stands for as a whole. -/
def ofBytes? (bytes : Bytes) : Option Item := do
  let heads ← Head.readAll? bytes
  match ← heads.foldlM Progress.read? (.reading []) with
  | .done item => some item
  | .reading _ => none

/-- A head with its argument in the fewest bytes. -/
def headBytes (major argument : Nat) : Bytes :=
  let first := fun (info : Nat) => (32 * major + info).toUInt8
  if argument < 24 then [first argument]
  else if argument < 0x100 then first 24 :: bigEndian 1 argument
  else if argument < 0x10000 then first 25 :: bigEndian 2 argument
  else if argument < 0x100000000 then first 26 :: bigEndian 4 argument
  else first 27 :: bigEndian 8 argument

mutual

def toBytes : Item → Bytes
  | unsigned value => headBytes 0 value
  | negative value => headBytes 1 value
  | bytes content => headBytes 2 content.length ++ content
  | text content => headBytes 3 (utf8 content).length ++ utf8 content
  | array items => headBytes 4 items.length ++ itemBytes items
  | map _ entries => headBytes 5 entries.length ++ entryBytes entries
  | tagged number content => headBytes 6 number ++ content.toBytes
  | bool false => headBytes 7 20
  | bool true => headBytes 7 21
  | null => headBytes 7 22
  | float content => (32 * 7 + 24 + content.length.log2).toUInt8 :: content

def itemBytes : List Item → Bytes
  | [] => []
  | item :: rest => item.toBytes ++ itemBytes rest

def entryBytes : List (Item × Item) → Bytes
  | [] => []
  | (key, value) :: rest => key.toBytes ++ value.toBytes ++ entryBytes rest

end

end Item

end Coverability.Cbor
