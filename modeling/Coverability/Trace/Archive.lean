import Coverability.Cbor.Structure
import Coverability.Fault
import Coverability.Trace.Sink

/-! The archived form of event logs, and folders that logs are kept in. -/

namespace Coverability
open Cbor Text

namespace Digest

def item (digest : Digest) : Item := .array (digest.toList.map fun byte => .unsigned byte.toNat)

/-- A digest consists of exactly 32 bytes, which are written as numbers. -/
def ofItem? (item : Item) : Option Digest := do
  let values ← item.array? Item.natural?
  if values.length = 32 ∧ values.all (· < 256) then some (.ofBytes (values.map Nat.toUInt8)) else none

end Digest

namespace GraphRef

def item (graph : GraphRef) : Item := .ofFields [("id", .unsigned graph.id.number), ("digest", graph.digest.item)]

def ofItem? (item : Item) : Option GraphRef :=
  match item.fields? ["id", "digest"] with
  | some [id, digest] => do return { id := ⟨← id.natural?⟩, digest := ← Digest.ofItem? digest }
  | _ => none

end GraphRef

namespace Status

def item : Status → Item
  | converged => .text "Converged"
  | covered graph initial =>
    .ofAlternative "InitialGraphCovered" [("graph", .unsigned graph.number), ("initial", .unsigned initial)]
  | timedOut => .text "TimedOut"

def alternatives : List String := ["Converged", "InitialGraphCovered", "TimedOut"]

/-- Reads the alternative that has fields. -/
def ofFields? (item : Item) : Option Status := do
  match ← item.alternative? alternatives with
  | ("InitialGraphCovered", content) =>
    match ← content.fields? ["graph", "initial"] with
    | [graph, initial] => return .covered ⟨← graph.natural?⟩ (← initial.natural?)
    | _ => none
  | _ => none

def ofItem? (item : Item) : Option Status :=
  match item.plainAlternative? alternatives with
  | some "Converged" => some converged
  | some "TimedOut" => some timedOut
  | _ => ofFields? item

end Status

namespace Event

def item : Event → Item
  | prepared name standard quantified =>
    .ofAlternative "PreparedGts"
      [("name", .text name), ("standard", .unsigned standard), ("quantified", .unsigned quantified)]
  | errorGraph graph => .ofAlternative "ErrorGraph" [("graph", graph.item)]
  | generated graph source rule =>
    .ofAlternative "Generated" [("graph", graph.item), ("from", source.item), ("rule", .text rule)]
  | deleted graph because => .ofAlternative "Deleted" [("graph", graph.item), ("because", because.item)]
  | skipped graph => .ofAlternative "Skipped" [("graph", graph.item)]
  | roundStarted round => .ofAlternative "RoundStarted" [("round", .unsigned round)]
  | roundFinished round newGraphs =>
    .ofAlternative "RoundFinished" [("round", .unsigned round), ("new_graphs", .unsigned newGraphs)]
  | finished status => .ofAlternative "Finished" [("status", status.item)]

def alternatives : List String :=
  ["PreparedGts", "ErrorGraph", "Generated", "Deleted", "Skipped", "RoundStarted", "RoundFinished", "Finished"]

/-- The names of the fields of an alternative. -/
def fieldNames : String → List String
  | "PreparedGts" => ["name", "standard", "quantified"]
  | "ErrorGraph" | "Skipped" => ["graph"]
  | "Generated" => ["graph", "from", "rule"]
  | "Deleted" => ["graph", "because"]
  | "RoundStarted" => ["round"]
  | "RoundFinished" => ["round", "new_graphs"]
  | _ => ["status"]

def ofItem? (item : Item) : Option Event := do
  let (name, content) ← item.alternative? alternatives
  let fields ← content.fields? (fieldNames name)
  match name, fields with
  | "PreparedGts", [name, standard, quantified] =>
    return .prepared (← name.text?) (← standard.natural?) (← quantified.natural?)
  | "ErrorGraph", [graph] => return .errorGraph (← GraphRef.ofItem? graph)
  | "Generated", [graph, source, rule] =>
    return .generated (← GraphRef.ofItem? graph) (← GraphRef.ofItem? source) (← rule.text?)
  | "Deleted", [graph, because] => return .deleted (← GraphRef.ofItem? graph) (← GraphRef.ofItem? because)
  | "Skipped", [graph] => return .skipped (← GraphRef.ofItem? graph)
  | "RoundStarted", [round] => return .roundStarted (← round.natural?)
  | "RoundFinished", [round, newGraphs] => return .roundFinished (← round.natural?) (← newGraphs.natural?)
  | "Finished", [status] => return .finished (← Status.ofItem? status)
  | _, _ => none

end Event

/-- Files by name. Folders in the folder are not modelled. -/
structure Folder where
  files : Table String Bytes := ∅

/-- Whether a file of this name can be kept in a folder itself: the name is a single part of a
path, of at most 255 bytes, and no name that every folder has. A leading part that names the
folder itself makes no difference. -/
def Folder.admits (name : String) : Bool :=
  match (name.splitOn "/").dropWhile (· == ".") with
  | [part] => part ∉ ["", ".", ".."] && '\x00' ∉ part.toList && (utf8 part).length ≤ 255
  | _ => false

namespace EventLog

def item (log : EventLog) : Item := .ofFields [("events", .array (log.events.toList.map Event.item))]

def ofItem? (item : Item) : Option EventLog :=
  match item.fields? ["events"] with
  | some [events] => (events.array? Event.ofItem?).map fun events => ⟨events.toArray⟩
  | _ => none

def toBytes (log : EventLog) : Bytes := log.item.toBytes

def ofBytes? (bytes : Bytes) : Option EventLog := (Item.ofBytes? bytes).bind ofItem?

def ofBytes (bytes : Bytes) : Except Fault EventLog :=
  match ofBytes? bytes with
  | some log => .ok log
  | none => .error (.undecodableLog "not an event log")

def save (log : EventLog) (folder : Folder) (name : String) : Except Fault Folder :=
  if Folder.admits name then .ok { folder with files := folder.files.insert name log.toBytes }
  else .error (.uncreatedFile name)

def load (folder : Folder) (name : String) : Except Fault EventLog :=
  match folder.files.get? name with
  | none => .error (.unopenedFile name)
  | some bytes =>
    match ofBytes? bytes with
    | some log => .ok log
    | none => .error (.unreadableFile name)

end EventLog

end Coverability
