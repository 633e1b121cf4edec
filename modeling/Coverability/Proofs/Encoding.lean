import Coverability.Hypergraph.Fingerprint
import Coverability.Proofs.Operations
import Mathlib.Algebra.Ring.Nat

/-! The encoding that is hashed for a fingerprint leaves nothing open. Each part says itself where
it ends, be it of fixed width or preceded by its length, so parts can be read off one after another
and two graphs with one encoding have the same vertices and the same edges. What the graphs are
called, and which identifier comes next, is not encoded. -/

namespace Coverability
open Text

/-- A code that tells where it ends: whatever follows can be told from it. -/
def SelfDelimiting {α : Type} (valid : α → Prop) (code : α → Bytes) : Prop :=
  ∀ first second rest others, valid first → valid second →
    code first ++ rest = code second ++ others →
    first = second ∧ rest = others

/-- Items after one another, preceded by their number. -/
def tallied {α : Type} (code : α → Bytes) (items : List α) : Bytes :=
  littleEndian 8 items.length ++ items.flatMap code

theorem length_littleEndian (width number : Nat) : (littleEndian width number).length = width := by
  induction width generalizing number with
  | zero => rfl
  | succ width ih => rw [littleEndian, List.length_cons, ih]

theorem utf8_injective {first second : String} (same : utf8 first = utf8 second) :
    first = second := by
  apply String.toByteArray_inj.mp
  exact ByteArray.ext (Array.toList_inj.mp same)

namespace SelfDelimiting

variable {α β : Type} {valid : α → Prop} {code : α → Bytes} {accepted : β → Prop} {encode : β → Bytes}

/-- What is told by a part of it can be read where the part can. -/
theorem through (part : SelfDelimiting valid code) (view : β → α)
    (injective : ∀ {one other}, view one = view other → one = other) :
    SelfDelimiting (fun value => valid (view value)) (fun value => code (view value)) := by
  intro first second rest others one other same
  obtain ⟨equal, follows⟩ := part (view first) (view second) rest others one other same
  exact ⟨injective equal, follows⟩

theorem pair (part : SelfDelimiting valid code) (next : SelfDelimiting accepted encode) :
    SelfDelimiting (fun both : α × β => valid both.1 ∧ accepted both.2)
      (fun both => code both.1 ++ encode both.2) := by
  intro first second rest others one other same
  rw [List.append_assoc, List.append_assoc] at same
  obtain ⟨left, same⟩ := part first.1 second.1 _ _ one.1 other.1 same
  obtain ⟨right, follows⟩ := next first.2 second.2 _ _ one.2 other.2 same
  exact ⟨Prod.ext left right, follows⟩

theorem number (width : Nat) : SelfDelimiting (· < 256 ^ width) (littleEndian width) := by
  induction width with
  | zero =>
    intro first second rest others small other same
    exact ⟨by omega, same⟩
  | succ width ih =>
    intro first second rest others small other same
    rw [littleEndian, littleEndian, List.cons_append, List.cons_append, List.cons.injEq] at same
    obtain ⟨low, high⟩ := same
    have low : first % 256 = second % 256 := by simpa using congrArg UInt8.toNat low
    obtain ⟨same, follows⟩ := ih (first / 256) (second / 256) rest others (by omega) (by omega) high
    exact ⟨by omega, follows⟩

theorem word : SelfDelimiting (· < wordRange) (littleEndian 8) := number 8

theorem byte : SelfDelimiting (fun _ => True) fun byte : UInt8 => [byte] := by
  intro first second rest others _ _ same
  exact List.cons.inj same

/-- Items that follow one another can be read off if it is known how many there are. -/
theorem items (item : SelfDelimiting valid code) {first second : List α} {rest others : Bytes}
    (count : first.length = second.length) (one : ∀ item ∈ first, valid item)
    (other : ∀ item ∈ second, valid item)
    (same : first.flatMap code ++ rest = second.flatMap code ++ others) :
    first = second ∧ rest = others := by
  induction first generalizing second with
  | nil =>
    cases List.length_eq_zero_iff.mp count.symm
    exact ⟨rfl, same⟩
  | cons head first ih =>
    cases second with
    | nil => cases count
    | cons start second =>
      rw [List.forall_mem_cons] at one other
      rw [List.flatMap_cons, List.flatMap_cons, List.append_assoc, List.append_assoc] at same
      obtain ⟨equal, same⟩ := item head start _ _ one.1 other.1 same
      obtain ⟨tail, follows⟩ := ih (Nat.succ.inj count) one.2 other.2 same
      exact ⟨congrArg₂ List.cons equal tail, follows⟩

theorem list (item : SelfDelimiting valid code) :
    SelfDelimiting (fun items : List α => items.length < wordRange ∧ ∀ item ∈ items, valid item)
      (tallied code) := by
  intro first second rest others one other same
  rw [tallied, tallied, List.append_assoc, List.append_assoc] at same
  obtain ⟨count, same⟩ := word first.length second.length _ _ one.1 other.1 same
  exact items item count one.2 other.2 same

theorem id {kind : Kind} : SelfDelimiting (fun id : Id kind => id.number < wordRange) Id.bytes :=
  word.through Id.number fun same => congrArg Id.mk same

end SelfDelimiting

/-- The domain stands in front of everything, and the length before the data has a fixed width. -/
theorem Digest.preimage_injective {domain data others : Bytes}
    (same : Digest.preimage domain data = Digest.preimage domain others) :
    data = others := by
  simp only [Digest.preimage, List.append_assoc] at same
  have same := List.append_cancel_left (List.append_cancel_left (List.append_cancel_left same))
  have width : (littleEndian 8 data.length).length = (littleEndian 8 others.length).length := by
    rw [length_littleEndian, length_littleEndian]
  exact (List.append_inj same width).2

/-- What is numbered or counted at an edge fits a word of 64 bits. -/
structure Edge.Fits (edge : Edge) : Prop where
  id : edge.id.number < wordRange
  label : (utf8 edge.label).length < wordRange
  arity : edge.arity < wordRange
  vertices : ∀ vertex ∈ edge.vertices, vertex.number < wordRange

theorem Edge.bytes_eq (edge : Edge) :
    edge.bytes =
      edge.id.bytes ++
        (tallied (fun byte => [byte]) (utf8 edge.label) ++ tallied Id.bytes edge.vertices) := by
  simp only [Edge.bytes, Edge.arity, tallied, List.flatMap_singleton', List.append_assoc]

/-- An edge is told by its identifier, the bytes of its label and its vertices. -/
theorem SelfDelimiting.edge : SelfDelimiting Edge.Fits Edge.bytes := by
  intro first second rest others one other same
  rw [Edge.bytes_eq, Edge.bytes_eq] at same
  have told : ∀ {one other : Edge}, (one.id, utf8 one.label, one.vertices) =
      (other.id, utf8 other.label, other.vertices) → one = other := by
    intro one other same
    simp only [Prod.mk.injEq] at same
    obtain ⟨number, content, vertices⟩ := same
    cases one
    exact congr (congr (congrArg Edge.mk number) (utf8_injective content)) vertices
  apply (id.pair (byte.list.pair id.list)).through
    (fun edge : Edge => (edge.id, utf8 edge.label, edge.vertices)) told
    first second rest others _ _ same
  · exact ⟨one.id, ⟨one.label, fun _ _ => trivial⟩, one.arity, one.vertices⟩
  · exact ⟨other.id, ⟨other.label, fun _ _ => trivial⟩, other.arity, other.vertices⟩

namespace Hypergraph

variable {first second graph : Hypergraph}

/-- All identifiers, counts and lengths of labels in a graph fit a word of 64 bits. -/
structure Fits (graph : Hypergraph) : Prop where
  vertexCount : graph.vertexCount < wordRange
  edgeCount : graph.edgeCount < wordRange
  vertices : ∀ vertex ∈ graph.vertexIds, vertex.number < wordRange
  edges : ∀ edge ∈ graph.edgeList, edge.id.number < wordRange ∧
    (utf8 edge.label).length < wordRange ∧ edge.arity < wordRange

instance (graph : Hypergraph) : Decidable graph.Fits :=
  decidable_of_iff (graph.vertexCount < wordRange ∧ graph.edgeCount < wordRange ∧
    (∀ vertex ∈ graph.vertexIds, vertex.number < wordRange) ∧
      ∀ edge ∈ graph.edgeList, edge.id.number < wordRange ∧ (utf8 edge.label).length < wordRange ∧
        edge.arity < wordRange)
    ⟨fun ⟨vertexCount, edgeCount, vertices, edges⟩ => ⟨vertexCount, edgeCount, vertices, edges⟩,
      fun fits => ⟨fits.vertexCount, fits.edgeCount, fits.vertices, fits.edges⟩⟩

theorem Fits.edge (fits : graph.Fits) (formed : graph.WellFormed) :
    ∀ edge ∈ graph.edgeList, edge.Fits := by
  intro edge listed
  obtain ⟨id, label, arity⟩ := fits.edges edge listed
  refine ⟨id, label, arity, ?_⟩
  intro vertex member
  apply fits.vertices
  exact mem_vertexIds.mpr (formed.has_ends (formed.mem_edgeList.mp listed) member)

/-- The text that is hashed for the fingerprint of a graph. -/
def hashed (graph : Hypergraph) : Bytes := Digest.preimage (utf8 "GRAPH_FINGERPRINT") graph.bytes

theorem fingerprint_eq (graph : Hypergraph) : graph.fingerprint = ⟨Sha256.hash graph.hashed⟩ := rfl

theorem bytes_eq (graph : Hypergraph) :
    graph.bytes = tallied Id.bytes graph.vertexIds ++ tallied Edge.bytes graph.edgeList := by
  rw [bytes, tallied, tallied, length_vertexIds, WellFormed.length_edgeList, List.append_assoc]

/-- Both graphs have the same vertices and the same edges, under the same identifiers. -/
def SameParts (first second : Hypergraph) : Prop :=
  first.vertexIds = second.vertexIds ∧ ∀ id, first.edge? id = second.edge? id

theorem bytes_of_sameParts (same : first.SameParts second) : first.bytes = second.bytes := by
  have edges : first.edges = second.edges := Table.eq_of_get? same.2
  rw [bytes_eq, bytes_eq, same.1, edgeList, edgeList, edges]

theorem WellFormed.edge?_iff (formed : graph.WellFormed) {id : EdgeId} {edge : Edge} :
    graph.edge? id = some edge ↔ edge ∈ graph.edgeList ∧ edge.id = id := by
  rw [formed.mem_edgeList]
  constructor
  · intro found
    have named := formed.edge_id found
    exact ⟨named.symm ▸ found, named⟩
  · intro known
    exact known.2 ▸ known.1

theorem sameParts_of_bytes (formedFirst : first.WellFormed) (formedSecond : second.WellFormed)
    (fitsFirst : first.Fits) (fitsSecond : second.Fits) (same : first.bytes = second.bytes) :
    first.SameParts second := by
  have readable : ∀ {graph : Hypergraph}, graph.WellFormed → graph.Fits →
      (graph.vertexIds.length < wordRange ∧ ∀ vertex ∈ graph.vertexIds, vertex.number < wordRange) ∧
        graph.edgeList.length < wordRange ∧ ∀ edge ∈ graph.edgeList, edge.Fits := by
    intro graph formed fits
    rw [length_vertexIds, WellFormed.length_edgeList]
    exact ⟨⟨fits.vertexCount, fits.vertices⟩, fits.edgeCount, fits.edge formed⟩
  have parts :=
    (SelfDelimiting.id.list.pair SelfDelimiting.edge.list) (first.vertexIds, first.edgeList)
      (second.vertexIds, second.edgeList) [] [] (readable formedFirst fitsFirst)
        (readable formedSecond fitsSecond)
  rw [bytes_eq, bytes_eq] at same
  obtain ⟨equal, _⟩ := parts (congrArg (· ++ []) same)
  obtain ⟨vertices, edges⟩ := Prod.mk.inj equal
  refine ⟨vertices, ?_⟩
  intro id
  apply Option.ext
  intro edge
  rw [formedFirst.edge?_iff, formedSecond.edge?_iff, edges]

/-- One text is hashed for two graphs just if they have the same vertices and the same edges,
whatever they are called and whichever identifier comes next. -/
theorem hashed_exact (formedFirst : first.WellFormed) (formedSecond : second.WellFormed)
    (fitsFirst : first.Fits) (fitsSecond : second.Fits) :
    (first.bytes = second.bytes ↔ first.SameParts second) ∧
    (first.hashed = second.hashed ↔ first.SameParts second) ∧
      first.fingerprint = ⟨Sha256.hash first.hashed⟩ := by
  have exact : first.bytes = second.bytes ↔ first.SameParts second :=
    ⟨sameParts_of_bytes formedFirst formedSecond fitsFirst fitsSecond, bytes_of_sameParts⟩
  refine ⟨exact, ?_, fingerprint_eq first⟩
  rw [← exact]
  constructor
  · exact Digest.preimage_injective
  · exact congrArg (Digest.preimage _)

/-- The labels of two edges are cut at another place, and the same letters and ends follow one
another. A name and a later identifier to come next make no difference. -/
theorem hashed_cut :
    (ofEdges 1 [("AB", [0]), ("C", [0])]).hashed ≠ (ofEdges 1 [("A", [0]), ("BC", [0])]).hashed ∧
    (ofEdges 1 [("AB", [0]), ("C", [0])]).hashed =
      { ofEdges 1 [("AB", [0]), ("C", [0])] with name := "named", nextId := 9 }.hashed := by
  have formed : (ofEdges 1 [("AB", [0]), ("C", [0])]).WellFormed := by decide +kernel
  have fits : (ofEdges 1 [("AB", [0]), ("C", [0])]).Fits := by decide +kernel
  constructor
  · have formedOther : (ofEdges 1 [("A", [0]), ("BC", [0])]).WellFormed := by decide +kernel
    have fitsOther : (ofEdges 1 [("A", [0]), ("BC", [0])]).Fits := by decide +kernel
    intro same
    have parts := (hashed_exact formed formedOther fits fitsOther).2.1.mp same
    have apart : (ofEdges 1 [("AB", [0]), ("C", [0])]).edge? ⟨1⟩ ≠
      (ofEdges 1 [("A", [0]), ("BC", [0])]).edge? ⟨1⟩ := by decide +kernel
    exact apart (parts.2 ⟨1⟩)
  · have formedOther :
        { ofEdges 1 [("AB", [0]), ("C", [0])] with name := "named", nextId := 9 }.WellFormed := by
      decide +kernel
    have fitsOther :
        { ofEdges 1 [("AB", [0]), ("C", [0])] with name := "named", nextId := 9 }.Fits := by
      decide +kernel
    exact (hashed_exact formed formedOther fits fitsOther).2.1.mpr ⟨rfl, fun _ => rfl⟩

end Hypergraph

end Coverability
