import Coverability.Order.Basic
import Coverability.Trace.Sink

/-! Antichains of graphs: no element lies below another one. They stand for the set of all
graphs above an element. An insertion keeps exactly the smallest graphs. -/

namespace Coverability

/-- The elements in the order of their insertion, and the identities of those that have not
been removed. -/
structure Antichain where
  elements : List Identified := []
  members : List GraphId := []
deriving DecidableEq, Inhabited

/-- What became of an inserted graph. -/
inductive Insertion where
  | rejected (because : Identified)
  | accepted (removed : List Identified)
deriving DecidableEq

namespace Insertion

def isAccepted : Insertion → Bool
  | rejected _ => false
  | accepted _ => true

def removed : Insertion → List Identified
  | rejected _ => []
  | accepted removed => removed

/-- The steps of an insertion, each with the line and the event that tell of it. -/
def report (insertion : Insertion) (graph : Identified) : List (Line × Event) :=
  match insertion with
  | rejected because =>
    [(⟨.trace, "rejected", [("graph", graph.id.text), ("because", because.id.text)]⟩, .deleted graph.ref because.ref)]
  | accepted removed => removed.map fun gone =>
    (⟨.trace, "removed", [("graph", gone.id.text), ("because", graph.id.text)]⟩, .deleted gone.ref graph.ref)

end Insertion

namespace Antichain

/-- Goes through the elements and drops those above the graph, unless an element is found below
it. Once an element has been dropped the graph stays: an element below the graph would also be
below the dropped one. The answer is the element below the graph, or what is kept and dropped. -/
def sift (le : Hypergraph → Hypergraph → Bool) (graph : Hypergraph) :
    Bool → List Identified → Except Identified (List Identified × List Identified)
  | _, [] => .ok ([], [])
  | dropped, element :: rest =>
    if !dropped && le element.graph graph then .error element
    else if le graph element.graph then
      (sift le graph true rest).map fun (kept, gone) => (kept, element :: gone)
    else (sift le graph dropped rest).map fun (kept, gone) => (element :: kept, gone)

def insert (chain : Antichain) (order : Order) (graph : Identified) : Insertion × Antichain :=
  match sift order.le graph.graph false chain.elements with
  | .error because => (.rejected because, chain)
  | .ok (kept, gone) =>
    let members := gone.foldl (fun members element => members.erase element.id) chain.members
    (.accepted gone, ⟨kept ++ [graph], members.insert graph.id⟩)

/-- Whether a graph is an element at present. -/
def contains (chain : Antichain) (id : GraphId) : Bool := id ∈ chain.members

def size (chain : Antichain) : Nat := chain.elements.length

def isEmpty (chain : Antichain) : Bool := chain.elements.isEmpty

/-- Whether nothing but one place in the antichain holds the element, given what is held
elsewhere. -/
def ownsAlone (chain : Antichain) (isHeld : GraphId → Bool) (element : Identified) : Bool :=
  !isHeld element.id && (chain.elements.countP fun other => other.id = element.id) == 1

/-- Inserts graphs one after the other. The answer is how many elements there are in the end. -/
def insertAll (chain : Antichain) (order : Order) (graphs : List Identified) : Nat × Antichain :=
  let chain := graphs.foldl (fun chain graph => (chain.insert order graph).2) chain
  (chain.size, chain)

/-- Names every unnamed element that nothing else holds, and warns about the others. -/
def assignDefaultNames (chain : Antichain) (isHeld : GraphId → Bool) : List Line × Antichain :=
  let isAlone := chain.ownsAlone isHeld
  let shared := chain.elements.filter fun element => !isAlone element
  (shared.map fun element => ⟨.warn, "cannot name shared graph", [("graph", element.id.text)]⟩,
    { chain with elements := chain.elements.map fun element =>
        if isAlone element then element.withDefaultName else element })

def debugText (chain : Antichain) (order : Order) : String :=
  let ids := ", ".intercalate (chain.elements.map fun element => s!"GraphId({element.id.number})")
  s!"MinGraphList \x7b order: \"{order.name}\", graphs: [{ids}] \x7d"

end Antichain

end Coverability
