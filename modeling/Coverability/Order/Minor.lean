import Coverability.Order.Basic
import Coverability.Order.Contraction
import Coverability.Order.Selection

/-! The minor order. A graph lies below another if it is left of it after some edges have been
deleted, some contracted, in whole or in part, and some isolated vertices deleted.

The search picks distinct edges of the bigger graph for those of the smaller one, which forces
vertices of the bigger graph onto vertices of the smaller one. All other edges are deleted or
contracted: each contributes a partition of its vertices, and the partitions together join the
vertices to blocks. A clash of targets rules out every choice that agrees up to the place where
it arises, so the search skips all of these. -/

namespace Coverability

namespace Minor

/-- The edges of one shape in both graphs. -/
structure Group where
  smaller : List EdgeId
  bigger : List EdgeId

def groups (smaller bigger : Hypergraph) : List Group :=
  (smaller.edgeList.map Edge.shape).eraseDups.map fun shape => ⟨smaller.edgesOfShape shape, bigger.edgesOfShape shape⟩

/-- The edges of the smaller graph with the edges that the selections pick for them. -/
def assignment (groups : List Group) (selections : List Selection) : List (EdgeId × EdgeId) :=
  (groups.zip selections).flatMap fun (group, selection) =>
    group.smaller.zip (selection.indices.filterMap fun index => group.bigger[index]?)

/-- Where an assignment forces the vertices of the bigger graph. -/
def forcedBy (smaller bigger : Hypergraph) (assignment : List (EdgeId × EdgeId)) : Option (Table VertexId VertexId) := do
  let forces ← assignment.mapM fun (edge, picked) => do
    return (← bigger.edge? picked).vertices.zip (← smaller.edge? edge).vertices
  force ∅ forces.flatten

/-- What comes of one combination of partitions: an answer, or the combination to try next. -/
inductive Attempt where
  | settled (found : Bool)
  | goesOn (next : List (Partition VertexId))

/-- Skips the combinations that agree with this one up to a place. If none is left, there is no right one. -/
def skip (partitions : List (Partition VertexId)) (index position : Nat) : Attempt :=
  match Partition.skipAhead partitions index position with
  | some next => .goesOn next
  | none => .settled false

/-- Tries one combination of partitions. After a clash, all that agree up to the place of the clash are skipped. -/
def attempt (bigger : Hypergraph) (forced : Table VertexId VertexId) (spare : Nat) (partitions : List (Partition VertexId)) : Attempt :=
  match Blocks.joinPartitions { targets := forced } 0 partitions with
  | .error (index, position) => skip partitions index position
  | .ok blocks =>
    if blocks.realises bigger.vertexIds forced spare then .settled true
    else match partitions.getLast? with
      | some last => skip partitions (partitions.length - 1) last.ids.length
      | none => .settled false

/-- Tries all combinations of partitions from the given one on, skipping those ruled out. -/
def contract (bigger : Hypergraph) (forced : Table VertexId VertexId) (spare : Nat) :
    Nat → List (Partition VertexId) → Bool
  | 0, _ => false
  | tries + 1, partitions =>
    match attempt bigger forced spare partitions with
    | .settled found => found
    | .goesOn next => contract bigger forced spare tries next

/-- The vertices of each edge that has not been selected. -/
def unselected (bigger : Hypergraph) (selected : List EdgeId) : List (List VertexId) :=
  (bigger.edgeList.filter fun edge => edge.id ∉ selected).map Edge.distinctVertices

/-- The first combination of partitions, of the edges that can be contracted in more than one way. -/
def start (bigger : Hypergraph) (selected : List EdgeId) : List (Partition VertexId) :=
  ((unselected bigger selected).filter fun ids => 2 ≤ ids.length).map Partition.first

/-- Whether the edges that are not selected can be deleted and contracted so that one block
reaches each target and enough blocks are left for the isolated vertices. If every target is
reached by one vertex already, deleting them all leaves the most blocks. -/
def contractRest (bigger : Hypergraph) (forced : Table VertexId VertexId) (selected : List EdgeId) (spare : Nat) : Bool :=
  if forced.values.eraseDups.length = forced.size then spare ≤ bigger.vertexCount - forced.size
  else
    let partitions := start bigger selected
    contract bigger forced spare ((partitions.map Partition.countBound).foldl (· * ·) 1) partitions

/-- Tries all assignments of edges from the given selections on. -/
def search (smaller bigger : Hypergraph) (groups : List Group) : Nat → List Selection → Bool
  | 0, _ => false
  | tries + 1, selections =>
    let chosen := assignment groups selections
    let succeeds := (forcedBy smaller bigger chosen).any fun forced =>
      contractRest bigger forced (chosen.map Prod.snd) smaller.isolatedVertices.length
    if succeeds then true
    else match Selection.advanceAll selections with
      | some next => search smaller bigger groups tries next
      | none => false

def isMinor (smaller bigger : Hypergraph) : Bool :=
  if !mayFit smaller bigger then false
  else
    let groups := groups smaller bigger
    let selections := groups.map fun group => Selection.first group.bigger.length group.smaller.length
    !selections.any Selection.ended &&
      search smaller bigger groups ((selections.map Selection.countBound).foldl (· * ·) 1) selections

end Minor

def Order.minor : Order where
  name := "minor"
  contracts := true
  le := Minor.isMinor

end Coverability
