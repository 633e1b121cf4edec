import Coverability.Hypergraph.Basic
import Coverability.Order.Partition

/-! Blocks of vertices that contracted edges have joined. Some vertices are forced onto a
vertex of the smaller graph, their target, and no block may have two targets. -/

namespace Coverability

/-- Forces each listed vertex onto its target, unless it is forced onto another one. -/
def force (forced : Table VertexId VertexId) : List (VertexId × VertexId) → Option (Table VertexId VertexId)
  | [] => some forced
  | (vertex, target) :: rest =>
    match forced.get? vertex with
    | none => force (forced.insert vertex target) rest
    | some other => if other = target then force forced rest else none

/-- Blocks as trees. A vertex that is not the root of its block has another one above it, and the root stores the target of the
block. -/
structure Blocks where
  parents : Table VertexId VertexId := ∅
  targets : Table VertexId VertexId

namespace Blocks

/-- Goes up from a vertex to the root, over at most so many vertices. -/
def climb (parents : Table VertexId VertexId) : Nat → VertexId → VertexId
  | 0, vertex => vertex
  | steps + 1, vertex =>
    match parents.get? vertex with
    | some above => climb parents steps above
    | none => vertex

/-- The root of the block. No way up is longer than there are vertices with one above them. -/
def root (blocks : Blocks) (vertex : VertexId) : VertexId := climb blocks.parents blocks.parents.size vertex

/-- Puts the vertices on the way up right below the root. -/
def shorten (root : VertexId) : Nat → VertexId → Table VertexId VertexId → Table VertexId VertexId
  | 0, _, parents => parents
  | steps + 1, vertex, parents =>
    match parents.get? vertex with
    | some above => if above = root then parents else shorten root steps above (parents.insert vertex root)
    | none => parents

/-- The root of a vertex, with a shorter way to it from now on. -/
def find (blocks : Blocks) (vertex : VertexId) : VertexId × Blocks :=
  let root := blocks.root vertex
  (root, { blocks with parents := shorten root blocks.parents.size vertex blocks.parents })

/-- The roots of some vertices, found one after the other. -/
def findAll (blocks : Blocks) : List VertexId → List VertexId × Blocks
  | [] => ([], blocks)
  | vertex :: rest =>
    let (root, blocks) := blocks.find vertex
    let (roots, blocks) := blocks.findAll rest
    (root :: roots, blocks)

/-- Puts one root below another, unless their targets differ. -/
def link (blocks : Blocks) (kept gone : VertexId) : Option Blocks :=
  let parents := blocks.parents.insert gone kept
  if kept = gone then some blocks
  else match blocks.targets.get? kept, blocks.targets.get? gone with
    | some target, some other =>
      if target = other then some { parents, targets := (blocks.targets.erase gone).insert kept other } else none
    | none, some other => some { parents, targets := (blocks.targets.erase gone).insert kept other }
    | _, none => some { blocks with parents }

/-- Joins the blocks of two vertices, unless their targets differ. -/
def join (blocks : Blocks) (first second : VertexId) : Option Blocks :=
  let (kept, blocks) := blocks.find first
  let (gone, blocks) := blocks.find second
  blocks.link kept gone

/-- Joins what one partition joins. A clash is reported with the position where it arises. -/
def joinAll (blocks : Blocks) : List (Nat × VertexId × VertexId) → Except Nat Blocks
  | [] => .ok blocks
  | (position, first, second) :: rest =>
    match blocks.join first second with
    | some blocks => blocks.joinAll rest
    | none => .error position

/-- Joins what all partitions join, counting them from `index`. A clash is reported with the
index of its partition and the position in it. -/
def joinPartitions (blocks : Blocks) (index : Nat) : List (Partition VertexId) → Except (Nat × Nat) Blocks
  | [] => .ok blocks
  | partition :: rest =>
    match blocks.joinAll partition.joins with
    | .ok blocks => blocks.joinPartitions (index + 1) rest
    | .error position => .error (index, position)

/-- Whether every target is reached by one block and enough blocks have no target. -/
def realises (blocks : Blocks) (vertices : List VertexId) (forced : Table VertexId VertexId) (spare : Nat) : Bool :=
  let (reached, blocks) := blocks.findAll forced.keys
  let (roots, blocks) := blocks.findAll vertices
  let free := (roots.filter fun root => !blocks.targets.contains root).eraseDups
  (force ∅ (forced.values.zip reached)).isSome && spare ≤ free.length

end Blocks

end Coverability
