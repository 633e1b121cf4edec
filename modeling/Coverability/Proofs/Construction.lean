import Coverability.Proofs.Operations
import Mathlib.Logic.Function.Basic

/-! Building a graph that shows a given skeleton. What the operations do to a graph is said by the
skeleton that it shows: each adds or takes away a vertex or an edge, under any name that is not in use. -/

namespace Coverability

open Skeleton

/-- A graph shows a skeleton if it is a copy of it, where every vertex and edge has an
identifier of its own. -/
structure Hypergraph.Shows {α β : Type} (graph : Hypergraph) (shape : Skeleton α β)
    (vertex : α → VertexId) (edge : β → EdgeId) : Prop where
  formed : graph.WellFormed
  numbered : graph.Numbered
  closed : shape.Closed
  vertex_inside : ∀ {one}, shape.vertex one → graph.hasVertex (vertex one) = true
  vertex_injective : ∀ {one other}, shape.vertex one → shape.vertex other →
    vertex one = vertex other → one = other
  vertex_surjective : ∀ {target}, graph.hasVertex target = true →
    ∃ one, shape.vertex one ∧ vertex one = target
  edge_kept : ∀ {one label ends}, shape.edge? one = some (label, ends) →
    graph.skeleton.edge? (edge one) = some (label, ends.map vertex)
  edge_injective : ∀ {one other}, shape.HasEdge one → shape.HasEdge other →
    edge one = edge other → one = other
  edge_surjective : ∀ {target}, graph.skeleton.HasEdge target →
    ∃ one, shape.HasEdge one ∧ edge one = target

section Naming

variable {α β : Type} {known : α → Prop} {naming : α → β} {name one other : α} {target : β}

private theorem length_eq_of_naming {names : List α} {places : List β} (distinct : names.Nodup)
    (distinct' : places.Nodup) (listed : ∀ one, one ∈ names ↔ known one)
    (injective : ∀ {one other}, known one → known other → naming one = naming other → one = other)
    (onto : ∀ target, target ∈ places ↔ ∃ one, known one ∧ naming one = target) :
    places.length = names.length := by
  have injective' : ∀ one ∈ names, ∀ other ∈ names, naming one = naming other → one = other :=
    fun one first other second => injective ((listed one).mp first) ((listed other).mp second)
  have same : (names.map naming).Perm places :=
    (List.perm_ext_iff_of_nodup (distinct.map_on injective') distinct').mpr fun target =>
      by simp only [List.mem_map, listed, onto]
  rw [← same.length_eq, List.length_map]

variable [DecidableEq α]

private theorem update_known (new : ¬known name) (inside : known one) :
    Function.update naming name target one = naming one :=
  Function.update_of_ne (fun same : one = name => new (same ▸ inside)) _ _

private theorem update_apart (new : ¬known name)
    (injective : ∀ {one other}, known one → known other → naming one = naming other → one = other)
    (unused : ∀ {one}, known one → naming one ≠ target) (first : known one ∨ one = name)
    (second : known other ∨ other = name)
    (same : Function.update naming name target one = Function.update naming name target other) :
    one = other := by
  rcases first with first | rfl <;> rcases second with second | rfl
  · rw [update_known new first, update_known new second] at same
    exact injective first second same
  · rw [update_known new first, Function.update_self] at same
    exact absurd same (unused first)
  · rw [update_known new second, Function.update_self] at same
    exact absurd same.symm (unused second)
  · rfl

end Naming

namespace Skeleton

variable {α β : Type} {shape shape' : Skeleton α β} {name one : β} {label : String} {ends : List α}

private theorem hasEdge_congr (edges : ∀ one, shape'.edge? one = shape.edge? one) :
    shape'.HasEdge one ↔ shape.HasEdge one := by
  rw [HasEdge, HasEdge, edges]

variable [DecidableEq β]

private theorem hasEdge_insert
    (edges : ∀ one, shape'.edge? one = if one = name then some (label, ends) else shape.edge? one) :
    shape'.HasEdge one ↔ shape.HasEdge one ∨ one = name := by
  by_cases same : one = name
  · simp [HasEdge, edges, same]
  · simp [HasEdge, edges, same]

private theorem hasEdge_erase
    (edges : ∀ one, shape'.edge? one = if one = name then none else shape.edge? one) :
    shape'.HasEdge one ↔ one ≠ name ∧ shape.HasEdge one := by
  by_cases same : one = name
  · simp [HasEdge, edges, same]
  · simp [HasEdge, edges, same]

end Skeleton

namespace Hypergraph

variable {graph result : Hypergraph} {label : String} {ends : List VertexId} {vertex : VertexId}
  {fresh id kept : EdgeId}

private theorem skeleton_addEdge (added : graph.addEdge label ends = .ok (fresh, result)) :
    result.skeleton.edge? id = if id = ⟨graph.nextId⟩ then some (label, ends)
      else graph.skeleton.edge? id := by
  simp only [skeleton, edge?_addEdge added]
  split
  · rfl
  · rfl

private theorem skeleton_deleteEdge :
    (graph.deleteEdge id).skeleton.edge? kept = if kept = id then none
      else graph.skeleton.edge? kept := by
  simp only [skeleton, edge?_deleteEdge]
  split
  · rfl
  · rfl

private theorem skeleton_deleteVertex (formed : graph.WellFormed) :
    (graph.deleteVertex vertex).skeleton.edge? id = (graph.skeleton.edge? id).filter fun found =>
      vertex ∉ found.2 := by
  simp only [skeleton, edge?_deleteVertex formed, Option.filter_map]
  rfl

private theorem Numbered.skeleton_fresh (numbered : graph.Numbered) :
    graph.skeleton.edge? ⟨graph.nextId⟩ = none := by
  simp only [skeleton, numbered.fresh_edge, Option.map_none]

end Hypergraph

namespace Hypergraph.Shows

variable {α β γ δ : Type} {graph : Hypergraph} {shape : Skeleton α β} {vertex : α → VertexId}
  {edge : β → EdgeId}

theorem isomorphic (shows : graph.Shows shape vertex edge) : Isomorphic shape graph.skeleton :=
  ⟨⟨vertex, edge, shows.vertex_inside, shows.vertex_injective, shows.vertex_surjective,
    shows.edge_kept, shows.edge_injective, shows.edge_surjective⟩⟩

theorem vertexCount_eq (shows : graph.Shows shape vertex edge) {names : List α}
    (distinct : names.Nodup) (listed : ∀ one, one ∈ names ↔ shape.vertex one) :
    graph.vertexCount = names.length := by
  rw [← length_vertexIds]
  refine length_eq_of_naming distinct nodup_vertexIds listed shows.vertex_injective fun target =>
    mem_vertexIds.trans ?_
  refine ⟨shows.vertex_surjective, ?_⟩
  rintro ⟨one, known, rfl⟩
  exact shows.vertex_inside known

theorem edgeCount_eq (shows : graph.Shows shape vertex edge) {names : List β} (distinct : names.Nodup)
    (listed : ∀ one, one ∈ names ↔ shape.HasEdge one) : graph.edgeCount = names.length := by
  rw [← length_edgeIds]
  refine length_eq_of_naming distinct nodup_edgeIds listed shows.edge_injective fun target =>
    mem_edgeIds_iff.trans ?_
  refine ⟨shows.edge_surjective, ?_⟩
  rintro ⟨one, ⟨label, ends, stored⟩, rfl⟩
  exact ⟨label, _, shows.edge_kept stored⟩

/-- Every graph shows itself. -/
theorem self (formed : graph.WellFormed) (numbered : graph.Numbered) :
    graph.Shows graph.skeleton id id where
  formed := formed
  numbered := numbered
  closed := formed.closed
  vertex_inside := id
  vertex_injective _ _ same := same
  vertex_surjective inside := ⟨_, inside, rfl⟩
  edge_kept stored := by rwa [List.map_id]
  edge_injective _ _ same := same
  edge_surjective inside := ⟨_, inside, rfl⟩

/-- The same graph shows an isomorphic skeleton under other names. -/
theorem rename (shows : graph.Shows shape vertex edge) {other : Skeleton γ δ}
    (iso : Iso other shape) (closed : other.Closed) {vertex' : γ → VertexId} {edge' : δ → EdgeId}
    (vertices : ∀ one, vertex' one = vertex (iso.vertex one))
    (edges : ∀ one, edge' one = edge (iso.edge one)) : graph.Shows other vertex' edge' where
  formed := shows.formed
  numbered := shows.numbered
  closed := closed
  vertex_inside inside := vertices _ ▸ shows.vertex_inside (iso.vertex_inside inside)
  vertex_injective first second same := by
    rw [vertices, vertices] at same
    exact iso.vertex_injective first second
      (shows.vertex_injective (iso.vertex_inside first) (iso.vertex_inside second) same)
  vertex_surjective inside := by
    obtain ⟨one, known, rfl⟩ := shows.vertex_surjective inside
    obtain ⟨source, present, rfl⟩ := iso.vertex_surjective known
    exact ⟨source, present, vertices _⟩
  edge_kept stored := by
    rw [edges, shows.edge_kept (iso.edge_kept stored), List.map_map]
    exact congrArg some (Prod.ext rfl (List.map_congr_left fun one _ => (vertices one).symm))
  edge_injective first second same := by
    rw [edges, edges] at same
    exact iso.edge_injective first second
      (shows.edge_injective (iso.hasEdge first) (iso.hasEdge second) same)
  edge_surjective inside := by
    obtain ⟨one, known, rfl⟩ := shows.edge_surjective inside
    obtain ⟨source, present, rfl⟩ := iso.edge_surjective known
    exact ⟨source, present, edges _⟩

/-- Names matter only for what is there. -/
theorem congr (shows : graph.Shows shape vertex edge) (shape' : Skeleton α β)
    (vertices : ∀ one, shape'.vertex one ↔ shape.vertex one)
    (edges : ∀ one, shape'.edge? one = shape.edge? one) : graph.Shows shape' vertex edge := by
  have hasEdge : ∀ {one}, shape'.HasEdge one ↔ shape.HasEdge one := hasEdge_congr edges
  refine shows.rename ⟨id, id, (vertices _).mp, fun _ _ same => same,
    fun inside => ⟨_, (vertices _).mpr inside, rfl⟩, fun stored => ?_,
    fun _ _ same => same, fun inside => ⟨_, hasEdge.mpr inside, rfl⟩⟩
      (fun one label ends stored end' member => ?_) (fun _ => rfl) fun _ => rfl
  · rw [List.map_id, ← stored]
    exact (edges _).symm
  · exact (vertices end').mpr (shows.closed one label ends (edges one ▸ stored) end' member)

theorem addVertex [DecidableEq α] (shows : graph.Shows shape vertex edge) (name : α)
    (shape' : Skeleton α β) (room : graph.HasRoom) (new : ¬shape.vertex name)
    (vertices : ∀ one, shape'.vertex one ↔ shape.vertex one ∨ one = name)
    (edges : ∀ one, shape'.edge? one = shape.edge? one) :
    graph.addVertex.2.Shows shape' (Function.update vertex name graph.addVertex.1) edge := by
  have hasEdge : ∀ {one}, shape'.HasEdge one ↔ shape.HasEdge one := hasEdge_congr edges
  have unused : ∀ {one}, shape.vertex one → vertex one ≠ graph.addVertex.1 := by
    intro one inside same
    have present := shows.vertex_inside inside
    rw [same] at present
    exact absurd (present.symm.trans shows.numbered.fresh_vertex) nofun
  refine ⟨addVertex_wellFormed shows.formed shows.numbered, addVertex_numbered shows.numbered room,
    ?_, ?_, ?_, ?_, ?_, ?_, ?_⟩
  · intro one label ends stored end' member
    exact (vertices end').mpr (.inl (shows.closed one label ends (edges one ▸ stored) end' member))
  · intro one inside
    rw [hasVertex_addVertex]
    rcases (vertices one).mp inside with old | rfl
    · rw [update_known new old, shows.vertex_inside old, Bool.or_true]
    · rw [Function.update_self]
      exact Bool.or_eq_true_iff.mpr (.inl (decide_eq_true rfl))
  · exact fun first second =>
      update_apart new shows.vertex_injective unused ((vertices _).mp first) ((vertices _).mp second)
  · intro target inside
    rw [hasVertex_addVertex, Bool.or_eq_true, decide_eq_true_iff] at inside
    rcases inside with rfl | old
    · exact ⟨name, (vertices name).mpr (.inr rfl), Function.update_self ..⟩
    · obtain ⟨one, known, rfl⟩ := shows.vertex_surjective old
      exact ⟨one, (vertices one).mpr (.inl known), update_known new known⟩
  · intro one label ends stored
    rw [edges] at stored
    refine (shows.edge_kept stored).trans
      (congrArg some (Prod.ext rfl (List.map_congr_left fun end' member => ?_)))
    exact (update_known new (shows.closed one label ends stored end' member)).symm
  · exact fun first second => shows.edge_injective (hasEdge.mp first) (hasEdge.mp second)
  · intro target inside
    obtain ⟨one, known, same⟩ := shows.edge_surjective inside
    exact ⟨one, hasEdge.mpr known, same⟩

/-- Removes a vertex that no edge touches. -/
theorem deleteVertex (shows : graph.Shows shape vertex edge) (name : α) (shape' : Skeleton α β)
    (present : shape.vertex name)
    (apart : ∀ {one label ends}, shape.edge? one = some (label, ends) → name ∉ ends)
    (vertices : ∀ one, shape'.vertex one ↔ shape.vertex one ∧ one ≠ name)
    (edges : ∀ one, shape'.edge? one = shape.edge? one) :
    (graph.deleteVertex (vertex name)).Shows shape' vertex edge := by
  have hasEdge : ∀ {one}, shape'.HasEdge one ↔ shape.HasEdge one := hasEdge_congr edges
  refine ⟨deleteVertex_wellFormed shows.formed, deleteVertex_numbered shows.formed shows.numbered,
    ?_, ?_, ?_, ?_, ?_, ?_, ?_⟩
  · intro one label ends stored end' member
    rw [edges] at stored
    exact (vertices end').mpr ⟨shows.closed one label ends stored end' member,
      fun same => apart stored (same ▸ member)⟩
  · intro one inside
    obtain ⟨old, different⟩ := (vertices one).mp inside
    rw [hasVertex_deleteVertex, shows.vertex_inside old, Bool.and_true, Bool.not_eq_true',
      decide_eq_false_iff_not]
    exact fun same => different (shows.vertex_injective old present same)
  · exact fun first second =>
      shows.vertex_injective ((vertices _).mp first).1 ((vertices _).mp second).1
  · intro target inside
    rw [hasVertex_deleteVertex, Bool.and_eq_true, Bool.not_eq_true',
      decide_eq_false_iff_not] at inside
    obtain ⟨one, known, rfl⟩ := shows.vertex_surjective inside.2
    exact ⟨one, (vertices one).mpr ⟨known, fun same => inside.1 (congrArg vertex same)⟩, rfl⟩
  · intro one label ends stored
    rw [edges] at stored
    rw [skeleton_deleteVertex shows.formed, Option.filter_eq_some_iff, decide_eq_true_iff]
    refine ⟨shows.edge_kept stored, fun member => ?_⟩
    obtain ⟨source, inside, same⟩ := List.mem_map.mp member
    exact apart stored
      (shows.vertex_injective (shows.closed one _ ends stored source inside) present same ▸ inside)
  · exact fun first second => shows.edge_injective (hasEdge.mp first) (hasEdge.mp second)
  · rintro target ⟨label, ends, stored⟩
    rw [skeleton_deleteVertex shows.formed, Option.filter_eq_some_iff] at stored
    obtain ⟨one, known, same⟩ := shows.edge_surjective ⟨label, ends, stored.1⟩
    exact ⟨one, hasEdge.mpr known, same⟩

section Edges

private theorem changeEdges (shows : graph.Shows shape vertex edge) {shape' : Skeleton α β}
    {edge' : β → EdgeId} {result : Hypergraph} (formed : result.WellFormed)
    (numbered : result.Numbered) (same : ∀ target, result.hasVertex target = graph.hasVertex target)
    (vertices : ∀ one, shape'.vertex one ↔ shape.vertex one)
    (inside : ∀ {one label ends}, shape'.edge? one = some (label, ends) →
      ∀ end' ∈ ends, shape.vertex end')
    (kept : ∀ {one label ends}, shape'.edge? one = some (label, ends) →
      result.skeleton.edge? (edge' one) = some (label, ends.map vertex))
    (injective : ∀ {one other}, shape'.HasEdge one → shape'.HasEdge other →
      edge' one = edge' other → one = other)
    (surjective : ∀ {target}, result.skeleton.HasEdge target →
      ∃ one, shape'.HasEdge one ∧ edge' one = target) :
    result.Shows shape' vertex edge' where
  formed := formed
  numbered := numbered
  closed _ _ _ stored end' member := (vertices end').mpr (inside stored end' member)
  vertex_inside known := (same _).trans (shows.vertex_inside ((vertices _).mp known))
  vertex_injective first second :=
    shows.vertex_injective ((vertices _).mp first) ((vertices _).mp second)
  vertex_surjective known := by
    obtain ⟨one, here, equal⟩ := shows.vertex_surjective ((same _).symm.trans known)
    exact ⟨one, (vertices one).mpr here, equal⟩
  edge_kept := kept
  edge_injective := injective
  edge_surjective := surjective

variable [DecidableEq β]

theorem addEdge (shows : graph.Shows shape vertex edge) (name : β) (shape' : Skeleton α β)
    (room : graph.HasRoom) {label : String} {ends : List α} (new : ¬shape.HasEdge name)
    (inside : ∀ one ∈ ends, shape.vertex one) (vertices : ∀ one, shape'.vertex one ↔ shape.vertex one)
    (edges : ∀ one, shape'.edge? one = if one = name then some (label, ends) else shape.edge? one) :
    ∃ fresh result, graph.addEdge label (ends.map vertex) = .ok (fresh, result) ∧
      result.nextId = graph.nextId + 1 ∧
      result.Shows shape' vertex (Function.update edge name fresh) := by
  have present : ∀ target ∈ ends.map vertex, graph.hasVertex target = true := by
    intro target member
    obtain ⟨one, known, rfl⟩ := List.mem_map.mp member
    exact shows.vertex_inside (inside one known)
  obtain ⟨⟨fresh, result⟩, added⟩ : ∃ result, graph.addEdge label (ends.map vertex) = .ok result :=
    addEdge_succeeds present
  obtain rfl := addEdge_id added
  have unused : ∀ {target label ends}, graph.skeleton.edge? target = some (label, ends) →
      target ≠ ⟨graph.nextId⟩ := by
    rintro target label ends stored rfl
    rw [shows.numbered.skeleton_fresh] at stored
    cases stored
  have hasEdge : ∀ {one}, shape'.HasEdge one ↔ shape.HasEdge one ∨ one = name := hasEdge_insert edges
  refine ⟨_, result, added, (nextId_addEdge added).trans (counted_eq room),
    shows.changeEdges (addEdge_wellFormed added shows.formed shows.numbered)
      (addEdge_numbered added shows.numbered room)
      (fun target => hasVertex_addEdge added) vertices ?_ ?_ ?_ ?_⟩
  · intro one label ends stored
    rw [edges] at stored
    split at stored
    · cases stored
      exact inside
    · exact shows.closed one label ends stored
  · intro one label ends stored
    rw [edges] at stored
    rw [skeleton_addEdge added]
    split at stored
    next same =>
      cases stored
      rw [same, Function.update_self, if_pos rfl]
    · have kept := shows.edge_kept stored
      rw [update_known new ⟨label, ends, stored⟩, if_neg (unused kept), kept]
  · intro one other first second
    exact update_apart new shows.edge_injective
      (fun ⟨_, _, stored⟩ => unused (shows.edge_kept stored)) (hasEdge.mp first) (hasEdge.mp second)
  · rintro target ⟨label, ends, stored⟩
    rw [skeleton_addEdge added] at stored
    split at stored
    next same => exact ⟨name, hasEdge.mpr (.inr rfl), by rw [Function.update_self, same]⟩
    · obtain ⟨one, here, rfl⟩ := shows.edge_surjective ⟨label, ends, stored⟩
      exact ⟨one, hasEdge.mpr (.inl here), update_known new here⟩

theorem deleteEdge (shows : graph.Shows shape vertex edge) (name : β) (shape' : Skeleton α β)
    (present : shape.HasEdge name) (vertices : ∀ one, shape'.vertex one ↔ shape.vertex one)
    (edges : ∀ one, shape'.edge? one = if one = name then none else shape.edge? one) :
    (graph.deleteEdge (edge name)).Shows shape' vertex edge := by
  have hasEdge : ∀ {one}, shape'.HasEdge one ↔ one ≠ name ∧ shape.HasEdge one := hasEdge_erase edges
  refine shows.changeEdges (deleteEdge_wellFormed shows.formed) (deleteEdge_numbered shows.numbered)
    (fun target => hasVertex_deleteEdge) vertices ?_ ?_ ?_ ?_
  · intro one label ends stored
    rw [edges] at stored
    split at stored
    · cases stored
    · exact shows.closed one label ends stored
  · intro one label ends stored
    rw [edges] at stored
    split at stored
    · cases stored
    next different =>
      rw [skeleton_deleteEdge, if_neg, shows.edge_kept stored]
      exact fun same => different (shows.edge_injective ⟨label, ends, stored⟩ present same)
  · exact fun first second => shows.edge_injective (hasEdge.mp first).2 (hasEdge.mp second).2
  · rintro target ⟨label, ends, stored⟩
    rw [skeleton_deleteEdge] at stored
    split at stored
    · cases stored
    next different =>
      obtain ⟨one, here, rfl⟩ := shows.edge_surjective ⟨label, ends, stored⟩
      exact ⟨one, hasEdge.mpr ⟨fun same => different (congrArg edge same), here⟩, rfl⟩

/-- Another edge in the place of one, which has its name from then on. -/
theorem replaceEdge (shows : graph.Shows shape vertex edge) (name : β) (shape' : Skeleton α β)
    (room : graph.HasRoom) {label : String} {ends : List α} (present : shape.HasEdge name)
    (inside : ∀ one ∈ ends, shape.vertex one) (vertices : ∀ one, shape'.vertex one ↔ shape.vertex one)
    (edges : ∀ one, shape'.edge? one = if one = name then some (label, ends) else shape.edge? one) :
    ∃ fresh result, (graph.deleteEdge (edge name)).addEdge label (ends.map vertex) =
      .ok (fresh, result) ∧
      result.nextId = graph.nextId + 1 ∧
      result.Shows shape' vertex (Function.update edge name fresh) := by
  have removed :=
    shows.deleteEdge name ⟨shape.vertex,
      fun one => if one = name then none else shape.edge? one⟩ present
      (fun _ => Iff.rfl) fun _ => rfl
  have gone :
      ¬(⟨shape.vertex, fun one => if one = name then none else shape.edge? one⟩ :
        Skeleton α β).HasEdge name := by
    rintro ⟨label, ends, stored⟩
    simp at stored
  have roomLeft : (graph.deleteEdge (edge name)).HasRoom := by rwa [HasRoom, nextId_deleteEdge]
  have replaced : ∀ one, shape'.edge? one = if one = name then some (label, ends) else if one = name
      then none else shape.edge? one := by
    intro one
    rw [edges]
    split
    · rfl
    · rfl
  obtain ⟨fresh, result, added, next, shows⟩ :=
    removed.addEdge name shape' roomLeft gone inside vertices replaced
  rw [nextId_deleteEdge] at next
  exact ⟨fresh, result, added, next, shows⟩

end Edges

end Hypergraph.Shows

end Coverability
