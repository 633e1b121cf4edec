import Coverability.Proofs.Overlap
import Mathlib.Data.Nat.Find
import Mathlib.Logic.Function.Iterate

/-! From a model in the graph after a step to a model in the graph before it. A branch of the model
may hold several vertices of the right side. It is split into one part for each that the rule
preserves, and the rest of the branch is shared out among them, so that edges of the context hold
each part together. -/

namespace Coverability

namespace Splitting

section Forest

variable {σ : Type} {link : σ → σ → Prop} {root : σ → Prop}

/-- Whether so many links lead to a root. -/
private def Leads (link : σ → σ → Prop) (root : σ → Prop) : Nat → σ → Prop
  | 0, one => root one
  | steps + 1, one => ∃ next, link one next ∧ Leads link root steps next

private theorem exists_leads {one last : σ} (atRoot : root last)
    (walk : Relation.ReflTransGen link one last) :
    ∃ steps, Leads link root steps one := by
  induction walk using Relation.ReflTransGen.head_induction_on with
  | refl => exact ⟨0, atRoot⟩
  | head step _ ih =>
    obtain ⟨steps, leads⟩ := ih
    exact ⟨steps + 1, _, step, leads⟩

private theorem exists_distance (link : σ → σ → Prop) (root : σ → Prop) :
    ∃ distance : σ → Nat, ∀ one steps, Leads link root steps one →
    distance one ≤ steps ∧ Leads link root (distance one) one := by
  classical
  refine ⟨fun one => if reached : ∃ steps, Leads link root steps one then Nat.find reached else 0,
    fun one steps leads => ?_⟩
  have reached : ∃ steps, Leads link root steps one := ⟨steps, leads⟩
  simp only [dif_pos reached]
  exact ⟨Nat.find_min' reached leads, Nat.find_spec reached⟩

private theorem exists_nearer {distance : σ → Nat}
    (shortest : ∀ one steps, Leads link root steps one → distance one ≤ steps ∧
      Leads link root (distance one) one)
    (one : σ) : ∃ next, ∀ steps, Leads link root (steps + 1) one → distance one = steps + 1 →
      link one next ∧ Leads link root steps next ∧ distance next = steps := by
  by_cases far : ∃ steps, Leads link root (steps + 1) one ∧ distance one = steps + 1
  · obtain ⟨steps, ⟨next, step, rest⟩, length⟩ := far
    refine ⟨next, fun steps' _ length' => ?_⟩
    obtain rfl : steps = steps' := by omega
    obtain ⟨atMost, leads⟩ := shortest next steps rest
    have atLeast := (shortest one (distance next + 1) ⟨next, step, leads⟩).1
    exact ⟨step, rest, by omega⟩
  · exact ⟨one, fun steps leads length => absurd ⟨steps, leads, length⟩ far⟩

private theorem exists_forest (link : σ → σ → Prop) (root : σ → Prop) :
    ∃ pick : σ → σ, (∀ one, root one → pick one = one) ∧
    ∀ one last, root last → Relation.ReflTransGen link one last →
      root (pick one) ∧
      Relation.ReflTransGen (fun first second => link first second ∧ pick first = pick one ∧
        pick second = pick one) one (pick one) := by
  -- Everything picks what the next vertex on a shortest walk to a root picks.
  obtain ⟨distance, shortest⟩ := exists_distance link root
  choose next nearer using exists_nearer shortest
  have chosen : ∃ pick : σ → σ, ∀ one, pick one = next^[distance one] one := ⟨_, fun _ => rfl⟩
  obtain ⟨pick, picks⟩ := chosen
  have stays : ∀ one, distance one = 0 → pick one = one :=
    fun one here => by rw [picks, here, Function.iterate_zero_apply]
  refine ⟨pick, fun one atRoot => stays one (Nat.le_zero.mp (shortest one 0 atRoot).1),
    fun one last atRoot walk => ?_⟩
  obtain ⟨steps, leads⟩ := exists_leads atRoot walk
  have start := (shortest one steps leads).2
  clear walk leads
  generalize length : distance one = remaining at start
  induction remaining generalizing one with
  | zero =>
    rw [stays one length]
    exact ⟨start, .refl⟩
  | succ remaining ih =>
    obtain ⟨step, rest, shorter⟩ := nearer one remaining start length
    have same : pick one = pick (next one) := by
      rw [picks, picks, length, shorter, Function.iterate_succ_apply]
    obtain ⟨reached, onward⟩ := ih (next one) shorter rest
    rw [same]
    exact ⟨reached, .head ⟨step, same, rfl⟩ onward⟩

end Forest

variable {rule : Rule} {α β γ δ : Type} {context : Context rule α β}

section Skeletons

variable {small : Skeleton γ δ}

/-- An edge of the context that the model may contract. -/
def Outside (model : Skeleton.Model small context.after) (edge : β ⊕ EdgeId) : Prop :=
  model.Free edge ∧ ∃ kept, edge = .inl kept

/-- An edge of the right side that the model may contract. -/
def Inside (model : Skeleton.Model small context.after) (edge : β ⊕ EdgeId) : Prop :=
  model.Free edge ∧ ∃ right, edge = .inr right

/-- The right side alone connects what a branch holds of it. -/
def Connected (model : Skeleton.Model small context.after) : Prop :=
  ∀ {vertex one other}, model.branch vertex (.inr one) → model.branch vertex (.inr other) →
    context.after.Joined (Inside model) (model.branch vertex) (.inr one) (.inr other)

variable {model : Skeleton.Model small context.after}

/-- The ends of edges of the context: all vertices but the created ones. -/
def Open (context : Context rule α β) : α ⊕ VertexId → Prop := Sum.elim context.vertex rule.Preserved

theorem link_open {inside : α ⊕ VertexId → Prop} {one other : α ⊕ VertexId}
    (link : context.after.Link (Outside model) inside one other) :
    Open context one ∧ Open context other := by
  obtain ⟨_, _, edge, label, ends, ⟨_, kept, rfl⟩, stored, oneOn, otherOn⟩ := link
  have known := Context.after_context.mp stored
  exact ⟨context.closed known one oneOn, context.closed known other otherOn⟩

/-- Where a vertex after the step has been before it, unless it is created. -/
def back (rule : Rule) : α ⊕ VertexId → α ⊕ VertexId := Sum.map id rule.origin

/-- A link in the context was there before the step. -/
theorem link_back {inside inside' : α ⊕ VertexId → Prop} {one other : α ⊕ VertexId}
    (link : context.after.Link (Outside model) inside one other) (here : inside' (back rule one))
    (there : inside' (back rule other)) :
    context.before.Link (fun edge => ∃ kept, edge = .inl kept ∧ model.Free edge) inside'
      (back rule one) (back rule other) := by
  obtain ⟨_, _, edge, label, ends, ⟨free, kept, rfl⟩, stored, oneOn, otherOn⟩ := link
  have known := Context.after_context.mp stored
  exact ⟨here, there, _, label, _, ⟨kept, rfl, free⟩, Context.fill_context.mpr ⟨ends, known, rfl⟩,
    List.mem_map_of_mem oneOn, List.mem_map_of_mem otherOn⟩

/-- A vertex outside the rule lies on edges of the context only. -/
theorem outside_of_link {inside : α ⊕ VertexId → Prop} {kept : α} {other : α ⊕ VertexId}
    (link : context.after.Link model.Free inside (.inl kept) other) :
    context.after.Link (Outside model) inside (.inl kept) other := by
  obtain ⟨here, there, edge, label, ends, free, stored, oneOn, otherOn⟩ := link
  cases edge with
  | inl edge => exact ⟨here, there, _, label, ends, ⟨free, edge, rfl⟩, stored, oneOn, otherOn⟩
  | inr edge =>
    obtain ⟨vertices, _, rfl⟩ := Context.fill_side.mp stored
    obtain ⟨source, _, same⟩ := List.mem_map.mp oneOn
    cases same

/-- From a vertex that is not created the context leads to some vertex of the right side, if the
branch has any. -/
theorem exists_keeper {vertex : γ} {start : α ⊕ VertexId} {right : VertexId}
    (startOpen : Open context start)
    (walk : context.after.Joined model.Free (model.branch vertex) start (.inr right)) :
    ∃ keeper, context.after.Joined (Outside model) (model.branch vertex) start (.inr keeper) := by
  induction walk using Relation.ReflTransGen.head_induction_on with
  | refl => exact ⟨right, .refl⟩
  | @head one other link walk ih =>
    cases one with
    | inr one => exact ⟨one, .refl⟩
    | inl one =>
      have outside := outside_of_link link
      obtain ⟨keeper, rest⟩ := ih (link_open outside).2
      exact ⟨keeper, .head outside rest⟩

/-- Whether a member of a branch goes to a vertex of the right side: the vertex itself, or a vertex
of the context that is given to it. -/
def Goes (keeper : γ → α → VertexId) (vertex : γ) (right : VertexId) : α ⊕ VertexId → Prop
  | .inl kept => keeper vertex kept = right
  | .inr other => other = right

/-- The vertices of the context in each branch are shared out among the preserved vertices there, if
there are vertices of the right side at all. -/
def Guides (model : Skeleton.Model small context.after) (keeper : γ → α → VertexId) : Prop :=
  ∀ {vertex kept right}, model.branch vertex (.inl kept) → model.branch vertex (.inr right) →
    rule.Preserved (keeper vertex kept) ∧
    context.after.Joined (Outside model)
      (fun member => model.branch vertex member ∧ Goes keeper vertex (keeper vertex kept) member)
      (.inl kept) (.inr (keeper vertex kept))

theorem Guides.inside {keeper : γ → α → VertexId} (guides : Guides model keeper) {vertex : γ}
    {kept : α} {right : VertexId} (atKept : model.branch vertex (.inl kept))
    (atRight : model.branch vertex (.inr right)) :
    model.branch vertex (.inr (keeper vertex kept)) := by
  rcases Relation.ReflTransGen.cases_tail (guides atKept atRight).2 with same | ⟨_, _, last⟩
  · cases same
  · exact last.2.1.1

/-- Everything goes to a nearest vertex of the right side. -/
theorem exists_guide (model : Skeleton.Model small context.after) :
    ∃ keeper, Guides model keeper := by
  have shared := fun vertex : γ =>
    exists_forest (context.after.Link (Outside model) (model.branch vertex)) fun member =>
      ∃ right, member = .inr right
  choose pick root forest using shared
  have chosen : ∃ keeper : γ → α → VertexId,
      ∀ vertex kept right, pick vertex (.inl kept) = .inr right → keeper vertex kept = right :=
    ⟨fun vertex kept => Sum.elim (fun _ => ⟨0⟩) id (pick vertex (.inl kept)),
      fun _ _ _ => congrArg (Sum.elim (fun _ => (⟨0⟩ : VertexId)) id)⟩
  obtain ⟨keeper, follows⟩ := chosen
  refine ⟨keeper, fun {vertex kept right} atKept atRight => ?_⟩
  have keptOpen : Open context (.inl kept) := (model.branch_inside atKept).2
  obtain ⟨some, reached⟩ := exists_keeper keptOpen (model.branch_joined atKept atRight)
  obtain ⟨⟨nearest, picked⟩, walk⟩ := forest vertex (.inl kept) (.inr some) ⟨some, rfl⟩ reached
  rw [follows vertex kept nearest picked]
  rw [picked] at walk
  refine ⟨?_, Relation.ReflTransGen.mono (fun one other link => ?_) _ _ walk⟩
  · rcases Relation.ReflTransGen.cases_tail walk with same | ⟨_, _, last⟩
    · cases same
    · exact (link_open last.1).2
  · have goes : ∀ {member}, pick vertex member = .inr nearest →
        Goes keeper vertex nearest member := by
      intro member same
      cases member with
      | inl other => exact follows vertex other nearest same
      | inr other =>
        rw [root vertex _ ⟨other, rfl⟩] at same
        exact Sum.inr.inj same
    obtain ⟨⟨here, there, edge⟩, samePick, samePick'⟩ := link
    exact ⟨⟨here, goes samePick⟩, ⟨there, goes samePick'⟩, edge⟩

end Skeletons

variable {graph : Hypergraph} {found : PartialMatch}
  {model : Skeleton.Model graph.skeleton context.after}

/-- What a model has on the right side of the rule. -/
structure Shadow (model : Skeleton.Model graph.skeleton context.after)
    (found : PartialMatch) : Prop where
  vertices : ∀ {right vertex}, found.vertices.get? right = some vertex ↔
    model.branch vertex (.inr right)
  edges : ∀ {right edge}, found.edges.get? right = some edge ↔ graph.skeleton.HasEdge edge ∧
    model.image edge = .inr right

variable {keeper : VertexId → α → VertexId}

/-- The overlap that a model leaves: its shadow, where every other incidence at a matched vertex
goes to the preserved vertex that its place goes to. -/
structure Traces (model : Skeleton.Model graph.skeleton context.after)
    (keeper : VertexId → α → VertexId) (found : PartialMatch) : Prop
    extends Shadow model found where
  guided : ∀ {edge label ends kept places index vertex place right},
    graph.skeleton.edge? edge = some (label, ends) →
    model.image edge = .inl kept → context.edge? kept = some (label, places) →
    ends[index]? = some vertex →
      places[index]? = some place → model.branch vertex (.inr right) →
        ∃ target, found.owner ⟨edge, index⟩ vertex = some target ∧ rule.Preserved target ∧
          model.branch vertex (.inr target) ∧
          Goes keeper vertex target place

/-- The part of a branch that goes to a vertex of the left side. -/
def Part (model : Skeleton.Model graph.skeleton context.after) (keeper : VertexId → α → VertexId)
    (left : VertexId) (member : α ⊕ VertexId) : Prop :=
  member = .inr left ∨ ∃ right vertex kept, rule.vertexMap.get? left = some right ∧
    model.branch vertex (.inr right) ∧
    member = .inl kept ∧ model.branch vertex (.inl kept) ∧ keeper vertex kept = right

def SplitBranch (model : Skeleton.Model graph.skeleton context.after)
    (keeper : VertexId → α → VertexId) (found : PartialMatch) :
    VertexId ⊕ VertexId → α ⊕ VertexId → Prop
  | .inl vertex, member =>
    found.block vertex = [] ∧ ∃ kept, member = .inl kept ∧ model.branch vertex (.inl kept)
  | .inr left, member => rule.left.hasVertex left = true ∧ Part model keeper left member

def splitImage (model : Skeleton.Model graph.skeleton context.after) : EdgeId ⊕ EdgeId → β ⊕ EdgeId
  | .inl edge => model.image edge
  | .inr edge => .inr edge

theorem part_of_goes (valid : rule.Valid) {left right vertex : VertexId} {member : α ⊕ VertexId}
    (mapped : rule.vertexMap.get? left = some right) (inside : model.branch vertex (.inr right))
    (here : model.branch vertex member) (goes : Goes keeper vertex right member) :
    Part model keeper left (back rule member) := by
  cases member with
  | inl kept => exact .inr ⟨right, vertex, kept, mapped, inside, rfl, here, goes⟩
  | inr other =>
    rw [show other = right from goes]
    exact .inl (congrArg Sum.inr (valid.origin_eq mapped))

variable {overlap : found.Overlap rule graph} {formed : graph.WellFormed}

theorem block_eq_nil_iff (traces : Traces model keeper found) {vertex : VertexId} :
    found.block vertex = [] ↔ ∀ right, ¬model.branch vertex (.inr right) := by
  rw [PartialMatch.block_eq_nil]
  exact forall_congr' fun right => not_congr traces.vertices

/-- An unmatched edge of the graph has its image in the context. -/
theorem image_unmatched (traces : Traces model keeper found) {edge : EdgeId}
    (unmatched : edge ∉ found.edges.values) (present : graph.skeleton.HasEdge edge) :
    ∃ kept, model.image edge = .inl kept := by
  cases same : model.image edge with
  | inl kept => exact ⟨kept, rfl⟩
  | inr right =>
    exact absurd (Table.mem_values_iff.mpr ⟨right, traces.edges.mpr ⟨present, same⟩⟩) unmatched

theorem context_hasEdge {edge : EdgeId}
    (inside : (overlap.context formed).before.HasEdge (.inl edge)) :
    edge ∉ found.edges.values ∧ graph.skeleton.HasEdge edge := by
  obtain ⟨label, places, stored⟩ := Context.fill_hasEdge_context.mp inside
  obtain ⟨unmatched, ends, known, _⟩ := PartialMatch.Overlap.context_edge.mp stored
  exact ⟨unmatched, label, ends, known⟩

/-- What a model does not use in the context is not used by the split model. -/
theorem split_free {kept : β} (free : model.Free (.inl kept)) (other : EdgeId ⊕ EdgeId)
    (present : (overlap.context formed).before.HasEdge other) :
    splitImage model other ≠ .inl kept := by
  cases other with
  | inl edge => exact free edge (context_hasEdge present).2
  | inr edge => exact nofun

/-- All of a part is joined to the vertex of the left side. -/
theorem part_joined (found : PartialMatch) (valid : rule.Valid) (guides : Guides model keeper)
    {left : VertexId} {member : α ⊕ VertexId} (inside : rule.left.hasVertex left = true)
    (part : Part model keeper left member) : context.before.Joined
      (fun edge => ∃ kept, edge = .inl kept ∧ model.Free edge)
        (SplitBranch model keeper found (.inr left)) member (.inr left) := by
  rcases part with rfl | ⟨right, vertex, kept, mapped, atRight, rfl, atKept, goes⟩
  · exact .refl
  · have origin : back rule (.inr right : α ⊕ VertexId) = .inr left :=
      congrArg Sum.inr (valid.origin_eq mapped)
    obtain ⟨_, walk⟩ := guides atKept atRight
    rw [goes] at walk
    rw [← origin]
    refine Relation.ReflTransGen.lift (back rule) (fun one other link => ?_) _ _ walk
    have members := link
    obtain ⟨⟨here, hereGoes⟩, ⟨there, thereGoes⟩, _⟩ := members
    exact link_back link ⟨inside, part_of_goes valid mapped atRight here hereGoes⟩
      ⟨inside, part_of_goes valid mapped atRight there thereGoes⟩

private theorem not_part_of_unmatched (traces : Traces model keeper found) {vertex left : VertexId}
    {kept : α} (empty : found.block vertex = []) (inside : model.branch vertex (.inl kept)) :
    ¬Part model keeper left (.inl kept) := by
  intro part
  rcases part with same | ⟨right, other, kept, mapped, atRight, same, atKept, _⟩
  · cases same
  · cases same
    rw [← model.branch_apart inside atKept] at atRight
    exact (block_eq_nil_iff traces).mp empty right atRight

private theorem part_apart (valid : rule.Valid) {one other : VertexId} {member : α ⊕ VertexId}
    (first : Part model keeper one member) (second : Part model keeper other member) :
    one = other := by
  rcases first with rfl | ⟨right, vertex, kept, mapped, _, rfl, atKept, goes⟩
  · rcases second with same | ⟨_, _, _, _, _, same, _⟩
    · exact Sum.inr.inj same
    · cases same
  · rcases second with same | ⟨right', vertex', kept', mapped', _, same, atKept', goes'⟩
    · cases same
    · cases same
      rw [model.branch_apart atKept' atKept, goes] at goes'
      rw [goes'] at mapped
      exact valid.vertex_injective mapped mapped'

private theorem split_apart (valid : rule.Valid) (traces : Traces model keeper found)
    {one other : VertexId ⊕ VertexId} {member : α ⊕ VertexId}
    (first : SplitBranch model keeper found one member)
    (second : SplitBranch model keeper found other member) :
    one = other := by
  cases one <;> cases other
  case inl.inl one other =>
    obtain ⟨_, kept, rfl, here⟩ := first
    obtain ⟨_, kept', same, there⟩ := second
    cases same
    exact congrArg Sum.inl (model.branch_apart here there)
  case inl.inr one other =>
    obtain ⟨empty, kept, rfl, here⟩ := first
    exact absurd second.2 (not_part_of_unmatched traces empty here)
  case inr.inl one other =>
    obtain ⟨empty, kept, rfl, here⟩ := second
    exact absurd first.2 (not_part_of_unmatched traces empty here)
  case inr.inr one other => exact congrArg Sum.inr (part_apart valid first.2 second.2)

private theorem split_incidence (valid : rule.Valid)
    (traces : Traces model keeper found) {edge : EdgeId} {label : String} {ends : List VertexId}
    {kept : β} {places : List (α ⊕ VertexId)} {index : Nat} {vertex : VertexId}
    {place : α ⊕ VertexId} (stored : graph.skeleton.edge? edge = some (label, ends))
    (image : model.image edge = .inl kept) (known : context.edge? kept = some (label, places))
    (atVertex : ends[index]? = some vertex) (atPlace : places[index]? = some place)
    (inside : model.branch vertex place) :
    SplitBranch model keeper found (Sum.map id rule.origin (found.opening ⟨edge, index⟩ vertex))
      (back rule place) := by
  by_cases empty : found.block vertex = []
  · have opened : found.opening ⟨edge, index⟩ vertex =
      .inl vertex := by rw [PartialMatch.opening, PartialMatch.owner, empty]
    rw [opened]
    cases place with
    | inl member => exact ⟨empty, member, rfl, inside⟩
    | inr right => exact absurd inside ((block_eq_nil_iff traces).mp empty right)
  · obtain ⟨right, member⟩ := List.exists_mem_of_ne_nil _ empty
    obtain ⟨target, owned, preserved, atTarget, goes⟩ :=
      traces.guided stored image known atVertex atPlace
        (traces.vertices.mp (PartialMatch.mem_block.mp member))
    have opened : found.opening ⟨edge, index⟩ vertex =
      .inr target := by rw [PartialMatch.opening, owned]
    have mapped := valid.map_origin preserved
    rw [opened]
    exact ⟨(valid.vertex_sides mapped).1, part_of_goes valid mapped atTarget inside goes⟩

private theorem unmatched_joined (traces : Traces model keeper found) {vertex : VertexId}
    {one other : α} (empty : found.block vertex = []) (atOne : model.branch vertex (.inl one))
    (atOther : model.branch vertex (.inl other)) : context.before.Joined
      (fun edge => ∃ kept, edge = .inl kept ∧ model.Free edge)
        (SplitBranch model keeper found (.inl vertex)) (.inl one) (.inl other) := by
  refine Relation.ReflTransGen.lift (back rule) (fun left right link => ?_)
    _ _ (model.branch_joined atOne atOther)
  obtain ⟨here, there, _⟩ := id link
  cases left with
  | inr left => exact absurd here ((block_eq_nil_iff traces).mp empty left)
  | inl left =>
    cases right with
    | inr right => exact absurd there ((block_eq_nil_iff traces).mp empty right)
    | inl right =>
      exact link_back (outside_of_link link) ⟨empty, left, rfl, here⟩ ⟨empty, right, rfl, there⟩

private theorem split_kept (valid : rule.Valid) (traces : Traces model keeper found) {edge : EdgeId}
    {label : String} {places : List (VertexId ⊕ VertexId)}
    (opened : (overlap.context formed).edge? edge = some (label, places)) :
    ∃ members, context.before.edge? (splitImage model (.inl edge)) = some (label, members) ∧
      List.Forall₂ (SplitBranch model keeper found)
        (places.map (Sum.map id rule.origin)) members := by
  obtain ⟨unmatched, vertices, known, rfl⟩ := PartialMatch.Overlap.context_edge.mp opened
  obtain ⟨kept, image⟩ := image_unmatched traces unmatched ⟨label, vertices, known⟩
  obtain ⟨places, imaged, along⟩ := model.image_kept known
  rw [image] at imaged
  have there := Context.after_context.mp imaged
  refine ⟨places.map (Sum.map id rule.origin), ?_, ?_⟩
  · rw [splitImage, image]
    exact Context.fill_context.mpr ⟨places, there, rfl⟩
  · refine Listing.along_of_getElem? (by simp [along.length_eq])
      fun index opening member atOpening atMember => ?_
    rw [List.map_map, List.getElem?_map, List.getElem?_zipIdx, Option.map_map,
      Option.map_eq_some_iff] at atOpening
    obtain ⟨vertex, atVertex, rfl⟩ := atOpening
    obtain ⟨place, atPlace, inside⟩ := Listing.along_getElem? along atVertex
    rw [List.getElem?_map, atPlace, Option.map_some, Option.some.injEq] at atMember
    rw [← atMember, Function.comp_apply, Function.comp_apply, Nat.zero_add]
    exact split_incidence valid traces known image there atVertex atPlace inside

/-- The model in the graph before the step. -/
def splitModel (valid : rule.Valid) (formedLeft : rule.left.WellFormed) (guides : Guides model keeper)
    (traces : Traces model keeper found) (overlap : found.Overlap rule graph)
    (formed : graph.WellFormed) :
    Skeleton.Model (overlap.context formed).before context.before where
  image := splitImage model
  branch := SplitBranch model keeper found
  branch_inside {vertex member} inside := by
    cases vertex with
    | inl vertex =>
      obtain ⟨empty, kept, rfl, inside⟩ := inside
      obtain ⟨here, there⟩ := model.branch_inside inside
      exact ⟨⟨here, empty⟩, there⟩
    | inr left =>
      refine ⟨inside.1, ?_⟩
      rcases inside.2 with rfl | ⟨right, vertex, kept, _, _, rfl, atKept, _⟩
      · exact inside.1
      · exact (model.branch_inside atKept).2
  branch_apart first second := split_apart valid traces first second
  branch_nonempty {vertex} present := by
    cases vertex with
    | inl vertex =>
      obtain ⟨here, empty⟩ := present
      obtain ⟨member, inside⟩ := model.branch_nonempty (show graph.skeleton.vertex vertex from here)
      cases member with
      | inl kept => exact ⟨.inl kept, empty, kept, rfl, inside⟩
      | inr right => exact absurd inside ((block_eq_nil_iff traces).mp empty right)
    | inr left => exact ⟨.inr left, present, .inl rfl⟩
  branch_joined {vertex first second} atFirst atSecond := by
    have free : ∀ edge : β ⊕ EdgeId, (∃ kept, edge = .inl kept ∧ model.Free edge) →
        ∀ other, (overlap.context formed).before.HasEdge other → splitImage model other ≠ edge := by
      intro edge unused other present
      obtain ⟨kept, rfl, unused⟩ := unused
      exact split_free unused other present
    cases vertex with
    | inl vertex =>
      obtain ⟨empty, one, rfl, atOne⟩ := atFirst
      obtain ⟨_, other, rfl, atOther⟩ := atSecond
      exact Skeleton.Joined.mono (unmatched_joined traces empty atOne atOther) free fun _ => id
    | inr left =>
      have toFirst := part_joined found valid guides atFirst.1 atFirst.2
      have toSecond := part_joined found valid guides atSecond.1 atSecond.2
      exact Skeleton.Joined.mono (toFirst.trans toSecond.symm) free fun _ => id
  image_injective {one other} first second same := by
    cases one <;> cases other
    case inl.inl one other =>
      exact congrArg Sum.inl
        (model.image_injective (context_hasEdge first).2 (context_hasEdge second).2 same)
    case inl.inr one other =>
      obtain ⟨unmatched, present⟩ := context_hasEdge first
      obtain ⟨kept, image⟩ := image_unmatched traces unmatched present
      cases image.symm.trans same
    case inr.inl one other =>
      obtain ⟨unmatched, present⟩ := context_hasEdge second
      obtain ⟨kept, image⟩ := image_unmatched traces unmatched present
      cases image.symm.trans same.symm
    case inr.inr one other => exact congrArg Sum.inr (Sum.inr.inj same)
  image_kept {edge label ends} stored := by
    cases edge with
    | inr edge =>
      obtain ⟨vertices, known, rfl⟩ := Context.fill_side.mp stored
      refine ⟨_, Context.fill_side.mpr ⟨vertices, known, rfl⟩, ?_⟩
      rw [List.forall₂_map_left_iff, List.forall₂_map_right_iff, List.forall₂_same]
      exact fun left member => ⟨formedLeft.closed _ _ _ known left member, .inl rfl⟩
    | inl edge =>
      obtain ⟨openings, opened, rfl⟩ := Context.fill_context.mp stored
      exact split_kept valid traces opened

theorem splitModel_single (valid : rule.Valid) (formedLeft : rule.left.WellFormed)
    (guides : Guides model keeper) (traces : Traces model keeper found)
    (overlap : found.Overlap rule graph) (formed : graph.WellFormed) (single : model.Single) :
    (splitModel valid formedLeft guides traces overlap formed).Single := by
  intro vertex first second atFirst atSecond
  cases vertex with
  | inl vertex =>
    obtain ⟨_, one, rfl, atOne⟩ := atFirst
    obtain ⟨_, other, rfl, atOther⟩ := atSecond
    exact single atOne atOther
  | inr left =>
    have only : ∀ member, Part model keeper left member → member = .inr left := by
      intro member part
      rcases part with same | ⟨right, vertex, kept, _, atRight, _, atKept, _⟩
      · exact same
      · cases single atKept atRight
    rw [only first atFirst.2, only second atSecond.2]

section Untouched

/-- A model that makes use of nothing the rule creates. -/
structure Untouched (model : Skeleton.Model graph.skeleton context.after) : Prop where
  vertices : ∀ {vertex right}, model.branch vertex (.inr right) → rule.Preserved right
  edges : ∀ {edge right}, graph.skeleton.HasEdge edge → model.image edge = .inr right →
    ∃ left, rule.edgeMap.get? left = some right
  contracts : ∀ {edge label ends one other vertex}, edge ∈ rule.createdEdges →
    rule.right.skeleton.edge? edge = some (label, ends) →
    one ∈ ends → other ∈ ends → model.branch vertex (.inr one) →
    model.branch vertex (.inr other) → one = other

def untouchedImage (model : Skeleton.Model graph.skeleton context.after)
    (edge : EdgeId) : β ⊕ EdgeId :=
  Sum.map id rule.originEdge (model.image edge)

def UntouchedBranch (model : Skeleton.Model graph.skeleton context.after) (vertex : VertexId)
    (member : α ⊕ VertexId) : Prop :=
  ∃ place, model.branch vertex place ∧ back rule place = member

private theorem backEdge_injective (valid : rule.Valid) {one other : β ⊕ EdgeId}
    (keptOne : ∀ right, one = .inr right → ∃ left, rule.edgeMap.get? left = some right)
    (keptOther : ∀ right, other = .inr right → ∃ left, rule.edgeMap.get? left = some right)
    (same : Sum.map id rule.originEdge one = Sum.map id rule.originEdge other) : one = other := by
  cases one <;> cases other
  case inl.inl one other => exact congrArg Sum.inl (Sum.inl.inj same)
  case inl.inr one other => cases same
  case inr.inl one other => cases same
  case inr.inr one other =>
    obtain ⟨left, mapped⟩ := keptOne one rfl
    obtain ⟨left', mapped'⟩ := keptOther other rfl
    have equal := Sum.inr.inj same
    rw [valid.originEdge_eq mapped, valid.originEdge_eq mapped'] at equal
    rw [equal, mapped'] at mapped
    exact congrArg Sum.inr (Option.some.inj mapped).symm

private theorem before_edge (valid : rule.Valid) {edge : β ⊕ EdgeId} {label : String}
    {ends : List (α ⊕ VertexId)} (stored : context.after.edge? edge = some (label, ends))
    (kept : ∀ right, edge = .inr right → ∃ left, rule.edgeMap.get? left = some right) :
    context.before.edge? (Sum.map id rule.originEdge edge) = some (label, ends.map (back rule)) := by
  cases edge with
  | inl edge => exact Context.fill_context.mpr ⟨ends, Context.after_context.mp stored, rfl⟩
  | inr edge =>
    obtain ⟨left, mapped⟩ := kept edge rfl
    obtain ⟨vertices, known, rfl⟩ := Context.fill_side.mp stored
    obtain ⟨label', sources, others, here, there, along⟩ := Context.preservedEdge_sides valid mapped
    rw [known, Option.some.injEq, Prod.mk.injEq] at there
    obtain ⟨rfl, rfl⟩ := there
    rw [Sum.map_inr, valid.originEdge_eq mapped]
    refine Context.fill_side.mpr ⟨sources, here, ?_⟩
    rw [List.map_map]
    exact Listing.map_eq_of_along along fun one other mapped =>
      congrArg Sum.inr (valid.origin_eq mapped).symm

/-- A model that makes use of nothing created was there before the step. -/
def untouchedModel (valid : rule.Valid) (untouched : Untouched model) :
    Skeleton.Model graph.skeleton context.before where
  image := untouchedImage model
  branch := UntouchedBranch model
  branch_inside {vertex member} inside := by
    obtain ⟨place, inside, rfl⟩ := inside
    obtain ⟨here, there⟩ := model.branch_inside inside
    refine ⟨here, ?_⟩
    cases place with
    | inl kept => exact there
    | inr right => exact (valid.vertex_sides (valid.map_origin (untouched.vertices inside))).1
  branch_apart {one other member} first second := by
    obtain ⟨place, atPlace, rfl⟩ := first
    obtain ⟨place', atPlace', same⟩ := second
    suffices equal : place = place' by
      subst equal
      exact model.branch_apart atPlace atPlace'
    cases place <;> cases place'
    case inl.inl one other => exact congrArg Sum.inl (Sum.inl.inj same).symm
    case inl.inr one other => cases same
    case inr.inl one other => cases same
    case inr.inr one other =>
      have mapped := valid.map_origin (untouched.vertices atPlace)
      have mapped' := valid.map_origin (untouched.vertices atPlace')
      rw [Sum.inr.inj same, mapped] at mapped'
      exact congrArg Sum.inr (Option.some.inj mapped')
  branch_nonempty present := by
    obtain ⟨place, inside⟩ := model.branch_nonempty present
    exact ⟨_, place, inside, rfl⟩
  branch_joined {vertex first second} atFirst atSecond := by
    obtain ⟨one, atOne, rfl⟩ := atFirst
    obtain ⟨other, atOther, rfl⟩ := atSecond
    refine Relation.ReflTransGen.lift' (back rule) (fun left right link => ?_)
      _ _ (model.branch_joined atOne atOther)
    obtain ⟨here, there, edge, label, ends, free, stored, leftOn, rightOn⟩ := link
    by_cases kept : ∀ right, edge = .inr right → ∃ left, rule.edgeMap.get? left = some right
    · refine .single ⟨⟨left, here, rfl⟩, ⟨right, there, rfl⟩, _, label, _,
        fun source present same => ?_, before_edge valid stored kept,
        List.mem_map_of_mem leftOn, List.mem_map_of_mem rightOn⟩
      exact free source present
        (backEdge_injective valid (fun _ => untouched.edges present) kept same)
    · rw [not_forall] at kept
      obtain ⟨created, kept⟩ := kept
      rw [Classical.not_imp] at kept
      obtain ⟨rfl, unmapped⟩ := kept
      obtain ⟨vertices, known, rfl⟩ := Context.fill_side.mp stored
      obtain ⟨one, oneOn, rfl⟩ := List.mem_map.mp leftOn
      obtain ⟨other, otherOn, rfl⟩ := List.mem_map.mp rightOn
      have new : created ∈ rule.createdEdges :=
        Rule.mem_createdEdges.mpr ⟨Hypergraph.skeleton_hasEdge.mp ⟨label, vertices, known⟩,
          not_exists.mp unmapped⟩
      exact untouched.contracts new known oneOn otherOn here there ▸ .refl
  image_injective {one other} first second same := by
    refine model.image_injective first second (backEdge_injective valid ?_ ?_ same)
    · exact fun _ => untouched.edges first
    · exact fun _ => untouched.edges second
  image_kept {edge label ends} stored := by
    obtain ⟨members, kept, along⟩ := model.image_kept stored
    refine ⟨_, before_edge valid kept fun _ => untouched.edges ⟨label, ends, stored⟩, ?_⟩
    rw [List.forall₂_map_right_iff]
    exact along.imp fun vertex place inside => ⟨place, inside, rfl⟩

theorem untouchedModel_single (valid : rule.Valid) (untouched : Untouched model)
    (single : model.Single) :
    (untouchedModel valid untouched).Single := by
  intro vertex first second atFirst atSecond
  obtain ⟨one, atOne, rfl⟩ := atFirst
  obtain ⟨other, atOther, rfl⟩ := atSecond
  rw [single atOne atOther]

end Untouched

end Splitting

end Coverability
