import Coverability.Hypergraph.Basic
import Coverability.Proofs.Listing
import Mathlib.Logic.Relation

/-! Graphs as sets. A skeleton says which vertices and edges there are and where the edges run; names
and the incidence index play no part. Skeletons may take their vertices and edges from any type, so a
graph that is only described, and never built, has one as well.

A model shows one skeleton to be a minor of another: every edge has an image, every vertex a branch of
vertices, and the edges that are no image hold each branch together. -/

namespace Coverability

structure Skeleton (α β : Type) where
  vertex : α → Prop
  edge? : β → Option (String × List α)

def Hypergraph.skeleton (graph : Hypergraph) : Skeleton VertexId EdgeId where
  vertex vertex := graph.hasVertex vertex = true
  edge? edge := (graph.edge? edge).map fun found => (found.label, found.vertices)

namespace Skeleton

variable {α β γ δ ε ζ : Type}

def HasEdge (graph : Skeleton α β) (edge : β) : Prop :=
  ∃ label ends, graph.edge? edge = some (label, ends)

/-- Edges run between vertices of the graph. -/
def Closed (graph : Skeleton α β) : Prop :=
  ∀ edge label ends, graph.edge? edge = some (label, ends) → ∀ vertex ∈ ends, graph.vertex vertex

/-- Two vertices of a set that lie on one of the usable edges. -/
def Link (graph : Skeleton α β) (usable : β → Prop) (inside : α → Prop) (first second : α) : Prop :=
  inside first ∧ inside second ∧
    ∃ edge label ends, usable edge ∧ graph.edge? edge = some (label, ends) ∧
      first ∈ ends ∧ second ∈ ends

/-- Two vertices of a set that a walk over usable edges joins inside the set. -/
def Joined (graph : Skeleton α β) (usable : β → Prop) (inside : α → Prop) : α → α → Prop :=
  Relation.ReflTransGen (graph.Link usable inside)

structure Iso (first : Skeleton α β) (second : Skeleton γ δ) where
  vertex : α → γ
  edge : β → δ
  vertex_inside : ∀ {one}, first.vertex one → second.vertex (vertex one)
  vertex_injective : ∀ {one other}, first.vertex one → first.vertex other →
    vertex one = vertex other → one = other
  vertex_surjective : ∀ {target}, second.vertex target → ∃ one, first.vertex one ∧ vertex one = target
  edge_kept : ∀ {one label ends}, first.edge? one = some (label, ends) →
    second.edge? (edge one) = some (label, ends.map vertex)
  edge_injective : ∀ {one other}, first.HasEdge one → first.HasEdge other →
    edge one = edge other → one = other
  edge_surjective : ∀ {target}, second.HasEdge target → ∃ one, first.HasEdge one ∧ edge one = target

def Isomorphic (first : Skeleton α β) (second : Skeleton γ δ) : Prop := Nonempty (Iso first second)

structure Model (smaller : Skeleton α β) (bigger : Skeleton γ δ) where
  image : β → δ
  branch : α → γ → Prop
  branch_inside : ∀ {vertex member}, branch vertex member → smaller.vertex vertex ∧
    bigger.vertex member
  branch_apart : ∀ {one other member}, branch one member → branch other member → one = other
  branch_nonempty : ∀ {vertex}, smaller.vertex vertex → ∃ member, branch vertex member
  branch_joined : ∀ {vertex first second}, branch vertex first → branch vertex second →
    bigger.Joined (fun edge => ∀ other, smaller.HasEdge other → image other ≠ edge)
      (branch vertex) first second
  image_injective : ∀ {one other}, smaller.HasEdge one → smaller.HasEdge other →
    image one = image other → one = other
  image_kept : ∀ {edge label ends}, smaller.edge? edge = some (label, ends) →
    ∃ members, bigger.edge? (image edge) = some (label, members) ∧ List.Forall₂ branch ends members

/-- The edges that a model may contract. -/
def Model.Free {smaller : Skeleton α β} {bigger : Skeleton γ δ} (model : Model smaller bigger)
    (edge : δ) : Prop :=
  ∀ other, smaller.HasEdge other → model.image other ≠ edge

/-- A model with branches of one vertex each is an embedding. -/
def Model.Single {smaller : Skeleton α β} {bigger : Skeleton γ δ}
    (model : Model smaller bigger) : Prop :=
  ∀ {vertex first second}, model.branch vertex first → model.branch vertex second → first = second

/-- The relation that an order decides: a minor, or a subgraph if nothing may be contracted. -/
def Below (contract : Bool) (smaller : Skeleton α β) (bigger : Skeleton γ δ) : Prop :=
  ∃ model : Model smaller bigger, contract = false → model.Single

variable {first : Skeleton α β} {second : Skeleton γ δ} {third : Skeleton ε ζ}

theorem Joined.mono {graph : Skeleton α β} {usable usable' : β → Prop}
    {inside inside' : α → Prop} {one other : α} (joined : graph.Joined usable inside one other)
    (edges : ∀ edge, usable edge → usable' edge)
    (members : ∀ vertex, inside vertex → inside' vertex) : graph.Joined usable' inside' one other :=
  Relation.ReflTransGen.mono
    (fun _ _ ⟨left, right, edge, label, ends, use, found, here, there⟩ =>
      ⟨members _ left, members _ right, edge, label, ends, edges edge use, found, here, there⟩)
    _ _ joined

theorem Link.symm {graph : Skeleton α β} {usable : β → Prop} {inside : α → Prop} {one other : α}
    (link : graph.Link usable inside one other) : graph.Link usable inside other one :=
  let ⟨left, right, edge, label, ends, use, found, here, there⟩ := link
  ⟨right, left, edge, label, ends, use, found, there, here⟩

theorem Joined.symm {graph : Skeleton α β} {usable : β → Prop} {inside : α → Prop} {one other : α}
    (joined : graph.Joined usable inside one other) : graph.Joined usable inside other one :=
  have : Std.Symm (graph.Link usable inside) := ⟨fun _ _ link => link.symm⟩
  Relation.ReflTransGen.stdSymm.symm _ _ joined

namespace Iso

def refl (graph : Skeleton α β) : Iso graph graph where
  vertex := id
  edge := id
  vertex_inside := id
  vertex_injective _ _ same := same
  vertex_surjective inside := ⟨_, inside, rfl⟩
  edge_kept found := by simpa using found
  edge_injective _ _ same := same
  edge_surjective found := ⟨_, found, rfl⟩

theorem hasEdge (iso : Iso first second) {edge : β} (found : first.HasEdge edge) :
    second.HasEdge (iso.edge edge) :=
  let ⟨_, _, found⟩ := found
  ⟨_, _, iso.edge_kept found⟩

def trans (iso : Iso first second) (other : Iso second third) : Iso first third where
  vertex := other.vertex ∘ iso.vertex
  edge := other.edge ∘ iso.edge
  vertex_inside inside := other.vertex_inside (iso.vertex_inside inside)
  vertex_injective left right same :=
    iso.vertex_injective left right
      (other.vertex_injective (iso.vertex_inside left) (iso.vertex_inside right) same)
  vertex_surjective inside := by
    obtain ⟨between, insideBetween, rfl⟩ := other.vertex_surjective inside
    obtain ⟨one, insideOne, rfl⟩ := iso.vertex_surjective insideBetween
    exact ⟨one, insideOne, rfl⟩
  edge_kept found := by simpa using other.edge_kept (iso.edge_kept found)
  edge_injective left right same :=
    iso.edge_injective left right (other.edge_injective (iso.hasEdge left) (iso.hasEdge right) same)
  edge_surjective found := by
    obtain ⟨between, foundBetween, rfl⟩ := other.edge_surjective found
    obtain ⟨one, foundOne, rfl⟩ := iso.edge_surjective foundBetween
    exact ⟨one, foundOne, rfl⟩

/-- An edge of the second graph is the image of an edge with corresponding ends. -/
theorem edge_reflected (iso : Iso first second) {target : δ} {label : String} {others : List γ}
    (found : second.edge? target = some (label, others)) :
    ∃ one ends, first.edge? one = some (label, ends) ∧ iso.edge one = target ∧
      ends.map iso.vertex = others := by
  obtain ⟨one, ⟨label', ends, foundOne⟩, same⟩ := iso.edge_surjective ⟨_, _, found⟩
  have kept := iso.edge_kept foundOne
  rw [same, found, Option.some.injEq, Prod.mk.injEq] at kept
  exact ⟨one, ends, kept.1 ▸ foundOne, same, kept.2.symm⟩

open Classical in
noncomputable def symm [Nonempty α] [Nonempty β] (iso : Iso first second) (closed : first.Closed) :
    Iso second first where
  vertex target := Classical.epsilon fun one => first.vertex one ∧ iso.vertex one = target
  edge target := Classical.epsilon fun one => first.HasEdge one ∧ iso.edge one = target
  vertex_inside inside := (Classical.epsilon_spec (iso.vertex_surjective inside)).1
  vertex_injective left right same := by
    rw [← (Classical.epsilon_spec (iso.vertex_surjective left)).2,
      ← (Classical.epsilon_spec (iso.vertex_surjective right)).2, same]
  vertex_surjective {one} inside := by
    have back := Classical.epsilon_spec (iso.vertex_surjective (iso.vertex_inside inside))
    exact ⟨iso.vertex one, iso.vertex_inside inside, iso.vertex_injective back.1 inside back.2⟩
  edge_kept {target label others} found := by
    obtain ⟨one, ends, foundOne, rfl, rfl⟩ := iso.edge_reflected found
    have back := Classical.epsilon_spec (iso.edge_surjective ⟨_, _, found⟩)
    rw [iso.edge_injective back.1 ⟨_, _, foundOne⟩ back.2, foundOne, List.map_map]
    refine congrArg some (Prod.ext rfl ?_)
    refine (List.map_id ends).symm.trans (List.map_congr_left ?_)
    intro vertex member
    have inside := closed _ _ _ foundOne vertex member
    have back := Classical.epsilon_spec (iso.vertex_surjective (iso.vertex_inside inside))
    exact (iso.vertex_injective back.1 inside back.2).symm
  edge_injective left right same := by
    rw [← (Classical.epsilon_spec (iso.edge_surjective left)).2,
      ← (Classical.epsilon_spec (iso.edge_surjective right)).2, same]
  edge_surjective {one} found := by
    have back := Classical.epsilon_spec (iso.edge_surjective (iso.hasEdge found))
    exact ⟨iso.edge one, iso.hasEdge found, iso.edge_injective back.1 found back.2⟩

theorem closed (iso : Iso first second) (closed : first.Closed) : second.Closed := by
  intro target label others found vertex member
  obtain ⟨one, ends, foundOne, rfl, rfl⟩ := iso.edge_reflected found
  obtain ⟨source, inside, rfl⟩ := List.mem_map.mp member
  exact iso.vertex_inside (closed _ _ _ foundOne source inside)

def model (iso : Iso first second) (closed : first.Closed) : Model first second where
  image := iso.edge
  branch vertex member := first.vertex vertex ∧ iso.vertex vertex = member
  branch_inside := by
    rintro vertex member ⟨inside, rfl⟩
    exact ⟨inside, iso.vertex_inside inside⟩
  branch_apart one other := iso.vertex_injective one.1 other.1 (one.2.trans other.2.symm)
  branch_nonempty inside := ⟨_, inside, rfl⟩
  branch_joined := by
    rintro vertex _ _ ⟨_, rfl⟩ ⟨_, rfl⟩
    exact .refl
  image_injective := iso.edge_injective
  image_kept := by
    intro edge label ends found
    refine ⟨_, iso.edge_kept found, ?_⟩
    rw [List.forall₂_map_right_iff, List.forall₂_same]
    exact fun vertex member => ⟨closed _ _ _ found vertex member, rfl⟩

theorem model_single (iso : Iso first second) (closed : first.Closed) :
    (iso.model closed).Single := by
  rintro vertex _ _ ⟨_, rfl⟩ ⟨_, rfl⟩
  rfl

theorem below (iso : Iso first second) (closed : first.Closed) (contract : Bool) :
    Below contract first second :=
  ⟨iso.model closed, fun _ => iso.model_single closed⟩

end Iso

namespace Model

theorem hasEdge (model : Model first second) {edge : β} (found : first.HasEdge edge) :
    second.HasEdge (model.image edge) :=
  let ⟨_, _, found⟩ := found
  let ⟨_, kept, _⟩ := model.image_kept found
  ⟨_, _, kept⟩

private theorem joined_trans (model : Model first second) (other : Model second third) {vertex : α}
    {start finish : γ} (walk : second.Joined model.Free (model.branch vertex) start finish)
    {one two : ε} (here : other.branch start one) (there : other.branch finish two)
    (inside : model.branch vertex start) :
    third.Joined
      (fun edge => ∀ source, first.HasEdge source → other.image (model.image source) ≠ edge)
      (fun member => ∃ between, model.branch vertex between ∧ other.branch between member)
      one two := by
  -- An edge joins the branches of its ends, and every branch is joined in itself.
  have within : ∀ {between left right}, model.branch vertex between → other.branch between left →
      other.branch between right →
      third.Joined
        (fun edge => ∀ source, first.HasEdge source → other.image (model.image source) ≠ edge)
        (fun member => ∃ between, model.branch vertex between ∧ other.branch between member)
          left right := by
    intro between left right mine atLeft atRight
    exact (other.branch_joined atLeft atRight).mono
      (fun edge free source found => free _ (model.hasEdge found))
        (fun member atMember => ⟨between, mine, atMember⟩)
  induction walk generalizing two with
  | refl => exact within inside here there
  | @tail middle last walk link ih =>
    obtain ⟨mine, yours, edge, label, ends, free, found, middleOn, lastOn⟩ := link
    obtain ⟨members, kept, along⟩ := other.image_kept found
    obtain ⟨near, nearOn, atNear⟩ := Listing.along_left along middleOn
    obtain ⟨far, farOn, atFar⟩ := Listing.along_left along lastOn
    have unused : ∀ source, first.HasEdge source →
        other.image (model.image source) ≠ other.image edge :=
      fun source hasSource same =>
        free source hasSource (other.image_injective (model.hasEdge hasSource) ⟨_, _, found⟩ same)
    have step :
        third.Link
          (fun edge => ∀ source, first.HasEdge source → other.image (model.image source) ≠ edge)
        (fun member => ∃ between, model.branch vertex between ∧ other.branch between member)
        near far :=
      ⟨⟨middle, mine, atNear⟩, ⟨last, yours, atFar⟩, _, _, _, unused, kept, nearOn, farOn⟩
    exact (ih atNear).trans ((Relation.ReflTransGen.single step).trans (within yours atFar there))

def trans (model : Model first second) (other : Model second third) : Model first third where
  image := other.image ∘ model.image
  branch vertex member := ∃ between, model.branch vertex between ∧ other.branch between member
  branch_inside := by
    rintro vertex member ⟨between, mine, yours⟩
    exact ⟨(model.branch_inside mine).1, (other.branch_inside yours).2⟩
  branch_apart := by
    rintro one two member ⟨left, atLeft, mine⟩ ⟨right, atRight, yours⟩
    exact model.branch_apart atLeft (other.branch_apart mine yours ▸ atRight)
  branch_nonempty inside := by
    obtain ⟨between, mine⟩ := model.branch_nonempty inside
    obtain ⟨member, yours⟩ := other.branch_nonempty (model.branch_inside mine).2
    exact ⟨member, between, mine, yours⟩
  branch_joined := by
    rintro vertex one two ⟨left, atLeft, mine⟩ ⟨right, atRight, yours⟩
    exact joined_trans model other (model.branch_joined atLeft atRight) mine yours atLeft
  image_injective left right same :=
    model.image_injective left right
      (other.image_injective (model.hasEdge left) (model.hasEdge right) same)
  image_kept := by
    intro edge label ends found
    obtain ⟨between, kept, along⟩ := model.image_kept found
    obtain ⟨members, keptAgain, alongAgain⟩ := other.image_kept kept
    exact ⟨members, keptAgain, Listing.along_trans along alongAgain⟩

theorem trans_single {model : Model first second} {other : Model second third}
    (single : model.Single) (singleNext : other.Single) :
    (model.trans other).Single := by
  rintro vertex one two ⟨left, atLeft, mine⟩ ⟨right, atRight, yours⟩
  have same := single atLeft atRight
  subst same
  exact singleNext mine yours

/-- If no edge is free, nothing holds two vertices of a branch together. -/
theorem single_of_tight (model : Model first second)
    (tight : ∀ edge, second.HasEdge edge → ¬model.Free edge) : model.Single := by
  intro vertex one other atOne atOther
  have walk := model.branch_joined atOne atOther
  induction walk with
  | refl => rfl
  | tail _ link _ =>
    obtain ⟨_, _, edge, label, ends, free, found, _⟩ := link
    exact absurd free (tight edge ⟨_, _, found⟩)

/-- Every branch has a vertex that stands for it. -/
theorem exists_hub [Nonempty γ] (model : Model first second) :
    ∃ hub : α → γ, (∀ {vertex}, first.vertex vertex → model.branch vertex (hub vertex)) ∧
    ∀ {one other}, first.vertex one → first.vertex other → hub one = hub other → one = other := by
  have inside : ∀ {vertex}, first.vertex vertex →
      model.branch vertex (Classical.epsilon (model.branch vertex)) :=
    fun present => Classical.epsilon_spec (model.branch_nonempty present)
  exact ⟨_, inside, fun left right same => model.branch_apart (inside left) (same ▸ inside right)⟩

/-- A model that leaves over no edge and no vertex is an isomorphism. -/
theorem isomorphic_of_tight [Nonempty γ] (model : Model first second)
    (tight : ∀ edge, second.HasEdge edge → ¬model.Free edge)
    (full : ∀ member, second.vertex member → ∃ vertex, model.branch vertex member) :
    Isomorphic first second := by
  have single : model.Single := model.single_of_tight tight
  obtain ⟨hub, inside, injective⟩ := model.exists_hub
  refine ⟨⟨hub, model.image, fun present => (model.branch_inside (inside present)).2, injective,
    fun {member} present => ?_,
    fun {source label ends} stored => ?_, model.image_injective, fun {edge} found => ?_⟩⟩
  · obtain ⟨vertex, branch⟩ := full member present
    have source := (model.branch_inside branch).1
    exact ⟨vertex, source, single (inside source) branch⟩
  · obtain ⟨members, kept, along⟩ := model.image_kept stored
    have same : ends.map hub = members := by
      rw [← List.forall₂_eq_eq_eq, List.forall₂_map_left_iff]
      exact along.imp fun vertex member branch =>
        single (inside (model.branch_inside branch).1) branch
    rw [same, kept]
  · have taken := tight edge found
    rw [Free] at taken
    push Not at taken
    exact taken

end Model

namespace Below

variable {contract : Bool}

theorem refl {graph : Skeleton α β} (closed : graph.Closed) : Below contract graph graph :=
  (Iso.refl graph).below closed contract

theorem trans (below : Below contract first second) (other : Below contract second third) :
    Below contract first third := by
  obtain ⟨model, single⟩ := below
  obtain ⟨next, singleNext⟩ := other
  exact ⟨model.trans next, fun rigid => Model.trans_single (single rigid) (singleNext rigid)⟩

end Below

end Skeleton

end Coverability
