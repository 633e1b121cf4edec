import Coverability.Proofs.Complement
import Coverability.Proofs.Coverable
import Coverability.Proofs.Enumeration

/-! One step back. Each match of the right side in a graph yields a graph that the rule turns into
something above it. Nothing else is needed below a graph that a step takes above the given one, as long as
the right side connects what the model has of it; contracting edges outside the rule may defeat this. -/

namespace Coverability

namespace Splitting

variable {rule : Rule} {α β γ δ : Type} {context : Context rule α β} {small : Skeleton γ δ}
  {model : Skeleton.Model small context.after}

theorem connected_of_single (single : model.Single) : Connected model :=
  fun atOne atOther => single atOne atOther ▸ .refl

private theorem preserved_same (few : rule.vertexMap.size ≤ 1) {one other : VertexId}
    (first : rule.Preserved one) (second : rule.Preserved other) :
    one = other := by
  rw [Rule.preserved_iff, Table.values] at first second
  rw [Table.size] at few
  cases entries : rule.vertexMap.entries with
  | nil =>
    rw [entries] at first
    cases first
  | cons entry rest =>
    rw [entries, List.length_cons] at few
    obtain rfl : rest = [] := List.length_eq_zero_iff.mp (by omega)
    rw [entries] at first second
    exact (List.mem_singleton.mp first).trans (List.mem_singleton.mp second).symm

private theorem same_of_outside (few : rule.vertexMap.size ≤ 1) {inside : α ⊕ VertexId → Prop}
    {one other : VertexId}
    (walk : context.after.Joined (Outside model) inside (.inr one) (.inr other)) : one = other := by
  rcases Relation.ReflTransGen.cases_head walk with same | ⟨_, first, _⟩
  · exact Sum.inr.inj same
  · rcases Relation.ReflTransGen.cases_tail walk with same | ⟨_, _, last⟩
    · exact (Sum.inr.inj same).symm
    · exact preserved_same few (link_open first).1 (link_open last).2

/-- A walk leaves the right side and comes back to it at preserved vertices, so with just one of
them the detour can be left out. -/
theorem connected_of_few (few : rule.vertexMap.size ≤ 1) : Connected model := by
  intro vertex one other atOne atOther
  have detours : ∀ {place}, context.after.Joined model.Free (model.branch vertex) (.inr one) place →
      ∃ right, context.after.Joined (Inside model) (model.branch vertex) (.inr one) (.inr right) ∧
        context.after.Joined (Outside model) (model.branch vertex) (.inr right) place := by
    intro place walk
    induction walk with
    | refl => exact ⟨one, .refl, .refl⟩
    | tail _ link ih =>
      obtain ⟨right, inner, outer⟩ := ih
      obtain ⟨here, there, edge, label, ends, free, stored, middleOn, lastOn⟩ := link
      cases edge with
      | inl kept =>
        exact ⟨right, inner,
          outer.tail ⟨here, there, _, label, ends, ⟨free, kept, rfl⟩, stored, middleOn, lastOn⟩⟩
      | inr edge =>
        obtain ⟨vertices, known, rfl⟩ := Context.fill_side.mp stored
        obtain ⟨middle, middleOn', rfl⟩ := List.mem_map.mp middleOn
        obtain ⟨last, lastOn', rfl⟩ := List.mem_map.mp lastOn
        obtain rfl := same_of_outside few outer
        exact ⟨last, inner.tail ⟨here, there, _, label, _, ⟨free, edge, rfl⟩, stored,
          middleOn, lastOn⟩, .refl⟩
  obtain ⟨right, inner, outer⟩ := detours (model.branch_joined atOne atOther)
  rwa [same_of_outside few outer] at inner

end Splitting

namespace Rule.Match

variable {rule : Rule} {graph : Hypergraph} {γ δ : Type} {small : Skeleton γ δ}

/-- The context of a match, filled with the right side, is the graph after the step. -/
def afterIso (found : rule.Match graph) (formed : graph.WellFormed) (sane : rule.Sane) :
    Skeleton.Iso (found.context formed).after found.result :=
  (found.context_fits formed sane.valid).resultIso sane.valid

/-- A model in the graph after the step, seen in the context. -/
noncomputable def contextModel (found : rule.Match graph) (formed : graph.WellFormed)
    (sane : rule.Sane) (model : Skeleton.Model small found.result) :
    Skeleton.Model small (found.context formed).after :=
  model.trans
    (((found.afterIso formed sane).symm (Context.after_closed sane.valid sane.right)).model
      (found.result_closed sane formed))

theorem contextModel_single (found : rule.Match graph) (formed : graph.WellFormed)
    (sane : rule.Sane) {model : Skeleton.Model small found.result} (single : model.Single) :
    (found.contextModel formed sane model).Single :=
  Skeleton.Model.trans_single single (Skeleton.Iso.model_single _ _)

end Rule.Match

namespace Matching

variable {matching : Matching}

/-- What the search yields is a graph that the rule turns into one above the given graph. -/
theorem sound_of_mem_all (sane : matching.rule.Sane) (formed : matching.graph.WellFormed)
    (numbered : matching.graph.Numbered) (room : matching.graph.HasRoomFor matching.rule)
    {found : PartialMatch} (member : found ∈ matching.all) : ∃ result,
      complement matching.rule matching.graph found = .ok result ∧ result.WellFormed ∧
      result.Numbered ∧
        ∃ occurrence : matching.rule.Match result,
          Skeleton.Below matching.contract matching.graph.skeleton occurrence.result := by
  have overlap := overlap_of_mem_all formed sane.right member
  obtain ⟨result, yielded, formedResult, numberedResult, ⟨iso⟩⟩ :=
    complement_ok sane.valid sane.left overlap formed numbered room
  have fits : Context.Fits (Context.occurrence sane.valid iso) iso := ⟨fun _ => rfl, fun _ => rfl⟩
  refine ⟨result, yielded, formedResult, numberedResult, Context.occurrence sane.valid iso, ?_⟩
  have below : Skeleton.Below matching.contract matching.graph.skeleton
      (overlap.context formed).after :=
    ⟨overlap.model formed,
      fun rigid => overlap.model_single formed (injective_of_mem_all rigid member)⟩
  exact below.trans ((fits.resultIso sane.valid).below (Context.after_closed sane.valid sane.right) _)

open Splitting

private theorem untouched_of_creates_nothing {α β : Type} {rule : Rule} {context : Context rule α β}
    {graph : Hypergraph} (idle : ¬rule.Creates)
    (model : Skeleton.Model graph.skeleton context.after) : Untouched model := by
  rw [Rule.Creates, not_or, not_not, not_not] at idle
  obtain ⟨noVertices, noEdges⟩ := idle
  refine ⟨fun {vertex right} inside => ?_, fun {edge right} present image => ?_,
    fun {edge label ends one other vertex} created => ?_⟩
  · refine (Context.created_or_preserved (model.branch_inside inside).2).resolve_left ?_
    rw [noVertices]
    exact List.not_mem_nil
  · have kept := model.hasEdge present
    rw [image] at kept
    refine (Context.createdEdge_or_preserved (Context.fill_hasEdge_side.mp kept)).resolve_left ?_
    rw [noEdges]
    exact List.not_mem_nil
  · rw [noEdges] at created
    cases created

/-- If a step leads above the graph, and the right side connects what the model has of it, then the
graph before the step lies above the given one or above a graph that the search yields. -/
theorem complete_of_match (sane : matching.rule.Sane) (ended : matching.rule.Ended)
    (formed : matching.graph.WellFormed) (numbered : matching.graph.Numbered)
    (room : matching.graph.HasRoomFor matching.rule) {graph : Hypergraph}
    (formedGraph : graph.WellFormed) (occurrence : matching.rule.Match graph)
    (model : Skeleton.Model matching.graph.skeleton (occurrence.context formedGraph).after)
    (rigid : matching.contract = false → model.Single)
    (connected : matching.rule.Creates → Connected model) :
    Skeleton.Below matching.contract matching.graph.skeleton graph.skeleton ∨
      ∃ found ∈ matching.all, ∃ result, complement matching.rule matching.graph found = .ok result ∧
        Skeleton.Below matching.contract result.skeleton graph.skeleton := by
  have closed : (occurrence.context formedGraph).before.Closed :=
    Context.before_closed sane.valid sane.left
  have before := (occurrence.contextIso formedGraph sane.valid).below closed matching.contract
  by_cases untouched : Untouched model
  · exact .inl (Skeleton.Below.trans ⟨untouchedModel sane.valid untouched,
      fun fixed => untouchedModel_single sane.valid untouched (rigid fixed)⟩ before)
  · have creates : matching.rule.Creates := by
      by_contra idle
      exact untouched (untouched_of_creates_nothing idle model)
    obtain ⟨keeper, guides⟩ := exists_guide model
    obtain ⟨found, member, traces⟩ :=
      exists_traces formed sane.right ended rigid (connected creates) guides untouched
    have overlap := overlap_of_mem_all formed sane.right member
    obtain ⟨result, yielded, _, _, ⟨iso⟩⟩ :=
      complement_ok sane.valid sane.left overlap formed numbered room
    have split : Skeleton.Below matching.contract (overlap.context formed).before
        (occurrence.context formedGraph).before :=
      ⟨splitModel sane.valid sane.left guides traces overlap formed,
        fun fixed =>
          splitModel_single sane.valid sane.left guides traces overlap formed (rigid fixed)⟩
    have closedOverlap : (overlap.context formed).before.Closed :=
      Context.before_closed sane.valid sane.left
    have result_below := (iso.symm closedOverlap).below (iso.closed closedOverlap) matching.contract
    exact .inr ⟨found, member, result, yielded, (result_below.trans split).trans before⟩

end Matching

end Coverability
