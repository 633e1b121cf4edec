import Coverability.Proofs.Antichain
import Coverability.Proofs.Operations
import Mathlib.Data.List.Induction

/-! Histories of insertions. After any calls the elements of an antichain are incomparable and stand
for all graphs above one that was inserted, and each further call does what it says: it turns a
graph down just if an element lies below it, and otherwise drops just the elements above it. A graph
may come back with its identity, but an identity never stands for two graphs. Where the graphs come
in another order, other ones may stay, each below and above one that has stayed before. -/

namespace Coverability.Antichain

/-- A call that inserts: of one graph, or of several in turn. -/
inductive Call where
  | add (graph : Identified)
  | addAll (graphs : List Identified)

namespace Call

def graphs (call : Call) : List Identified :=
  match call with
  | add graph => [graph]
  | addAll graphs => graphs

def run (order : Order) (chain : Antichain) (call : Call) : Antichain :=
  match call with
  | add graph => (chain.insert order graph).2
  | addAll graphs => (chain.insertAll order graphs).2

end Call

/-- The antichain after a history of calls. -/
def afterCalls (order : Order) (calls : List Call) : Antichain := calls.foldl (Call.run order) {}

/-- No identity stands for two of the graphs. -/
def Distinguished (graphs : List Identified) : Prop :=
  ∀ one ∈ graphs, ∀ other ∈ graphs, one.id = other.id → one = other

/-- What an antichain is after the given graphs have been inserted. -/
structure Represents (order : Order) (inserted : List Identified) (chain : Antichain) : Prop where
  incomparable : chain.elements.Pairwise fun first second =>
    order.le first.graph second.graph = false ∧ order.le second.graph first.graph = false
  above_iff : ∀ target, Above order chain target ↔
    ∃ graph ∈ inserted, order.le graph.graph target = true
  contains_iff : ∀ id, chain.contains id = true ↔ ∃ element ∈ chain.elements, element.id = id
  once : (chain.elements.map Identified.id).Nodup

/-- What becomes of a graph that is inserted. -/
structure Inserts (order : Order) (chain : Antichain) (graph : Identified) (insertion : Insertion)
    (after : Antichain) : Prop where
  rejected_iff : insertion.isAccepted = false ↔ Above order chain graph.graph
  unchanged : insertion.isAccepted = false → after = chain
  removed : insertion.isAccepted = true →
    insertion.removed = chain.elements.filter fun element => order.le graph.graph element.graph
  elements : insertion.isAccepted = true →
    after.elements =
      (chain.elements.filter fun element => !order.le graph.graph element.graph) ++ [graph]

variable {order : Order} {good : Hypergraph → Prop} {chain : Antichain} {graph : Identified}

private theorem sift_rejects (lawful : order.LawfulOn good) {target : Hypergraph}
    (fit : good target) {elements : List Identified} (fits : ∀ element ∈ elements, good element.graph)
    (incomparable : elements.Pairwise fun first second =>
      order.le first.graph second.graph = false ∧ order.le second.graph first.graph = false)
    (below : ∃ element ∈ elements, order.le element.graph target = true) :
    ∃ because, sift order.le target false elements = .error because := by
  -- An element below the graph would also lie below what is dropped, so it is met before anything is.
  induction elements with
  | nil =>
    obtain ⟨_, member, _⟩ := below
    cases member
  | cons first rest ih =>
    obtain ⟨apart, later⟩ := List.pairwise_cons.mp incomparable
    cases atFirst : order.le first.graph target with
    | true => exact ⟨first, by simp [sift, atFirst]⟩
    | false =>
      obtain ⟨element, member, under⟩ := below
      have inside : element ∈ rest := by
        rcases List.mem_cons.mp member with same | inside
        · rw [same, atFirst] at under
          cases under
        · exact inside
      have kept : order.le target first.graph = false := by
        by_contra above
        rw [Bool.not_eq_false] at above
        have through :=
          lawful.trans (fits element member) fit (fits first List.mem_cons_self) under above
        rw [(apart element inside).2] at through
        cases through
      obtain ⟨because, found⟩ :=
        ih (fun other listed => fits other (List.mem_cons_of_mem _ listed)) later
          ⟨element, inside, under⟩
      refine ⟨because, ?_⟩
      simp only [sift, atFirst, kept, Bool.and_false, Bool.false_eq_true, if_false, found]
      rfl

theorem insert_inserts (lawful : order.LawfulOn good) (valid : Valid order good chain)
    (fit : good graph.graph) :
    Inserts order chain graph (chain.insert order graph).1 (chain.insert order graph).2 := by
  cases inserted : chain.insert order graph with
  | mk insertion result =>
    cases insertion with
    | rejected because =>
      obtain ⟨same, member, below⟩ := insert_rejected inserted
      exact ⟨⟨fun _ => ⟨because, member, below⟩, fun _ => rfl⟩, fun _ => same, nofun, nofun⟩
    | accepted gone =>
      obtain ⟨removed, elements, _⟩ := insert_accepted inserted
      refine ⟨⟨nofun, fun below => ?_⟩, nofun, fun _ => removed, fun _ => elements⟩
      obtain ⟨because, found⟩ := sift_rejects lawful fit valid.good valid.incomparable below
      rw [insert, found] at inserted
      cases inserted

private theorem insert_keeps (lawful : order.LawfulOn good) (valid : Valid order good chain)
    (fit : good graph.graph)
    (known : ∀ element ∈ chain.elements, element.id = graph.id → element = graph) :
    Valid order good (chain.insert order graph).2 := by
  by_cases fresh : graph.id ∈ chain.elements.map Identified.id
  · obtain ⟨element, member, same⟩ := List.mem_map.mp fresh
    have inserts : Inserts order chain graph _ _ := insert_inserts lawful valid fit
    have rejected :=
      inserts.rejected_iff.mpr ⟨element, member,
        known element member same ▸ lawful.refl (valid.good element member)⟩
    rw [inserts.unchanged rejected]
    exact valid
  · exact insert_valid lawful valid fresh fit rfl

private theorem insertAll_concat (order : Order) (graphs : List Identified) (graph : Identified) :
    (chain.insertAll order (graphs ++ [graph])).2 =
      ((chain.insertAll order graphs).2.insert order graph).2 := by
  simp only [insertAll, List.foldl_append, List.foldl_cons, List.foldl_nil]

private theorem mem_of_mem_insertAll {graphs : List Identified} {element : Identified}
    (member : element ∈ (insertAll {} order graphs).2.elements) : element ∈ graphs := by
  induction graphs using List.reverseRecOn with
  | nil => cases member
  | append_singleton earlier graph ih =>
    rw [insertAll_concat] at member
    rcases mem_insert rfl member with old | new
    · exact List.mem_append_left _ (ih old)
    · exact List.mem_append_right _ (List.mem_singleton.mpr new.1)

private theorem insertAll_minimal (lawful : order.LawfulOn good) {graphs : List Identified}
    (fits : ∀ graph ∈ graphs, good graph.graph) :
    ((insertAll {} order graphs).2.elements.Pairwise fun first second =>
        order.le first.graph second.graph = false ∧ order.le second.graph first.graph = false) ∧
      ∀ target, good target →
        (Above order (insertAll {} order graphs).2 target ↔
          ∃ graph ∈ graphs, order.le graph.graph target = true) := by
  induction graphs using List.reverseRecOn with
  | nil => exact ⟨.nil, fun target _ => ⟨nofun, nofun⟩⟩
  | append_singleton earlier graph ih =>
    rw [List.forall_mem_append, List.forall_mem_singleton] at fits
    obtain ⟨incomparable, above⟩ := ih fits.1
    have within : ∀ element ∈ (insertAll {} order earlier).2.elements, good element.graph :=
      fun element member => fits.1 element (mem_of_mem_insertAll member)
    rw [insertAll_concat]
    rcases inserted : (insertAll {} order earlier).2.insert order graph with ⟨insertion, result⟩
    refine ⟨insert_incomparable lawful within fits.2 incomparable inserted, fun target fit => ?_⟩
    rw [above_insert lawful within fits.2 inserted fit, above target fit]
    simp [or_and_right, exists_or]

private theorem insertAll_valid (lawful : order.Lawful) (graphs : List Identified)
    (distinguished : Distinguished graphs) :
    Valid order (fun _ => True) (insertAll {} order graphs).2 := by
  induction graphs using List.reverseRecOn with
  | nil => exact valid_empty
  | append_singleton earlier graph ih =>
    have fewer : Distinguished earlier := fun one first other second =>
      distinguished one (List.mem_append_left _ first) other (List.mem_append_left _ second)
    have valid := ih fewer
    have last : graph ∈ earlier ++ [graph] := List.mem_append_right _ List.mem_cons_self
    rw [insertAll_concat]
    apply insert_keeps lawful valid trivial
    intro element member same
    exact distinguished element (List.mem_append_left _ (mem_of_mem_insertAll member)) graph last same

private theorem afterCalls_eq (order : Order) (calls : List Call) :
    afterCalls order calls = (insertAll {} order (calls.flatMap Call.graphs)).2 := by
  rw [afterCalls, insertAll, List.foldl_flatMap]
  congr 1
  funext chain call
  cases call <;> rfl

/-- After any calls, an antichain stands for what was inserted, and the next graph is turned down or
taken in as the elements say. -/
theorem calls_represent (lawful : order.Lawful) (calls : List Call)
    (distinguished : Distinguished (calls.flatMap Call.graphs)) :
    Represents order (calls.flatMap Call.graphs) (afterCalls order calls) ∧ ∀ graph,
      Inserts order (afterCalls order calls) graph ((afterCalls order calls).insert order graph).1
        ((afterCalls order calls).insert order graph).2 := by
  have valid := insertAll_valid lawful _ distinguished
  have above := (insertAll_minimal lawful fun _ (_ : _ ∈ calls.flatMap Call.graphs) => trivial).2
  rw [afterCalls_eq]
  refine ⟨⟨valid.incomparable, fun target => above target trivial, fun id => ?_, valid.distinct⟩,
    fun graph => insert_inserts lawful valid trivial⟩
  rw [contains_iff valid, List.mem_map]

/-- In whatever order the same graphs are inserted, and whatever identities they are given: the
elements pair up, each below its partner and above it. Which of two such graphs has stayed depends
on the order. -/
theorem calls_pair_up (lawful : order.LawfulOn good) {first second : List Call}
    (fits : ∀ graph ∈ first.flatMap Call.graphs, good graph.graph)
    (same : ((first.flatMap Call.graphs).map Identified.graph).Perm
      ((second.flatMap Call.graphs).map Identified.graph)) :
    (afterCalls order first).size = (afterCalls order second).size ∧
      ∃ matched : List Identified, matched.Perm (afterCalls order second).elements ∧
        List.Forall₂
          (fun one other => order.le one.graph other.graph = true ∧
            order.le other.graph one.graph = true)
          (afterCalls order first).elements matched := by
  have fitsSecond : ∀ graph ∈ second.flatMap Call.graphs, good graph.graph := by
    intro graph member
    obtain ⟨other, inside, equal⟩ := List.mem_map.mp (same.mem_iff.mpr (List.mem_map_of_mem member))
    exact equal ▸ fits other inside
  obtain ⟨apartFirst, aboveFirst⟩ := insertAll_minimal lawful fits
  obtain ⟨apartSecond, aboveSecond⟩ := insertAll_minimal lawful fitsSecond
  rw [← afterCalls_eq] at apartFirst aboveFirst apartSecond aboveSecond
  have withinFirst : ∀ element ∈ (afterCalls order first).elements, good element.graph := by
    rw [afterCalls_eq]
    exact fun element member => fits element (mem_of_mem_insertAll member)
  have withinSecond : ∀ element ∈ (afterCalls order second).elements, good element.graph := by
    rw [afterCalls_eq]
    exact fun element member => fitsSecond element (mem_of_mem_insertAll member)
  -- Both antichains stand for the graphs above an inserted one, and these are the same.
  have above target (fit : good target) : Above order (afterCalls order first) target ↔
      Above order (afterCalls order second) target := by
    have mapped (graphs : List Identified) : (∃ graph ∈ graphs, order.le graph.graph target = true) ↔
        ∃ graph ∈ graphs.map Identified.graph, order.le graph target = true := by
      simp only [List.mem_map, exists_exists_and_eq_and]
    rw [aboveFirst target fit, aboveSecond target fit, mapped, mapped]
    simp only [same.mem_iff]
  obtain ⟨matched, perm, paired⟩ :=
    exists_matching lawful withinFirst withinSecond apartFirst apartSecond
      (fun element member =>
        (above _ (withinFirst element member)).mp
          ⟨element, member, lawful.refl (withinFirst element member)⟩)
      (fun element member =>
        (above _ (withinSecond element member)).mpr
          ⟨element, member, lawful.refl (withinSecond element member)⟩)
  exact ⟨paired.length_eq.trans perm.length_eq, matched, perm, paired.imp fun _ _ => And.right⟩

/-- Graphs with at most as many vertices and edges. -/
def bySize : Order where
  name := "size"
  le smaller bigger :=
    smaller.vertexCount ≤ bigger.vertexCount && smaller.edgeCount ≤ bigger.edgeCount

theorem bySize_lawful : bySize.Lawful where
  refl _ := by simp [bySize]
  trans _ _ _ first second := by
    simp only [bySize, Bool.and_eq_true, decide_eq_true_eq] at first second ⊢
    omega

/-- Two incomparable graphs, one below both, and the first of them once more. -/
def replacing : List Call :=
  let wide : Identified := ⟨⟨0⟩, .ofEdges 3 []⟩
  let dense : Identified := ⟨⟨1⟩, .ofEdges 2 [("E", [0, 1])]⟩
  let small : Identified := ⟨⟨2⟩, .ofEdges 2 []⟩
  [.addAll [wide, dense], .add small, .add wide]

theorem replacing_represents :
    Represents bySize (replacing.flatMap Call.graphs) (afterCalls bySize replacing) ∧
    (afterCalls bySize replacing).elements.map Identified.id = [⟨2⟩] := by
  have distinguished : Distinguished (replacing.flatMap Call.graphs) := by
    unfold Distinguished
    decide +kernel
  exact ⟨(calls_represent bySize_lawful replacing distinguished).1, by decide +kernel⟩

/-- A graph that does not stay, two of the same size, and one that is incomparable with these. -/
def contending : List Identified :=
  [⟨⟨0⟩, .ofEdges 4 []⟩, ⟨⟨1⟩, .ofEdges 3 []⟩,
    ⟨⟨2⟩, { Hypergraph.ofEdges 3 [] with name := "other" }⟩, ⟨⟨3⟩, .ofEdges 2 [("E", [0, 1])]⟩]

theorem contending_pair_up :
    (contending.map Identified.graph).Perm (contending.reverse.map Identified.graph) ∧
    (afterCalls bySize (contending.map .add)).elements.map Identified.id = [⟨1⟩, ⟨3⟩] ∧
    (afterCalls bySize (contending.reverse.map .add)).elements.map Identified.id = [⟨3⟩, ⟨2⟩] ∧
    ∃ matched : List Identified,
      matched.Perm (afterCalls bySize (contending.reverse.map .add)).elements ∧
      List.Forall₂
        (fun one other => bySize.le one.graph other.graph = true ∧
          bySize.le other.graph one.graph = true)
        (afterCalls bySize (contending.map .add)).elements matched := by
  have same : (contending.map Identified.graph).Perm (contending.reverse.map Identified.graph) :=
    (List.reverse_perm contending).symm.map Identified.graph
  refine ⟨same, by decide +kernel, by decide +kernel,
    (calls_pair_up bySize_lawful (fun _ _ => trivial) ?_).2⟩
  simpa only [List.flatMap_map, Call.graphs, List.flatMap_singleton'] using same

end Coverability.Antichain
