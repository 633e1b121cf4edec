import Coverability.Antichain
import Mathlib.Data.List.Forall2
import Mathlib.Data.List.Nodup
import Mathlib.Data.List.Pairwise

/-! Insertion keeps an antichain an antichain, and adds to the graphs above it just those above the
new one. This needs no more of the order than that it is reflexive and transitive on the graphs at
hand: an order may be of no use on graphs whose tables contradict each other. -/

namespace Coverability

structure Order.LawfulOn (order : Order) (good : Hypergraph → Prop) : Prop where
  refl : ∀ {graph}, good graph → order.le graph graph = true
  trans : ∀ {first second third}, good first → good second → good third →
    order.le first second = true → order.le second third = true → order.le first third = true

/-- An order that is reflexive and transitive on all graphs, whatever they are. -/
abbrev Order.Lawful (order : Order) : Prop := order.LawfulOn fun _ => True

namespace Antichain

variable {order : Order} {good : Hypergraph → Prop} {chain : Antichain} {graph : Identified}

/-- No two elements are comparable, and the members are the identities of the elements. -/
structure Valid (order : Order) (good : Hypergraph → Prop) (chain : Antichain) : Prop where
  good : ∀ element ∈ chain.elements, good element.graph
  incomparable : chain.elements.Pairwise fun first second =>
    order.le first.graph second.graph = false ∧ order.le second.graph first.graph = false
  distinct : (chain.elements.map Identified.id).Nodup
  members_distinct : chain.members.Nodup
  members_iff : ∀ id, id ∈ chain.members ↔ id ∈ chain.elements.map Identified.id

def Above (order : Order) (chain : Antichain) (target : Hypergraph) : Prop :=
  ∃ element ∈ chain.elements, order.le element.graph target = true

theorem valid_empty : Valid order good {} :=
  ⟨nofun, .nil, .nil, .nil, fun _ => Iff.rfl⟩

private theorem sift_error {le : Hypergraph → Hypergraph → Bool} {target : Hypergraph}
    {dropped : Bool} {elements : List Identified} {because : Identified}
    (found : sift le target dropped elements = .error because) :
    because ∈ elements ∧ le because.graph target = true := by
  induction elements generalizing dropped with
  | nil => cases found
  | cons element rest ih =>
    have later :
        ∀ {dropped} {change : List Identified × List Identified → List Identified × List Identified},
        (sift le target dropped rest).map change = .error because → because ∈ element :: rest ∧
        le because.graph target = true := by
      intro dropped change failed
      cases step : sift le target dropped rest with
      | ok kept =>
        rw [step] at failed
        cases failed
      | error other =>
        rw [step] at failed
        cases failed
        exact ⟨List.mem_cons_of_mem _ (ih step).1, (ih step).2⟩
    rw [sift] at found
    split at found
    next below =>
      cases found
      exact ⟨List.mem_cons_self, (Bool.and_eq_true_iff.mp below).2⟩
    · split at found
      · exact later found
      · exact later found

private theorem sift_ok {le : Hypergraph → Hypergraph → Bool} {target : Hypergraph} {dropped : Bool}
    {elements kept gone : List Identified}
    (found : sift le target dropped elements = .ok (kept, gone)) :
    kept = (elements.filter fun element => !le target element.graph) ∧
    gone = (elements.filter fun element => le target element.graph) ∧
      ∀ element ∈ kept, le element.graph target = true → dropped = true ∨ gone ≠ [] := by
  induction elements generalizing dropped kept gone with
  | nil =>
    cases found
    exact ⟨rfl, rfl, nofun⟩
  | cons element rest ih =>
    rw [sift] at found
    split at found
    · cases found
    next unproven =>
      split at found
      next above =>
        cases step : sift le target true rest with
        | error other =>
          rw [step] at found
          cases found
        | ok parts =>
          obtain ⟨keptRest, goneRest⟩ := parts
          rw [step] at found
          cases found
          obtain ⟨rfl, rfl, _⟩ := ih step
          refine ⟨by simp [above], by simp [above], fun _ _ _ => .inr nofun⟩
      next apart =>
        cases step : sift le target dropped rest with
        | error other =>
          rw [step] at found
          cases found
        | ok parts =>
          obtain ⟨keptRest, goneRest⟩ := parts
          rw [step] at found
          cases found
          obtain ⟨rfl, rfl, tested⟩ := ih step
          refine ⟨by simp [apart], by simp [apart], fun other member below => ?_⟩
          rcases List.mem_cons.mp member with rfl | later
          · refine .inl ?_
            simpa [below] using unproven
          · exact tested other later below

theorem insert_rejected {because : Identified} {result : Antichain}
    (inserted : chain.insert order graph = (.rejected because, result)) :
    result = chain ∧ because ∈ chain.elements ∧ order.le because.graph graph.graph = true := by
  rw [insert] at inserted
  split at inserted
  next found =>
    cases inserted
    exact ⟨rfl, sift_error found⟩
  · cases inserted

theorem insert_accepted {gone : List Identified} {result : Antichain}
    (inserted : chain.insert order graph = (.accepted gone, result)) :
    gone = (chain.elements.filter fun element => order.le graph.graph element.graph) ∧
      result.elements =
        (chain.elements.filter fun element => !order.le graph.graph element.graph) ++ [graph] ∧
      result.members =
        (gone.foldl (fun members element => members.erase element.id) chain.members).insert graph.id ∧
      ∀ element ∈ chain.elements, order.le graph.graph element.graph = false →
        order.le element.graph graph.graph = true → gone ≠ [] := by
  rw [insert] at inserted
  split at inserted
  · cases inserted
  next kept dropped found =>
    obtain ⟨rfl, rfl, tested⟩ := sift_ok found
    cases inserted
    refine ⟨rfl, rfl, rfl, fun element member apart below => ?_⟩
    exact (tested element (List.mem_filter.mpr ⟨member, by simp [apart]⟩) below).resolve_left nofun

private theorem mem_eraseAll {gone : List Identified} {members : List GraphId}
    (distinct : members.Nodup) (id : GraphId) :
    (gone.foldl (fun members element => members.erase element.id) members).Nodup ∧
      (id ∈ gone.foldl (fun members element => members.erase element.id) members ↔
        id ∈ members ∧ id ∉ gone.map Identified.id) := by
  induction gone generalizing members with
  | nil => exact ⟨distinct, by simp⟩
  | cons element rest ih =>
    obtain ⟨later, same⟩ := ih (distinct.erase element.id)
    refine ⟨later, ?_⟩
    rw [List.foldl_cons, same, distinct.mem_erase_iff, List.map_cons, List.mem_cons, not_or]
    constructor
    · intro known
      exact ⟨known.1.2, known.1.1, known.2⟩
    · intro known
      exact ⟨⟨known.2.1, known.1⟩, known.2.2⟩

theorem mem_insert {insertion : Insertion} {result : Antichain}
    (inserted : chain.insert order graph = (insertion, result)) {element : Identified}
    (member : element ∈ result.elements) :
    element ∈ chain.elements ∨ element = graph ∧ insertion.isAccepted = true := by
  cases insertion with
  | rejected because =>
    rw [(insert_rejected inserted).1] at member
    exact .inl member
  | accepted gone =>
    rw [(insert_accepted inserted).2.1, List.mem_append, List.mem_singleton] at member
    rcases member with kept | same
    · exact .inl (List.mem_of_mem_filter kept)
    · exact .inr ⟨same, rfl⟩

/-- Of incomparable elements, each lies below itself only. -/
theorem eq_of_below {elements : List Identified}
    (incomparable : elements.Pairwise fun first second =>
      order.le first.graph second.graph = false ∧ order.le second.graph first.graph = false)
    {one other : Identified} (atOne : one ∈ elements) (atOther : other ∈ elements)
    (below : order.le one.graph other.graph = true) :
    one = other := by
  by_contra different
  have symmetric : Std.Symm fun first second : Identified =>
      order.le first.graph second.graph = false ∧ order.le second.graph first.graph = false :=
        ⟨fun _ _ known => known.symm⟩
  have apart := (incomparable.forall atOne atOther different).1
  rw [below] at apart
  cases apart

private theorem apart_of_kept (lawful : order.LawfulOn good)
    (fits : ∀ element ∈ chain.elements, good element.graph) (fit : good graph.graph)
    (incomparable : chain.elements.Pairwise fun first second =>
      order.le first.graph second.graph = false ∧ order.le second.graph first.graph = false)
    {gone : List Identified} {result : Antichain}
    (inserted : chain.insert order graph = (.accepted gone, result)) {element : Identified}
    (member : element ∈ chain.elements) (apart : order.le graph.graph element.graph = false) :
    order.le element.graph graph.graph = false := by
  -- Otherwise the graph would have been tested against it, or it would lie below what is dropped.
  obtain ⟨removed, _, _, tested⟩ := insert_accepted inserted
  by_contra below
  rw [Bool.not_eq_false] at below
  obtain ⟨other, dropped⟩ := List.exists_mem_of_ne_nil _ (tested element member apart below)
  rw [removed, List.mem_filter] at dropped
  have through := lawful.trans (fits element member) fit (fits other dropped.1) below dropped.2
  rw [eq_of_below incomparable member dropped.1 through, dropped.2] at apart
  cases apart

/-- Elements stay incomparable, whatever their identities are. -/
theorem insert_incomparable (lawful : order.LawfulOn good)
    (fits : ∀ element ∈ chain.elements, good element.graph) (fit : good graph.graph)
    (incomparable : chain.elements.Pairwise fun first second =>
      order.le first.graph second.graph = false ∧ order.le second.graph first.graph = false)
    {insertion : Insertion} {result : Antichain}
    (inserted : chain.insert order graph = (insertion, result)) :
    result.elements.Pairwise fun first second =>
      order.le first.graph second.graph = false ∧ order.le second.graph first.graph = false := by
  cases insertion with
  | rejected because =>
    rw [(insert_rejected inserted).1]
    exact incomparable
  | accepted gone =>
    obtain ⟨_, elements, _⟩ := insert_accepted inserted
    rw [elements, List.pairwise_append]
    refine ⟨incomparable.sublist List.filter_sublist, List.pairwise_singleton _ _, ?_⟩
    intro element member other only
    rw [List.mem_singleton.mp only]
    obtain ⟨inside, apart⟩ := List.mem_filter.mp member
    rw [Bool.not_eq_true'] at apart
    exact ⟨apart_of_kept lawful fits fit incomparable inserted inside apart, apart⟩

/-- Whatever the order, the identities tell the elements apart, and the members are these identities. -/
structure Indexed (chain : Antichain) : Prop where
  distinct : (chain.elements.map Identified.id).Nodup
  members_distinct : chain.members.Nodup
  members_iff : ∀ id, id ∈ chain.members ↔ id ∈ chain.elements.map Identified.id

theorem Valid.indexed (valid : Valid order good chain) : chain.Indexed :=
  ⟨valid.distinct, valid.members_distinct, valid.members_iff⟩

theorem insert_ids (distinct : (chain.elements.map Identified.id).Nodup) {gone : List Identified}
    {result : Antichain} (inserted : chain.insert order graph = (.accepted gone, result)) :
    result.elements.map Identified.id =
      ((chain.elements.map Identified.id).filter fun id => id ∉ gone.map Identified.id) ++
        [graph.id] := by
  obtain ⟨removed, elements, _⟩ := insert_accepted inserted
  rw [elements, List.map_append, List.filter_map]
  congr 2
  apply List.filter_congr
  intro element member
  have dropped : element.id ∈ gone.map Identified.id ↔ order.le graph.graph element.graph = true := by
    rw [removed, List.mem_map]
    constructor
    · intro known
      obtain ⟨other, inside, same⟩ := known
      obtain ⟨listed, above⟩ := List.mem_filter.mp inside
      rwa [List.inj_on_of_nodup_map distinct listed member same] at above
    · intro above
      exact ⟨element, List.mem_filter.mpr ⟨member, above⟩, rfl⟩
  simp only [Function.comp_apply, dropped, decide_not, Bool.decide_eq_true]

theorem insert_indexed (indexed : chain.Indexed) (fresh : graph.id ∉ chain.elements.map Identified.id)
    {insertion : Insertion} {result : Antichain}
    (inserted : chain.insert order graph = (insertion, result)) : result.Indexed := by
  cases insertion with
  | rejected because =>
    rw [(insert_rejected inserted).1]
    exact indexed
  | accepted gone =>
    have ids := insert_ids indexed.distinct inserted
    obtain ⟨_, _, members, _⟩ := insert_accepted inserted
    refine ⟨?_, ?_, ?_⟩
    · rw [ids, ← List.concat_eq_append]
      exact (indexed.distinct.sublist List.filter_sublist).concat fun member =>
        fresh (List.mem_of_mem_filter member)
    · rw [members]
      exact (mem_eraseAll indexed.members_distinct graph.id).1.insert
    · intro id
      rw [members, ids, List.mem_insert_iff, (mem_eraseAll indexed.members_distinct id).2,
        indexed.members_iff, List.mem_append,
        List.mem_filter, List.mem_singleton, decide_eq_true_eq, or_comm]

theorem insert_valid (lawful : order.LawfulOn good) (valid : Valid order good chain)
    (fresh : graph.id ∉ chain.elements.map Identified.id) (fit : good graph.graph)
    {insertion : Insertion} {result : Antichain}
    (inserted : chain.insert order graph = (insertion, result)) :
    Valid order good result := by
  obtain ⟨distinct, membersDistinct, membersIff⟩ := insert_indexed valid.indexed fresh inserted
  refine ⟨?_, insert_incomparable lawful valid.good fit valid.incomparable inserted, distinct,
    membersDistinct, membersIff⟩
  intro element member
  rcases mem_insert inserted member with old | new
  · exact valid.good element old
  · rwa [new.1]

theorem above_insert (lawful : order.LawfulOn good)
    (fits : ∀ element ∈ chain.elements, good element.graph) (fit : good graph.graph)
    {insertion : Insertion} {result : Antichain}
    (inserted : chain.insert order graph = (insertion, result)) {target : Hypergraph}
    (fitTarget : good target) :
    Above order result target ↔ Above order chain target ∨ order.le graph.graph target = true := by
  cases insertion with
  | rejected because =>
    obtain ⟨same, member, below⟩ := insert_rejected inserted
    rw [same]
    refine ⟨.inl, fun above => above.elim id fun covered => ?_⟩
    exact ⟨because, member, lawful.trans (fits because member) fit fitTarget below covered⟩
  | accepted gone =>
    obtain ⟨_, elements, _⟩ := insert_accepted inserted
    constructor
    · intro above
      obtain ⟨element, member, covered⟩ := above
      rw [elements, List.mem_append, List.mem_singleton] at member
      rcases member with kept | rfl
      · exact .inl ⟨element, List.mem_of_mem_filter kept, covered⟩
      · exact .inr covered
    · intro above
      have self : graph ∈ result.elements := by rw [elements]; simp
      rcases above with old | covered
      · obtain ⟨element, member, covered⟩ := old
        cases apart : order.le graph.graph element.graph with
        | true => exact ⟨graph, self, lawful.trans fit (fits element member) fitTarget apart covered⟩
        | false =>
          refine ⟨element, ?_, covered⟩
          rw [elements]
          exact List.mem_append_left _ (List.mem_filter.mpr ⟨member, by simp [apart]⟩)
      · exact ⟨graph, self, covered⟩

theorem contains_iff (valid : Valid order good chain) {id : GraphId} :
    chain.contains id = true ↔ id ∈ chain.elements.map Identified.id := by
  rw [contains, decide_eq_true_iff, valid.members_iff]

private theorem nodup_of_incomparable (lawful : order.LawfulOn good) {elements : List Identified}
    (fit : ∀ element ∈ elements, good element.graph)
    (incomparable : elements.Pairwise fun first second =>
      order.le first.graph second.graph = false ∧ order.le second.graph first.graph = false) :
        elements.Nodup := by
  refine incomparable.imp_of_mem fun {one other} atOne _ apart same => ?_
  rw [← same, lawful.refl (fit one atOne)] at apart
  cases apart.1

/-- Two antichains that cover each other's elements pair them up: each element has one below it,
which has one below it that can only be the element itself. -/
theorem exists_matching {order : Order} {good : Hypergraph → Prop} (lawful : order.LawfulOn good)
    {first second : List Identified} (fitFirst : ∀ element ∈ first, good element.graph)
    (fitSecond : ∀ element ∈ second, good element.graph)
    (apartFirst : first.Pairwise fun one other => order.le one.graph other.graph = false ∧
      order.le other.graph one.graph = false)
    (apartSecond : second.Pairwise fun one other => order.le one.graph other.graph = false ∧
      order.le other.graph one.graph = false)
    (covered : ∀ element ∈ first, ∃ below ∈ second, order.le below.graph element.graph = true)
    (covers : ∀ element ∈ second, ∃ below ∈ first, order.le below.graph element.graph = true) :
    ∃ matched : List Identified, matched.Perm second ∧
      List.Forall₂ (fun one other => (one ∈ first ∧ other ∈ second) ∧
        order.le one.graph other.graph = true ∧ order.le other.graph one.graph = true)
          first matched := by
  choose! partner inside below using covered
  have above : ∀ element ∈ first, order.le element.graph (partner element).graph = true := by
    intro element member
    obtain ⟨other, atOther, under⟩ := covers (partner element) (inside element member)
    have further :=
      lawful.trans (fitFirst other atOther) (fitSecond _ (inside element member))
        (fitFirst element member) under
        (below element member)
    exact eq_of_below apartFirst atOther member further ▸ under
  refine ⟨first.map partner, ?_, ?_⟩
  · have injective : (first.map partner).Nodup := by
      refine (List.nodup_map_iff_inj_on (nodup_of_incomparable lawful fitFirst apartFirst)).mpr
        fun one atOne other atOther same => ?_
      apply eq_of_below apartFirst atOne atOther
      apply lawful.trans (fitFirst one atOne) (fitSecond _ (inside one atOne))
        (fitFirst other atOther) (above one atOne)
      exact same ▸ below other atOther
    refine (List.perm_ext_iff_of_nodup injective
      (nodup_of_incomparable lawful fitSecond apartSecond)).mpr fun element => ?_
    rw [List.mem_map]
    constructor
    · intro known
      obtain ⟨one, member, rfl⟩ := known
      exact inside one member
    · intro member
      obtain ⟨one, atOne, under⟩ := covers element member
      refine ⟨one, atOne, eq_of_below apartSecond (inside one atOne) member ?_⟩
      exact lawful.trans (fitSecond _ (inside one atOne)) (fitFirst one atOne)
        (fitSecond element member) (below one atOne) under
  · rw [List.forall₂_map_right_iff, List.forall₂_same]
    exact fun element member =>
      ⟨⟨member, inside element member⟩, above element member, below element member⟩

end Antichain

end Coverability
