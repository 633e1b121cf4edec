import Mathlib.Data.List.Forall2
import Mathlib.Data.List.Nodup
import Mathlib.Data.List.Pairwise
import Mathlib.Data.List.Perm.Subperm

/-! Facts about lists that several modules need: duplicates, and lists that run along each other. -/

namespace Coverability.Listing

variable {α β γ : Type}

theorem nodup_eraseDups [BEq α] [LawfulBEq α] : ∀ items : List α, items.eraseDups.Nodup
  | [] => by simp
  | first :: rest => by
    rw [List.eraseDups_cons, List.nodup_cons]
    refine ⟨fun member => ?_, nodup_eraseDups _⟩
    simp [List.mem_eraseDups] at member
termination_by items => items.length
decreasing_by
  exact Nat.lt_succ_of_le (List.length_filter_le _ _)

theorem length_eraseDups_eq_iff [BEq α] [LawfulBEq α] {items : List α} :
    items.eraseDups.length = items.length ↔ items.Nodup := by
  have within : items.eraseDups.Subperm items :=
    List.subperm_of_subset (nodup_eraseDups items) fun item member => List.mem_eraseDups.mp member
  constructor
  · intro same
    exact (within.perm_of_length_le (Nat.le_of_eq same.symm)).nodup_iff.mp (nodup_eraseDups items)
  · intro distinct
    refine Nat.le_antisymm within.length_le ?_
    exact (List.subperm_of_subset distinct fun item member => List.mem_eraseDups.mpr member).length_le

theorem length_le_of_subset {items others : List α} (distinct : items.Nodup)
    (within : ∀ item ∈ items, item ∈ others) :
    items.length ≤ others.length :=
  (List.subperm_of_subset distinct within).length_le

theorem subperm_map {items : List α} {others : List β} {target : α → β} (distinct : items.Nodup)
    (injective : ∀ one ∈ items, ∀ other ∈ items, target one = target other → one = other)
    (within : ∀ item ∈ items, target item ∈ others) :
    (items.map target).Subperm others := by
  refine List.subperm_of_subset (distinct.map_on injective) fun place mapped => ?_
  obtain ⟨item, inside, rfl⟩ := List.mem_map.mp mapped
  exact within item inside

theorem length_le_of_subset_map {items : List α} {others : List β} (target : α → β)
    (distinct : items.Nodup)
    (injective : ∀ one ∈ items, ∀ other ∈ items, target one = target other → one = other)
    (within : ∀ item ∈ items, target item ∈ others) :
    items.length ≤ others.length := by
  have length := (subperm_map distinct injective within).length_le
  rwa [List.length_map] at length

/-- An injective map into a list that is not longer leaves nothing out. -/
theorem exists_of_length_le {items : List α} {others : List β} (target : α → β)
    (distinct : items.Nodup)
    (injective : ∀ one ∈ items, ∀ other ∈ items, target one = target other → one = other)
    (within : ∀ item ∈ items, target item ∈ others) (count : others.length ≤ items.length)
    {place : β} (member : place ∈ others) : ∃ item ∈ items, target item = place := by
  have full : (items.map target).Perm others :=
    (subperm_map distinct injective within).perm_of_length_le (by rwa [List.length_map])
  exact List.mem_map.mp (full.mem_iff.mpr member)

/-- A list is no longer than another one in which the image of each item occurs as often. -/
theorem length_le_of_count [DecidableEq α] [DecidableEq β] {items : List α} {others : List β}
    (target : α → β)
    (injective : ∀ one ∈ items, ∀ other ∈ items, target one = target other → one = other)
    (counted : ∀ item ∈ items, items.count item ≤ others.count (target item)) :
    items.length ≤ others.length := by
  have within : (items.map target).Subperm others := by
    refine List.subperm_ext_iff.mpr fun place member => ?_
    obtain ⟨item, inside, rfl⟩ := List.mem_map.mp member
    have alone : (items.map target).count (target item) = items.count item := by
      rw [List.count, List.countP_map, List.count]
      refine List.countP_congr fun other inside' => ?_
      rw [Function.comp_apply, beq_iff_eq, beq_iff_eq]
      exact ⟨injective other inside' item inside, congrArg target⟩
    exact alone ▸ counted item inside
  have length := within.length_le
  rwa [List.length_map] at length

theorem mem_zip_iff {items : List α} {others : List β} {item : α} {other : β} :
    (item, other) ∈ items.zip others ↔ ∃ index : Nat, items[index]? = some item ∧
      others[index]? = some other := by
  simp only [List.mem_iff_getElem?, List.getElem?_zip_eq_some]

theorem eq_of_nodup {items : List α} (distinct : items.Nodup) {item : α} {one other : Nat}
    (atOne : items[one]? = some item) (atOther : items[other]? = some item) : one = other :=
  (List.getElem?_inj (List.getElem?_eq_some_iff.mp atOne).1 distinct).mp (atOne.trans atOther.symm)

theorem inj_on_of_nodup_filterMap {items : List α} {pick : α → Option β}
    (distinct : (items.filterMap pick).Nodup) {one other : α} {value : β} (first : one ∈ items)
    (second : other ∈ items) (pickOne : pick one = some value)
    (pickOther : pick other = some value) : one = other := by
  rw [List.Nodup, List.pairwise_filterMap] at distinct
  have symmetric : Std.Symm fun one other =>
      ∀ value, pick one = some value → ∀ value', pick other = some value' → value ≠ value' :=
    ⟨fun _ _ apart value picked value' picked' => (apart value' picked' value picked).symm⟩
  by_contra different
  exact distinct.forall first second different value pickOne value pickOther rfl

theorem getElem?_filterMap_of_some {items : List α} {pick : α → Option β}
    (picked : ∀ item ∈ items, (pick item).isSome) (index : Nat) :
    (items.filterMap pick)[index]? = items[index]?.bind pick := by
  induction items generalizing index with
  | nil => rfl
  | cons first rest ih =>
    obtain ⟨found, same⟩ := Option.isSome_iff_exists.mp (picked first List.mem_cons_self)
    rw [List.filterMap_cons_some same]
    cases index with
    | zero => simp [same]
    | succ index =>
      simpa using ih (fun item member => picked item (List.mem_cons_of_mem _ member)) index

/-- A fold, said for the items it has gone through so far. -/
theorem foldl_prefix {step : β → α → β} (keeps : List α → β → Prop) (items : List α) {state : β}
    (start : keeps [] state)
    (next : ∀ done item rest state, items = done ++ item :: rest → keeps done state →
      keeps (done ++ [item]) (step state item)) :
    keeps items (items.foldl step state) := by
  suffices onwards : ∀ rest done state, items = done ++ rest → keeps done state →
    keeps items (rest.foldl step state) from
    onwards items [] state rfl start
  intro rest
  induction rest with
  | nil =>
    intro done state split kept
    rw [List.append_nil] at split
    exact split ▸ kept
  | cons item rest ih =>
    intro done state split kept
    exact ih (done ++ [item]) _ (by rw [split, List.append_assoc, List.singleton_append])
      (next done item rest state split kept)

/-- A fold that may fail, said for the items it has gone through so far. -/
theorem foldlM_prefix {ε : Type} {step : β → α → Except ε β} (keeps : List α → β → Prop)
    (items : List α) {state : β} (start : keeps [] state)
    (next : ∀ done item rest state, items = done ++ item :: rest → keeps done state →
      ∃ after, step state item = .ok after ∧ keeps (done ++ [item]) after) : ∃ last,
        items.foldlM step state = .ok last ∧ keeps items last := by
  suffices onwards : ∀ rest done state, items = done ++ rest → keeps done state →
      ∃ last, rest.foldlM step state = .ok last ∧
        keeps items last from onwards items [] state rfl start
  intro rest
  induction rest with
  | nil =>
    intro done state split kept
    rw [List.append_nil] at split
    exact ⟨state, rfl, split ▸ kept⟩
  | cons item rest ih =>
    intro done state split kept
    obtain ⟨after, stepped, kept⟩ := next done item rest state split kept
    obtain ⟨last, folded, kept⟩ :=
      ih (done ++ [item]) after (by rw [split, List.append_assoc, List.singleton_append]) kept
    refine ⟨last, ?_, kept⟩
    rw [List.foldlM_cons, stepped]
    exact folded

theorem mapM_ok {ε : Type} {change : α → Except ε β} {result : α → β} {items : List α}
    (each : ∀ item ∈ items, change item = .ok (result item)) :
    items.mapM change = .ok (items.map result) := by
  induction items with
  | nil => rfl
  | cons first rest ih =>
    rw [List.forall_mem_cons] at each
    rw [List.mapM_cons, each.1, ih each.2]
    rfl

/-- Going on from the items that are kept is going on from all of them where the others
lead to nothing. -/
theorem flatMap_filter {items : List α} {keep : α → Bool} {parts others : α → List β}
    (kept : ∀ item ∈ items, keep item = true → parts item = others item)
    (dropped : ∀ item ∈ items, keep item = false → others item = []) :
    (items.filter keep).flatMap parts = items.flatMap others := by
  induction items with
  | nil => rfl
  | cons first rest ih =>
    have later :=
      ih (fun item member => kept item (List.mem_cons_of_mem _ member)) fun item member =>
        dropped item (List.mem_cons_of_mem _ member)
    cases known : keep first with
    | true =>
      rw [List.filter_cons_of_pos known, List.flatMap_cons, List.flatMap_cons, later,
        kept first List.mem_cons_self known]
    | false =>
      have skipped : ¬keep first = true := Bool.not_eq_true _ ▸ known
      rw [List.filter_cons_of_neg skipped, List.flatMap_cons, later,
        dropped first List.mem_cons_self known, List.nil_append]

theorem not_mem_of_split {items done rest : List α} {item : α} (distinct : items.Nodup)
    (split : items = done ++ item :: rest) : item ∉ done := by
  rw [split, List.nodup_append] at distinct
  exact fun member => distinct.2.2 item member item List.mem_cons_self rfl

theorem or_mem_concat_iff (known : α → Prop) (done : List α) {item : α}
    (inside : known item) (other : α) :
    known other ∨ other ∈ done ++ [item] ↔ known other ∨ other ∈ done := by
  rw [List.mem_append, List.mem_singleton]
  constructor
  · intro present
    rcases present with present | present | rfl
    · exact .inl present
    · exact .inr present
    · exact .inl inside
  · exact fun present => present.imp_right .inl

theorem and_not_mem_concat_iff (known : α → Prop) (done : List α) {item : α}
    (outside : ¬known item) (other : α) :
    known other ∧ other ∉ done ++ [item] ↔ known other ∧ other ∉ done := by
  rw [List.mem_append, List.mem_singleton, not_or]
  constructor
  · exact fun kept => ⟨kept.1, kept.2.1⟩
  · exact fun kept => ⟨kept.1, kept.2, fun same => outside (same ▸ kept.1)⟩

theorem along_left {relation : α → β → Prop} {ends : List α} {members : List β}
    (along : List.Forall₂ relation ends members) {left : α} (member : left ∈ ends) :
    ∃ right ∈ members, relation left right := by
  induction along with
  | nil => cases member
  | cons head _ ih =>
    rcases List.mem_cons.mp member with rfl | inside
    · exact ⟨_, List.mem_cons_self, head⟩
    · obtain ⟨right, present, related⟩ := ih inside
      exact ⟨right, List.mem_cons_of_mem _ present, related⟩

theorem along_right {relation : α → β → Prop} {ends : List α} {members : List β}
    (along : List.Forall₂ relation ends members) {right : β} (member : right ∈ members) :
    ∃ left ∈ ends, relation left right :=
  along_left along.flip member

theorem along_of_getElem? {relation : α → β → Prop} {ends : List α} {members : List β}
    (length : ends.length = members.length)
    (related : ∀ (index : Nat) left right, ends[index]? = some left → members[index]? = some right →
      relation left right) :
    List.Forall₂ relation ends members := by
  refine List.forall₂_iff_zip.mpr ⟨length, fun {left right} member => ?_⟩
  obtain ⟨index, atLeft, atRight⟩ := mem_zip_iff.mp member
  exact related index left right atLeft atRight

theorem along_getElem? {relation : α → β → Prop} {ends : List α} {members : List β}
    (along : List.Forall₂ relation ends members) {index : Nat} {left : α}
    (atLeft : ends[index]? = some left) :
    ∃ right, members[index]? = some right ∧ relation left right := by
  induction along generalizing index with
  | nil => cases atLeft
  | cons head _ ih =>
    cases index with
    | zero =>
      cases atLeft
      exact ⟨_, rfl, head⟩
    | succ index => exact ih atLeft

theorem getElem?_map_zipIdx {items : List α} {change : α × Nat → β} (index : Nat) :
    (items.zipIdx.map change)[index]? = items[index]?.map fun item => change (item, index) := by
  rw [List.getElem?_map, List.getElem?_zipIdx, Option.map_map, Nat.zero_add]
  rfl

theorem count_le_of_along [DecidableEq α] [DecidableEq β] {relation : α → β → Prop} {ends : List α}
    {members : List β} (along : List.Forall₂ relation ends members) {item : α} {other : β}
    (leads : ∀ {right}, relation item right → right = other) :
    ends.count item ≤ members.count other := by
  induction along with
  | nil => exact Nat.le_refl 0
  | @cons first second _ _ head _ ih =>
    rw [List.count_cons, List.count_cons]
    by_cases same : first = item
    · obtain rfl := leads (same ▸ head)
      simpa [same] using ih
    · simp only [beq_iff_eq, same, if_false]
      omega

theorem along_iff_map_eq {ends : List α} {members : List β} {first : α → γ} {second : β → γ} :
    List.Forall₂ (fun left right => first left = second right) ends members ↔
    ends.map first = members.map second := by
  induction ends generalizing members with
  | nil => cases members <;> simp
  | cons _ _ ih => cases members <;> simp [ih]

theorem map_eq_of_along {relation : α → β → Prop} {ends : List α} {members : List β} {first : α → γ}
    {second : β → γ} (along : List.Forall₂ relation ends members)
    (same : ∀ left right, relation left right → first left = second right) :
    ends.map first = members.map second :=
  along_iff_map_eq.mp (along.imp same)

theorem exists_along {relation : α → β → Prop} {ends : List α}
    (each : ∀ left ∈ ends, ∃ right, relation left right) :
    ∃ members, List.Forall₂ relation ends members := by
  induction ends with
  | nil => exact ⟨[], .nil⟩
  | cons first rest ih =>
    rw [List.forall_mem_cons] at each
    obtain ⟨right, related⟩ := each.1
    obtain ⟨members, along⟩ := ih each.2
    exact ⟨right :: members, .cons related along⟩

theorem along_trans {relation : α → β → Prop} {other : β → γ → Prop} {ends : List α}
    {between : List β} {members : List γ} (along : List.Forall₂ relation ends between)
    (onwards : List.Forall₂ other between members) :
    List.Forall₂ (fun left right => ∃ middle, relation left middle ∧ other middle right)
      ends members := by
  induction along generalizing members with
  | nil =>
    cases onwards
    exact .nil
  | cons head _ ih =>
    cases onwards with
    | cons next rest => exact .cons ⟨_, head, next⟩ (ih rest)

end Coverability.Listing
