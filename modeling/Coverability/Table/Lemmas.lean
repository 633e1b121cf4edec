import Coverability.Table
import Mathlib.Data.List.Nodup

/-! Each table operation said through `get?`. `eq_of_get?` is why nothing else need be said:
a table is determined by its lookups. -/

namespace Coverability.Table

variable {κ α β : Type} [Ord κ]

theorem lookup_place_self [Std.OrientedOrd κ] {key : κ} {value : α} {entries : List (κ × α)} :
    lookup key (place key value entries) = some value := by
  induction entries with
  | nil => simp [place, lookup]
  | cons first rest ih =>
    unfold place
    split
    · simp [lookup]
    · simp [lookup]
    next greater => simp [lookup, greater, ih]

theorem lookup_place_of_ne [Std.TransOrd κ] [Std.LawfulEqOrd κ] {key other : κ} {value : α} {entries : List (κ × α)}
    (different : other ≠ key) : lookup other (place key value entries) = lookup other entries := by
  have apart : compare other key ≠ .eq := fun same => different (Std.LawfulEqCmp.compare_eq_iff_eq.mp same)
  induction entries with
  | nil =>
    unfold place lookup
    cases order : compare other key with
    | lt => rfl
    | eq => exact absurd order apart
    | gt => rfl
  | cons first rest ih =>
    unfold place
    split
    next less =>
      cases order : compare other key with
      | lt => simp [lookup, order, Std.TransCmp.lt_trans order less]
      | eq => exact absurd order apart
      | gt => simp [lookup, order]
    next same =>
      have equal := Std.LawfulEqCmp.compare_eq_iff_eq.mp same
      subst equal
      cases order : compare other first.1 with
      | lt => simp [lookup, order]
      | eq => exact absurd order apart
      | gt => simp [lookup, order]
    next greater =>
      cases order : compare other first.1 with
      | lt => simp [lookup, order]
      | eq => simp [lookup, order]
      | gt => simp [lookup, order, ih]

theorem mem_of_lookup [Std.LawfulEqOrd κ] {key : κ} {value : α} {entries : List (κ × α)}
    (found : lookup key entries = some value) : (key, value) ∈ entries := by
  induction entries with
  | nil => simp [lookup] at found
  | cons first rest ih =>
    unfold lookup at found
    split at found
    · simp at found
    next same =>
      have equal := Std.LawfulEqCmp.compare_eq_iff_eq.mp same
      have stored := Option.some.inj found
      subst equal stored
      exact List.mem_cons_self
    · exact List.mem_cons_of_mem _ (ih found)

theorem lookup_of_mem [Std.TransOrd κ] [Std.LawfulEqOrd κ] {key : κ} {value : α} {entries : List (κ × α)}
    (sorted : entries.Pairwise fun first second => compare first.1 second.1 = .lt)
    (member : (key, value) ∈ entries) : lookup key entries = some value := by
  induction entries with
  | nil => simp at member
  | cons first rest ih =>
    obtain ⟨below, sortedRest⟩ := List.pairwise_cons.mp sorted
    rcases List.mem_cons.mp member with same | inside
    · subst same
      simp [lookup]
    · have greater := Std.OrientedCmp.gt_iff_lt.mpr (below _ inside)
      simp [lookup, greater, ih sortedRest inside]

variable {table : Table κ α} {key other : κ} {value : α}

@[simp]
theorem get?_empty : (∅ : Table κ α).get? key = none := rfl

theorem mem_entries_iff [Std.TransOrd κ] [Std.LawfulEqOrd κ] :
    (key, value) ∈ table.entries ↔ table.get? key = some value :=
  ⟨lookup_of_mem table.ascending, mem_of_lookup⟩

theorem get?_insert [Std.TransOrd κ] [Std.LawfulEqOrd κ] [DecidableEq κ] :
    (table.insert key value).get? other = if other = key then some value else table.get? other := by
  split
  next same => exact same ▸ lookup_place_self
  next different => exact lookup_place_of_ne different

theorem get?_erase [Std.TransOrd κ] [Std.LawfulEqOrd κ] [DecidableEq κ] :
    (table.erase key).get? other = if other = key then none else table.get? other := by
  apply Option.ext
  intro found
  rw [← mem_entries_iff]
  split
  next same => simp [erase, same]
  next different =>
    rw [← mem_entries_iff]
    simp [erase, different]

theorem get?_mapValues {change : κ → α → β} [Std.TransOrd κ] [Std.LawfulEqOrd κ] :
    (table.mapValues change).get? key = (table.get? key).map (change key) := by
  apply Option.ext
  intro found
  rw [← mem_entries_iff, Option.map_eq_some_iff]
  simp only [mapValues, List.mem_map, Prod.mk.injEq]
  constructor
  · rintro ⟨entry, member, same, changed⟩
    subst same changed
    exact ⟨entry.2, mem_entries_iff.mp member, rfl⟩
  · rintro ⟨old, stored, changed⟩
    exact ⟨(key, old), mem_entries_iff.mpr stored, rfl, changed⟩

theorem get?_modify {change : α → α} [Std.TransOrd κ] [Std.LawfulEqOrd κ] [DecidableEq κ] :
    (table.modify key change).get? other = (table.get? other).map fun value => if other = key then change value else value :=
  get?_mapValues

theorem mem_keys_iff [Std.TransOrd κ] [Std.LawfulEqOrd κ] : key ∈ table.keys ↔ ∃ value, table.get? key = some value := by
  simp [keys, ← mem_entries_iff]

/-- Tables with the same lookups have the same entries, since their order is fixed. -/
theorem eq_of_get? [Std.TransOrd κ] [Std.LawfulEqOrd κ] {first second : Table κ α}
    (same : ∀ key, first.get? key = second.get? key) : first = second := by
  have members : ∀ entry, entry ∈ first.entries ↔ entry ∈ second.entries := by
    rintro ⟨key, value⟩
    rw [mem_entries_iff, mem_entries_iff, same]
  have strict : ∀ {table : Table κ α}, table.entries.Nodup := by
    intro table
    refine table.ascending.imp ?_
    intro a b less equal
    subst equal
    simp at less
  have listed : first.entries = second.entries :=
    ((List.perm_ext_iff_of_nodup strict strict).mpr members).eq_of_pairwise
      (fun a b _ _ less greater => by
        simpa using Std.TransCmp.lt_trans less greater) first.ascending second.ascending
  cases first
  cases second
  cases listed
  rfl

theorem keys_ascending (table : Table κ α) : table.keys.Pairwise fun first second => compare first second = .lt :=
  List.pairwise_map.mpr table.ascending

theorem nodup_keys [Std.LawfulEqOrd κ] : table.keys.Nodup := by
  rw [keys, List.Nodup, List.pairwise_map]
  refine table.ascending.imp ?_
  intro first second less same
  rw [same] at less
  simp at less

theorem length_keys : table.keys.length = table.size := by simp [keys, size]

theorem length_values : table.values.length = table.size := by simp [values, size]

theorem contains_iff : table.contains key = true ↔ ∃ value, table.get? key = some value := by
  rw [contains, Option.isSome_iff_exists]

theorem getD_eq {fallback : α} : table.getD key fallback = (table.get? key).getD fallback := rfl

section Listings

variable [Std.TransOrd κ] [Std.LawfulEqOrd κ]

theorem mem_keys_iff_contains : key ∈ table.keys ↔ table.contains key = true := by
  rw [mem_keys_iff, contains_iff]

theorem mem_values_iff : value ∈ table.values ↔ ∃ key, table.get? key = some value := by
  simp [values, ← mem_entries_iff]

/-- The values differ just if no two keys have the same one. -/
theorem nodup_values_iff : table.values.Nodup ↔
    ∀ {one other value}, table.get? one = some value → table.get? other = some value → one = other := by
  constructor
  · intro distinct one other value first second
    exact congrArg Prod.fst (List.inj_on_of_nodup_map distinct (mem_entries_iff.mpr first) (mem_entries_iff.mpr second) rfl)
  · intro injective
    apply List.Nodup.map_on _ (List.Nodup.of_map Prod.fst nodup_keys)
    intro one first other second same
    have here : table.get? one.1 = some one.2 := mem_entries_iff.mp first
    have there : table.get? other.1 = some other.2 := mem_entries_iff.mp second
    exact Prod.ext (injective here (same ▸ there)) same

theorem contains_insert [DecidableEq κ] : (table.insert key value).contains other = (decide (other = key) || table.contains other) := by
  rw [contains, contains, get?_insert]
  by_cases same : other = key <;> simp [same]

theorem contains_erase [DecidableEq κ] : (table.erase key).contains other = (!decide (other = key) && table.contains other) := by
  rw [contains, contains, get?_erase]
  by_cases same : other = key <;> simp [same]

theorem contains_mapValues {change : κ → α → β} : (table.mapValues change).contains key = table.contains key := by
  rw [contains, contains, get?_mapValues, Option.isSome_map]

/-- Where keys are listed once, the entries of the list win over the table. -/
theorem get?_insertAll [DecidableEq κ] {entries : List (κ × α)} (distinct : (entries.map Prod.fst).Nodup) :
    (table.insertAll entries).get? key = some value ↔
      (key, value) ∈ entries ∨ key ∉ entries.map Prod.fst ∧ table.get? key = some value := by
  induction entries generalizing table with
  | nil => simp [insertAll]
  | cons first rest ih =>
    obtain ⟨missing, distinct⟩ := List.nodup_cons.mp distinct
    change (insertAll (table.insert first.1 first.2) rest).get? key = some value ↔ _
    rw [ih distinct, get?_insert]
    by_cases same : key = first.1
    · subst same
      have absent : (first.1, value) ∉ rest := fun member => missing (List.mem_map.mpr ⟨_, member, rfl⟩)
      simp [missing, absent, Prod.ext_iff, eq_comm]
    · have other : (key, value) ≠ first := fun equal => same (congrArg Prod.fst equal)
      simp [same, other]

/-- The keys that have a value are known after one more key has got one. -/
theorem mem_append_iff_get?_insert [DecidableEq κ] {keys : List κ} {other : κ}
    (defined : ∀ {other}, other ∈ keys ↔ ∃ found, table.get? other = some found) :
    other ∈ keys ++ [key] ↔ ∃ found, (table.insert key value).get? other = some found := by
  rw [List.mem_append, List.mem_singleton, get?_insert]
  split
  next same => exact ⟨fun _ => ⟨value, rfl⟩, fun _ => .inr same⟩
  next different => rw [← defined, or_iff_left different]

/-- An injective table stays so if the value of a new key is not in use. -/
theorem injective_insert [DecidableEq κ]
    (injective : ∀ {one other found}, table.get? one = some found → table.get? other = some found → one = other)
    (unused : ∀ {other}, table.get? other ≠ some value) {one other : κ} {found : α} (first : (table.insert key value).get? one = some found)
    (second : (table.insert key value).get? other = some found) : one = other := by
  rw [get?_insert] at first second
  split at first <;> split at second
  next sameOne sameOther => rw [sameOne, sameOther]
  · cases first
    exact absurd second unused
  · cases second
    exact absurd first unused
  · exact injective first second

/-- Where the entries of a list agree with each other and with the table, they are added to it. -/
theorem get?_insertAll_of_agrees [DecidableEq κ] {entries : List (κ × α)}
    (agrees : ∀ {key one other}, (key, one) ∈ entries → (key, other) ∈ entries ∨ table.get? key = some other → one = other) :
    (table.insertAll entries).get? key = some value ↔ table.get? key = some value ∨ (key, value) ∈ entries := by
  induction entries generalizing table with
  | nil => simp [insertAll]
  | cons first rest ih =>
    obtain ⟨place, stored⟩ := first
    have later : ∀ {key one other}, (key, one) ∈ rest → (key, other) ∈ rest ∨ (table.insert place stored).get? key = some other →
        one = other := by
      intro key one other member known
      rw [get?_insert] at known
      apply agrees (List.mem_cons_of_mem _ member)
      rcases known with listed | found
      · exact .inl (List.mem_cons_of_mem _ listed)
      · split at found
        next same =>
          cases found
          exact .inl (same ▸ List.mem_cons_self)
        · exact .inr found
    change (insertAll (table.insert place stored) rest).get? key = some value ↔ _
    rw [ih later, get?_insert, List.mem_cons]
    by_cases same : key = place
    · subst same
      rw [if_pos rfl, Option.some.injEq, Prod.mk.injEq, and_iff_right rfl]
      constructor
      · rintro (rfl | listed)
        · exact .inr (.inl rfl)
        · exact .inr (.inr listed)
      · rintro (found | rfl | listed)
        · exact .inl (agrees List.mem_cons_self (.inr found))
        · exact .inl rfl
        · exact .inr listed
    · rw [if_neg same, Prod.mk.injEq]
      simp only [same, false_and, false_or]

theorem get?_group [DecidableEq κ] {entries : List (κ × α)} :
    (group entries).get? key =
      if key ∈ entries.map Prod.fst then some ((entries.filter fun entry => entry.1 = key).map Prod.snd) else none := by
  induction entries with
  | nil => rfl
  | cons first rest ih =>
    change ((group rest).insert first.1 (first.2 :: (group rest).getD first.1 [])).get? key = _
    rw [get?_insert]
    by_cases same : key = first.1
    · subst same
      rw [getD_eq, ih]
      by_cases later : first.1 ∈ rest.map Prod.fst
      · simp [later]
      · have none : rest.filter (fun entry => decide (entry.1 = first.1)) = [] := by
          rw [List.filter_eq_nil_iff]
          intro entry member equal
          exact later (List.mem_map.mpr ⟨entry, member, by simpa using equal⟩)
        simp [later, none]
    · have different : ¬first.1 = key := fun equal => same equal.symm
      simp only [same, ite_false, ih, List.map_cons, List.mem_cons, false_or]
      simp [different]

theorem get?_ofUnits [DecidableEq κ] {members : List κ} {table : Table κ Unit} :
    ((table.insertAll (members.map fun member => (member, ()))).get? key).isSome =
      (decide (key ∈ members) || (table.get? key).isSome) := by
  induction members generalizing table with
  | nil => simp [insertAll]
  | cons first rest ih =>
    change ((insertAll (table.insert first ()) (rest.map fun member => (member, ()))).get? key).isSome = _
    rw [ih, get?_insert]
    by_cases same : key = first <;> simp [same]

/-- Any lookup function that finds something for finitely many keys only is that of a table. -/
theorem exists_of_lookups [DecidableEq κ] (keys : List κ) {find? : κ → Option α} (listed : ∀ key value, find? key = some value → key ∈ keys) :
    ∃ table : Table κ α, ∀ key, table.get? key = find? key := by
  suffices partly : ∃ table : Table κ α, ∀ key, table.get? key = if key ∈ keys then find? key else none by
    obtain ⟨table, same⟩ := partly
    refine ⟨table, fun key => (same key).trans ?_⟩
    split
    · rfl
    next missing => exact (Option.eq_none_iff_forall_ne_some.mpr fun value found => missing (listed key value found)).symm
  clear listed
  induction keys with
  | nil => exact ⟨∅, fun key => by simp [get?_empty]⟩
  | cons first rest ih =>
    obtain ⟨table, same⟩ := ih
    cases found : find? first with
    | none =>
      refine ⟨table, fun key => (same key).trans ?_⟩
      by_cases equal : key = first
      · simp [equal, found]
      · simp [equal]
    | some value =>
      refine ⟨table.insert first value, fun key => ?_⟩
      rw [get?_insert, same]
      by_cases equal : key = first
      · simp [equal, found]
      · simp [equal]

/-- A relation that gives finitely many keys one value each is that of a table. -/
theorem exists_of_relation [DecidableEq κ] (keys : List κ) {relation : κ → α → Prop} (listed : ∀ {key value}, relation key value → key ∈ keys)
    (single : ∀ {key one other}, relation key one → relation key other → one = other) :
    ∃ table : Table κ α, ∀ {key value}, table.get? key = some value ↔ relation key value := by
  classical
  have found : ∃ table : Table κ α, ∀ key, table.get? key = if known : ∃ value, relation key value then some known.choose else none := by
    refine exists_of_lookups keys fun key value found => ?_
    split at found
    next known => exact listed known.choose_spec
    · cases found
  obtain ⟨table, same⟩ := found
  refine ⟨table, fun {key value} => ?_⟩
  rw [same]
  split
  next known =>
    rw [Option.some.injEq]
    exact ⟨fun equal => equal ▸ known.choose_spec, single known.choose_spec⟩
  next unknown => exact ⟨nofun, fun related => absurd ⟨value, related⟩ unknown⟩

theorem mem_distinct [DecidableEq κ] {members : List κ} : key ∈ distinct members ↔ key ∈ members := by
  rw [distinct, mem_keys_iff_contains, contains, ofList, get?_ofUnits]
  simp [get?, lookup, empty]

theorem nodup_distinct {members : List κ} : (distinct members).Nodup := nodup_keys

end Listings

end Coverability.Table
