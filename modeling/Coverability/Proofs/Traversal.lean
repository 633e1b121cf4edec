import Mathlib.Data.List.Forall2
import Mathlib.Logic.Function.Iterate

/-! Lists that a step goes through from one end to the other. What a search comes across, and in
which order, is written down as such a list. Where the places of a state move like the wheels of an
odometer, the list is made of the lists that the single places go through. -/

namespace Coverability

variable {α β σ : Type} {step : α → Option α} {item : α} {items rest : List α}
  {lists : List (List α)} {row : List α}

/-- The step leads from each item to the one behind it, and from the last one nowhere. -/
inductive Traverses (step : α → Option α) : List α → Prop
  | last {item : α} : step item = none → Traverses step [item]
  | onward {item following : α} {rest : List α} :
    step item = some following → Traverses step (following :: rest) →
      Traverses step (item :: following :: rest)

namespace Traverses

/-- Steps from the first item reach every item in its turn, and then nothing. -/
theorem iterate (way : Traverses step (item :: rest)) (steps : Nat) :
    (Option.bind · step)^[steps] (some item) = (item :: rest)[steps]? := by
  induction steps generalizing item rest with
  | zero => rfl
  | succ steps ih =>
    rw [Function.iterate_succ_apply, Option.bind_some]
    cases way with
    | last ends => rw [ends, Function.iterate_fixed rfl, List.getElem?_cons_succ, List.getElem?_nil]
    | onward moves later => rw [moves, ih later, List.getElem?_cons_succ]

/-- The same for a state that holds an item and, where there is no next one, keeps the last one and
is marked as ended. -/
theorem iterate_ending {advance : σ → σ} {running ended : α → σ}
    (moves : ∀ {item next}, step item = some next → advance (running item) = running next)
    (ends : ∀ {item}, step item = none → advance (running item) = ended item)
    (stays : ∀ item, advance (ended item) = ended item) (way : Traverses step (item :: rest))
    (fallback : α) (steps : Nat) :
    advance^[steps] (running item) = match (item :: rest)[steps]? with
      | some later => running later
      | none => ended ((item :: rest).getLastD fallback) := by
  induction steps generalizing item rest with
  | zero => rfl
  | succ steps ih =>
    rw [Function.iterate_succ_apply, List.getElem?_cons_succ]
    cases way with
    | last stuck => rw [ends stuck, Function.iterate_fixed (stays _)]; rfl
    | onward moved later => rw [moves moved, ih later]; rfl

private theorem eq_following {order : α → α → Prop} [asymmetric : Std.Asymm order]
    {following next : α} (ascending : (item :: following :: rest).Pairwise order)
    (member : next ∈ item :: following :: rest) (less : order item next)
    (least : next = following ∨ order next following) : next = following := by
  obtain ⟨_, ascendingRest⟩ := List.pairwise_cons.mp ascending
  rcases least with same | closer
  · exact same
  · simp only [List.mem_cons] at member
    rcases member with rfl | same | further
    · exact absurd less (asymmetric.asymm _ _ less)
    · exact same
    · exact absurd closer
        (asymmetric.asymm _ _ ((List.pairwise_cons.mp ascendingRest).1 next further))

/-- A step to the least larger item goes through an ascending list. -/
theorem of_ascending {order : α → α → Prop} [asymmetric : Std.Asymm order]
    (ascending : items.Pairwise order) (inhabited : items ≠ [])
    (moves : ∀ item ∈ items, ∀ next, step item = some next →
      next ∈ items ∧ order item next ∧ ∀ other ∈ items, order item other → next = other ∨
        order next other)
    (ends : ∀ item ∈ items, step item = none → ∀ other ∈ items, ¬order item other) :
    Traverses step items := by
  induction items with
  | nil => exact absurd rfl inhabited
  | cons item rest ih =>
    obtain ⟨before, ascendingRest⟩ := List.pairwise_cons.mp ascending
    cases rest with
    | nil =>
      refine .last (Option.eq_none_iff_forall_ne_some.mpr fun next moved => ?_)
      obtain ⟨member, less, _⟩ := moves item List.mem_cons_self next moved
      rw [List.mem_singleton.mp member] at less
      exact asymmetric.asymm _ _ less less
    | cons following rest =>
      refine .onward ?_ (ih ascendingRest (List.cons_ne_nil _ _) ?_ ?_)
      · have behind : following ∈ item :: following :: rest :=
          List.mem_cons_of_mem _ List.mem_cons_self
        have close := before following List.mem_cons_self
        cases moved : step item with
        | none => exact absurd close (ends item List.mem_cons_self moved following behind)
        | some next =>
          obtain ⟨member, less, least⟩ := moves item List.mem_cons_self next moved
          rw [eq_following ascending member less (least following behind close)]
      -- From a later item no step leads back to the first one, which is smaller.
      · intro other inside next moved
        obtain ⟨member, less, least⟩ := moves other (List.mem_cons_of_mem _ inside) next moved
        refine ⟨(List.mem_cons.mp member).resolve_left ?_, less,
          fun third within => least third (List.mem_cons_of_mem _ within)⟩
        rintro rfl
        exact asymmetric.asymm _ _ less (before other inside)
      · intro other inside stuck third within
        exact ends other (List.mem_cons_of_mem _ inside) stuck third (List.mem_cons_of_mem _ within)

/-- One list after another: the last item of the first one leads to the first item of the second one. -/
theorem append {inner : β → Option β} {put : β → α} {first : List β} {second : List α}
    (way : Traverses inner first)
    (moves : ∀ {item next}, inner item = some next → step (put item) = some (put next))
    (leaves : ∀ last ∈ first, inner last = none → step (put last) = second.head?)
    (later : second ≠ [] → Traverses step second) : Traverses step (first.map put ++ second) := by
  induction way with
  | last ends =>
    have left := leaves _ List.mem_cons_self ends
    cases second with
    | nil => exact .last left
    | cons following rest => exact .onward left (later (List.cons_ne_nil _ _))
  | onward moved _ ih =>
    exact .onward (moves moved) (ih fun last inside => leaves last (List.mem_cons_of_mem _ inside))

end Traverses

/-- The rows that take one item from each list, in lexicographic order. -/
def rows : List (List α) → List (List α)
  | [] => [[]]
  | items :: lists => items.flatMap fun item => (rows lists).map (item :: ·)

theorem mem_rows : row ∈ rows lists ↔ List.Forall₂ (· ∈ ·) row lists := by
  induction lists generalizing row with
  | nil => rw [rows, List.mem_singleton, List.forall₂_nil_right_iff]
  | cons items lists ih =>
    simp only [rows, List.mem_flatMap, List.mem_map, ih, List.forall₂_cons_right_iff]
    constructor
    · rintro ⟨item, inside, rest, along, rfl⟩
      exact ⟨item, rest, inside, along, rfl⟩
    · rintro ⟨item, rest, inside, along, rfl⟩
      exact ⟨item, inside, rest, along, rfl⟩

theorem mem_rows_replicate {count : Nat} : row ∈ rows (List.replicate count items) ↔
    row.length = count ∧ ∀ item ∈ row, item ∈ items := by
  induction count generalizing row with
  | zero =>
    rw [List.replicate_zero, rows, List.mem_singleton, List.length_eq_zero_iff, iff_self_and]
    rintro rfl
    exact List.forall_mem_nil _
  | succ count ih =>
    simp only [List.replicate_succ, rows, List.mem_flatMap, List.mem_map, ih]
    constructor
    · rintro ⟨item, inside, rest, ⟨rfl, all⟩, rfl⟩
      exact ⟨rfl, List.forall_mem_cons.mpr ⟨inside, all⟩⟩
    · rintro ⟨length, all⟩
      cases row with
      | nil => cases length
      | cons item rest =>
        obtain ⟨inside, within⟩ := List.forall_mem_cons.mp all
        exact ⟨item, inside, rest, ⟨Nat.succ.inj length, within⟩, rfl⟩

theorem length_rows_cons : (rows (items :: lists)).length = items.length * (rows lists).length := by
  simp [rows, List.length_flatMap]

theorem rows_ascending {order : α → α → Prop} (ascending : ∀ items ∈ lists, items.Pairwise order) :
    (rows lists).Pairwise (List.Lex order) := by
  induction lists with
  | nil => exact List.pairwise_singleton _ _
  | cons items lists ih =>
    obtain ⟨here, later⟩ := List.forall_mem_cons.mp ascending
    rw [rows, List.pairwise_flatMap]
    constructor
    · intro item _
      rw [List.pairwise_map]
      exact (ih later).imp .cons
    · refine here.imp ?_
      rintro one other less _ inOne _ inOther
      obtain ⟨rest, _, rfl⟩ := List.mem_map.mp inOne
      obtain ⟨others, _, rfl⟩ := List.mem_map.mp inOther
      exact .rel less

theorem rows_cons :
    rows ((item :: items) :: lists) = (rows lists).map (item :: ·) ++ rows (items :: lists) := rfl

/-- If every list starts with what its items are reset to, so do the rows. -/
theorem head?_rows {reset : α → α}
    (resets : ∀ items ∈ lists, ∀ item ∈ items, items.head? = some (reset item))
    (member : row ∈ rows lists) :
    (rows lists).head? = some (row.map reset) := by
  induction lists generalizing row with
  | nil =>
    rw [List.mem_singleton.mp member]
    rfl
  | cons items lists ih =>
    obtain ⟨here, behind⟩ := List.forall_mem_cons.mp resets
    obtain ⟨item, inside, others⟩ := List.mem_flatMap.mp member
    obtain ⟨rest, within, rfl⟩ := List.mem_map.mp others
    obtain ⟨_, rfl⟩ := List.head?_eq_some_iff.mp (here item inside)
    rw [rows_cons, List.head?_append, List.head?_map, ih behind within]
    rfl

/-- The places of an odometer: one moves on when all behind it have run out, which start over then. -/
theorem Traverses.rows {turn : α → Option α} {reset : α → α} {step : List α → Option (List α)}
    (empty : step [] = none)
    (keeps : ∀ {item row next}, step row = some next → step (item :: row) = some (item :: next))
    (turns : ∀ {item row}, step row = none →
      step (item :: row) = (turn item).map fun item => item :: row.map reset)
    (ways : ∀ items ∈ lists, Traverses turn items)
    (resets : ∀ items ∈ lists, ∀ item ∈ items, items.head? = some (reset item)) :
    Traverses step (rows lists) := by
  induction lists with
  | nil => exact .last empty
  | cons items lists ih =>
    obtain ⟨way, waysBehind⟩ := List.forall_mem_cons.mp ways
    have resetsBehind := (List.forall_mem_cons.mp resets).2
    have behind := ih waysBehind resetsBehind
    clear ways resets
    induction way with
    | last stuck =>
      rw [rows_cons]
      refine behind.append keeps (fun row _ ends => ?_) fun some => absurd rfl some
      rw [turns ends, stuck]
      rfl
    | onward moved _ later =>
      rw [rows_cons]
      refine behind.append keeps (fun row member ends => ?_) fun _ => later
      rw [turns ends, moved, rows_cons, List.head?_append, List.head?_map,
        head?_rows resetsBehind member]
      rfl

end Coverability
