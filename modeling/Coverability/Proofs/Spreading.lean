import Coverability.Predecessor.Match
import Coverability.Proofs.Listing
import Mathlib.Data.List.Induction
import Mathlib.Logic.Relation

/-! Spreading along edges. A block is connected just if spreading from its first vertex reaches all of it
in as many rounds as it has vertices: a round that reaches nothing new leaves nothing to be reached. -/

namespace Coverability.Matching

/-- Two vertices of a block on one of the edges. -/
def Adjacent (edges : List Edge) (block : List VertexId) (one other : VertexId) : Prop :=
  one ∈ block ∧ other ∈ block ∧ ∃ edge ∈ edges, one ∈ edge.vertices ∧ other ∈ edge.vertices

/-- Nothing in the block is left to be reached. -/
def Stable (edges : List Edge) (block reached : List VertexId) : Prop :=
  ∀ one ∈ reached, ∀ other, Adjacent edges block one other → other ∈ reached

variable {edges : List Edge} {block reached : List VertexId}

private theorem mem_insertAll {added : List VertexId} {vertex : VertexId} :
    vertex ∈ added.foldl (fun reached vertex => reached.insert vertex) reached ↔
    vertex ∈ added ∨ vertex ∈ reached := by
  induction added generalizing reached with
  | nil => simp
  | cons first rest ih =>
    rw [List.foldl_cons, ih, List.mem_insert_iff, List.mem_cons]
    tauto

private theorem nodup_insertAll {added : List VertexId} (distinct : reached.Nodup) :
    (added.foldl (fun reached vertex => reached.insert vertex) reached).Nodup := by
  induction added generalizing reached with
  | nil => exact distinct
  | cons first rest ih => exact ih distinct.insert

/-- What one edge adds. -/
private def grow (block reached : List VertexId) (edge : Edge) : List VertexId :=
  if edge.vertices.any (· ∈ reached) then
    (edge.vertices.filter (· ∈ block)).foldl (fun reached vertex => reached.insert vertex) reached
  else reached

private theorem spread_cons (edge : Edge) (rest : List Edge) :
    spread (edge :: rest) block reached = spread rest block (grow block reached edge) := rfl

private theorem mem_grow {edge : Edge} {vertex : VertexId} : vertex ∈ grow block reached edge ↔
    vertex ∈ reached ∨ (∃ one ∈ edge.vertices, one ∈ reached) ∧ vertex ∈ edge.vertices ∧
    vertex ∈ block := by
  rw [grow]
  split
  next touched =>
    rw [mem_insertAll, List.mem_filter, decide_eq_true_iff, or_comm]
    simp only [List.any_eq_true, decide_eq_true_eq] at touched
    simp [touched]
  next apart =>
    simp only [List.any_eq_true, decide_eq_true_eq] at apart
    simp [apart]

private theorem nodup_grow {edge : Edge} (distinct : reached.Nodup) :
    (grow block reached edge).Nodup := by
  rw [grow]
  split
  · exact nodup_insertAll distinct
  · exact distinct

private theorem subset_spread : reached ⊆ spread edges block reached := by
  induction edges generalizing reached with
  | nil => exact List.Subset.refl _
  | cons edge rest ih => exact fun vertex member => ih (mem_grow.mpr (.inl member))

private theorem nodup_spread (distinct : reached.Nodup) : (spread edges block reached).Nodup := by
  induction edges generalizing reached with
  | nil => exact distinct
  | cons edge rest ih => exact ih (nodup_grow distinct)

private theorem spread_invariant (keeps : VertexId → Prop)
    (inside : ∀ vertex ∈ reached, vertex ∈ block ∧ keeps vertex)
    (passes : ∀ one other, keeps one → Adjacent edges block one other → keeps other) :
    ∀ vertex ∈ spread edges block reached, vertex ∈ block ∧ keeps vertex := by
  induction edges generalizing reached with
  | nil => exact inside
  | cons edge rest ih =>
    rw [spread_cons]
    refine ih (fun vertex member => ?_) fun one other kept adjacent => ?_
    · rcases mem_grow.mp member with old | ⟨⟨one, oneOn, reachedOne⟩, on, within⟩
      · exact inside vertex old
      · obtain ⟨oneWithin, kept⟩ := inside one reachedOne
        exact ⟨within, passes one vertex kept
          ⟨oneWithin, within, edge, List.mem_cons_self, oneOn, on⟩⟩
    · obtain ⟨left, right, known, member, on⟩ := adjacent
      exact passes one other kept ⟨left, right, known, List.mem_cons_of_mem _ member, on⟩

private theorem stable_of_spread {before : List VertexId} (more : reached ⊆ before)
    (same : spread edges block before ⊆ reached) :
    Stable edges block reached := by
  induction edges generalizing before with
  | nil =>
    intro one _ other adjacent
    obtain ⟨_, _, edge, member, _⟩ := adjacent
    cases member
  | cons first rest ih =>
    rw [spread_cons] at same
    intro one atOne other adjacent
    obtain ⟨left, within, edge, member, oneOn, otherOn⟩ := adjacent
    rcases List.mem_cons.mp member with rfl | later
    · exact same (subset_spread (mem_grow.mpr (.inr ⟨⟨one, oneOn, more atOne⟩, otherOn, within⟩)))
    · refine ih (fun vertex inside => mem_grow.mpr (.inl (more inside))) same one atOne other ?_
      exact ⟨left, within, edge, later, oneOn, otherOn⟩

private theorem spread_of_stable (within : reached ⊆ block) (stable : Stable edges block reached) :
    spread edges block reached ⊆ reached := by
  intro vertex member
  have kept := spread_invariant (· ∈ reached) (fun vertex inside => ⟨within inside, inside⟩)
    (fun one other atOne adjacent => stable one atOne other adjacent) vertex member
  exact kept.2

/-- What spreading in some rounds reaches. -/
private def spreadRounds (edges : List Edge) (block reached rounds : List VertexId) : List VertexId :=
  rounds.foldl (fun reached _ => spread edges block reached) reached

private theorem spreadRounds_concat (round : VertexId) (rounds : List VertexId) :
    spreadRounds edges block reached (rounds ++ [round]) =
      spread edges block (spreadRounds edges block reached rounds) := by
  rw [spreadRounds, List.foldl_append]
  rfl

private theorem rounds_invariant (keeps : VertexId → Prop)
    (inside : ∀ vertex ∈ reached, vertex ∈ block ∧ keeps vertex)
    (passes : ∀ one other, keeps one → Adjacent edges block one other → keeps other)
    (rounds : List VertexId) :
    ∀ vertex ∈ spreadRounds edges block reached rounds, vertex ∈ block ∧ keeps vertex := by
  induction rounds using List.reverseRecOn with
  | nil => exact inside
  | append_singleton rounds round ih =>
    rw [spreadRounds_concat]
    exact spread_invariant keeps ih passes

private theorem rounds_stable (edges : List Edge) (start : reached ≠ []) (distinct : reached.Nodup)
    (within : reached ⊆ block) (rounds : List VertexId) :
    (spreadRounds edges block reached rounds).Nodup ∧
    reached ⊆ spreadRounds edges block reached rounds ∧
      (Stable edges block (spreadRounds edges block reached rounds) ∨
        rounds.length < (spreadRounds edges block reached rounds).length) := by
  -- Every round reaches another vertex, unless nothing is left to be reached.
  induction rounds using List.reverseRecOn with
  | nil => exact ⟨distinct, List.Subset.refl _, .inr (List.length_pos_iff.mpr start)⟩
  | append_singleton rounds round ih =>
    obtain ⟨distinctNow, more, progress⟩ := ih
    have inside : spreadRounds edges block reached rounds ⊆ block := fun vertex member =>
      (rounds_invariant (fun _ => True) (fun _ member => ⟨within member, trivial⟩)
        (fun _ _ _ _ => trivial) rounds vertex member).1
    rw [spreadRounds_concat]
    refine ⟨nodup_spread distinctNow, List.Subset.trans more subset_spread, ?_⟩
    by_cases nothing : spread edges block (spreadRounds edges block reached rounds) ⊆
      spreadRounds edges block reached rounds
    · refine .inl fun one atOne other adjacent => subset_spread ?_
      exact stable_of_spread (List.Subset.refl _) nothing one (nothing atOne) other adjacent
    · rw [List.subset_def, not_forall] at nothing
      obtain ⟨new, nothing⟩ := nothing
      obtain ⟨reachedNow, fresh⟩ := Classical.not_imp.mp nothing
      rcases progress with stable | grown
      · exact absurd (spread_of_stable inside stable reachedNow) fresh
      · refine .inr ?_
        have longer : (new :: spreadRounds edges block reached rounds).length ≤ _ :=
          Listing.length_le_of_subset (List.nodup_cons.mpr ⟨fresh, distinctNow⟩)
            (List.forall_mem_cons.mpr ⟨reachedNow, fun vertex member => subset_spread member⟩)
        rw [List.length_append, List.length_singleton]
        rw [List.length_cons] at longer
        omega

theorem connects_iff {first : VertexId} {rest : List VertexId} :
    connects edges (first :: rest) = true ↔
    ∀ vertex ∈ first :: rest,
      Relation.ReflTransGen (Adjacent edges (first :: rest)) first vertex := by
  have reaches : connects edges (first :: rest) = true ↔
      ∀ vertex ∈ first :: rest,
        vertex ∈ spreadRounds edges (first :: rest) [first] (first :: rest) := by
    simp only [connects, List.all_eq_true, decide_eq_true_eq]
    rfl
  have within : [first] ⊆ first :: rest := List.cons_subset_cons first (List.nil_subset rest)
  rw [reaches]
  constructor
  · intro all vertex member
    have start : ∀ vertex ∈ [first], vertex ∈ first :: rest ∧
        Relation.ReflTransGen (Adjacent edges (first :: rest)) first vertex :=
      fun vertex only => ⟨within only, List.mem_singleton.mp only ▸ .refl⟩
    exact (rounds_invariant _ start (fun _ _ walk adjacent => walk.tail adjacent) _ vertex
      (all vertex member)).2
  · intro joined vertex member
    obtain ⟨distinct, more, progress⟩ :=
      rounds_stable edges (List.cons_ne_nil first []) (List.nodup_singleton first)
        within (first :: rest)
    have inside : spreadRounds edges (first :: rest) [first] (first :: rest) ⊆ first :: rest :=
      fun vertex member =>
        (rounds_invariant (fun _ => True) (fun _ member => ⟨within member, trivial⟩)
          (fun _ _ _ _ => trivial) _ vertex member).1
    have stable : Stable edges (first :: rest)
        (spreadRounds edges (first :: rest) [first] (first :: rest)) :=
      progress.resolve_right (Nat.not_lt.mpr (Listing.length_le_of_subset distinct inside))
    have walk := joined vertex member
    induction walk with
    | refl => exact more (List.mem_singleton_self first)
    | tail _ adjacent ih => exact stable _ (ih adjacent.1) _ adjacent

end Coverability.Matching
