import Coverability.Order.Contraction
import Coverability.Proofs.Listing
import Coverability.Table.Lemmas
import Mathlib.Logic.Relation

/-! Blocks as trees. The way up from a vertex passes no vertex twice, so it reaches the root within
as many steps as there are vertices with one above them. Finding a root puts the whole way right
below the root and leaves every vertex in its block; putting one root below another moves the whole
block and no other. -/

namespace Coverability.Blocks

variable {parents : Table VertexId VertexId} {blocks next last : Blocks}
  {vertex above root other : VertexId} {steps more : Nat}

/-- So many steps lead up from a vertex to its root. -/
inductive Climbs (parents : Table VertexId VertexId) : Nat → VertexId → VertexId → Prop where
  | root {vertex : VertexId} (top : parents.get? vertex = none) : Climbs parents 0 vertex vertex
  | step {steps : Nat} {vertex above root : VertexId} (below : parents.get? vertex = some above)
      (rest : Climbs parents steps above root) :
      Climbs parents (steps + 1) vertex root

theorem Climbs.top (climbs : Climbs parents steps vertex root) : parents.get? root = none := by
  induction climbs with
  | root top => exact top
  | step _ _ ih => exact ih

theorem Climbs.unique (climbs : Climbs parents steps vertex root)
    (again : Climbs parents more vertex other) :
    steps = more ∧ root = other := by
  induction climbs generalizing more with
  | root top =>
    cases again with
    | root => exact ⟨rfl, rfl⟩
    | step below => simp [top] at below
  | step below _ ih =>
    cases again with
    | root top => simp [top] at below
    | step belowAgain restAgain =>
      cases Option.some.inj (below.symm.trans belowAgain)
      exact (ih restAgain).imp_left (congrArg (· + 1))

private theorem Climbs.passed (climbs : Climbs parents steps vertex root) :
    ∃ passed : List VertexId, passed.length = steps ∧ passed.Nodup ∧
    ∀ other ∈ passed, other ∈ parents.keys ∧ ∃ left ≤ steps, Climbs parents left other root := by
  -- What is passed later has fewer steps to go, so it is another vertex.
  induction climbs with
  | root => exact ⟨[], rfl, .nil, by simp⟩
  | @step steps vertex above root below rest ih =>
    obtain ⟨passed, length, distinct, known⟩ := ih
    have climbs := Climbs.step below rest
    refine ⟨vertex :: passed, congrArg (· + 1) length, List.nodup_cons.mpr ⟨?_, distinct⟩,
      List.forall_mem_cons.mpr ⟨?_, ?_⟩⟩
    · intro member
      obtain ⟨_, left, few, again⟩ := known vertex member
      have := (climbs.unique again).1
      omega
    · exact ⟨Table.mem_keys_iff.mpr ⟨above, below⟩, steps + 1, Nat.le_refl _, climbs⟩
    · intro other member
      obtain ⟨inside, left, few, climbs⟩ := known other member
      exact ⟨inside, left, Nat.le_succ_of_le few, climbs⟩

theorem Climbs.le_size (climbs : Climbs parents steps vertex root) : steps ≤ parents.size := by
  obtain ⟨passed, rfl, distinct, known⟩ := climbs.passed
  rw [← Table.length_keys]
  exact Listing.length_le_of_subset distinct fun other member => (known other member).1

theorem Climbs.climb_eq (climbs : Climbs parents steps vertex root) (enough : steps ≤ more) :
    climb parents more vertex = root := by
  induction climbs generalizing more with
  | root top =>
    cases more with
    | zero => rfl
    | succ more => rw [climb, top]
  | step below _ ih =>
    obtain ⟨more, rfl⟩ :=
      Nat.exists_eq_succ_of_ne_zero (Nat.ne_of_gt (Nat.lt_of_lt_of_le (Nat.succ_pos _) enough))
    rw [climb, below]
    exact ih (Nat.le_of_succ_le_succ enough)

theorem Climbs.root_eq (climbs : Climbs blocks.parents steps vertex root) :
    blocks.root vertex = root := climbs.climb_eq climbs.le_size

/-- Every way up ends. -/
def Grounded (blocks : Blocks) : Prop :=
  ∀ vertex, ∃ steps, Climbs blocks.parents steps vertex (blocks.root vertex)

theorem grounded_start {targets : Table VertexId VertexId} : Grounded { targets } :=
  fun _ => ⟨0, .root rfl⟩

theorem Grounded.rooted (grounded : Grounded blocks) (vertex : VertexId) :
    blocks.root (blocks.root vertex) = blocks.root vertex := by
  obtain ⟨_, climbs⟩ := grounded vertex
  exact (Climbs.root climbs.top).root_eq

/-- The same blocks, with other ways to their roots. -/
structure Shortened (blocks next : Blocks) : Prop where
  grounded : Grounded next
  root : ∀ vertex, next.root vertex = blocks.root vertex
  targets : next.targets = blocks.targets

theorem Grounded.shortened (grounded : Grounded blocks) : Shortened blocks blocks :=
  ⟨grounded, fun _ => rfl, rfl⟩

theorem Shortened.trans (first : Shortened blocks next) (second : Shortened next last) :
    Shortened blocks last :=
  ⟨second.grounded, fun vertex => (second.root vertex).trans (first.root vertex),
    second.targets.trans first.targets⟩

private theorem Climbs.lift (climbs : Climbs parents steps vertex root)
    (below : parents.get? vertex = some above) {top : VertexId}
    (leads : Climbs parents more other top) :
    ∃ left ≤ more, Climbs (parents.insert vertex root) left other top := by
  have apart : root ≠ vertex := by
    intro same
    rw [← same, climbs.top] at below
    cases below
  induction leads with
  | @root other free =>
    have different : other ≠ vertex := by
      intro same
      rw [← same, free] at below
      cases below
    exact ⟨0, Nat.le_refl 0, .root (by rw [Table.get?_insert, if_neg different, free])⟩
  | @step more other higher top belowOther rest ih =>
    by_cases same : other = vertex
    · subst same
      obtain rfl := (climbs.unique (.step belowOther rest)).2
      refine ⟨1, Nat.succ_le_succ (Nat.zero_le more),
        .step (by rw [Table.get?_insert, if_pos rfl]) (.root ?_)⟩
      rw [Table.get?_insert, if_neg apart, climbs.top]
    · obtain ⟨left, few, climbsRest⟩ := ih
      exact ⟨left + 1, Nat.succ_le_succ few,
        .step (by rw [Table.get?_insert, if_neg same, belowOther]) climbsRest⟩

private theorem Climbs.shorten (climbs : Climbs parents steps vertex root) (reach : Nat)
    {top : VertexId} (leads : Climbs parents more other top) :
    ∃ left, Climbs (Blocks.shorten root reach vertex parents) left other top := by
  induction reach generalizing steps more vertex parents with
  | zero => exact ⟨more, leads⟩
  | succ reach ih =>
    rw [Blocks.shorten]
    split
    next above below =>
      split
      · exact ⟨more, leads⟩
      · cases climbs with
        | root free => simp [free] at below
        | step belowAgain rest =>
          have climbs := Climbs.step belowAgain rest
          cases Option.some.inj (below.symm.trans belowAgain)
          obtain ⟨_, _, climbsAbove⟩ := climbs.lift below rest
          obtain ⟨_, _, leadsOn⟩ := climbs.lift below leads
          exact ih climbsAbove leadsOn
    · exact ⟨more, leads⟩

theorem find_shortened (grounded : Grounded blocks) (vertex : VertexId) :
    Shortened blocks (blocks.find vertex).2 := by
  obtain ⟨_, climbs⟩ := grounded vertex
  have same : ∀ other, (blocks.find vertex).2.root other = blocks.root other := by
    intro other
    obtain ⟨_, leads⟩ := grounded other
    obtain ⟨_, leadsOn⟩ := climbs.shorten blocks.parents.size leads
    exact leadsOn.root_eq
  refine ⟨?_, same, rfl⟩
  intro other
  obtain ⟨_, leads⟩ := grounded other
  rw [same]
  exact climbs.shorten blocks.parents.size leads

/-- One vertex lies on the way up from another one. -/
def Leads (parents : Table VertexId VertexId) : VertexId → VertexId → Prop :=
  Relation.ReflTransGen fun low high => parents.get? low = some high

private theorem leads_of_top (top : parents.get? vertex = none) :
    Leads parents vertex other ↔ vertex = other := by
  refine Relation.ReflTransGen.cases_head_iff.trans (or_iff_left ?_)
  rintro ⟨above, below, _⟩
  cases top.symm.trans below

private theorem leads_of_below (below : parents.get? vertex = some above) :
    Leads parents vertex other ↔ vertex = other ∨ Leads parents above other := by
  refine Relation.ReflTransGen.cases_head_iff.trans (or_congr_right ?_)
  constructor
  · rintro ⟨higher, belowAgain, leads⟩
    cases below.symm.trans belowAgain
    exact leads
  · exact fun leads => ⟨above, below, leads⟩

private theorem Climbs.leads_insert (climbs : Climbs parents steps vertex root) {low : VertexId}
    (leads : Climbs parents more low root) (fewer : more < steps) :
    Leads (parents.insert vertex root) low other ↔ Leads parents low other := by
  -- The way on from the vertex above never comes back to it.
  have apart : ∀ {more low}, Climbs parents more low root → more < steps → low ≠ vertex := by
    rintro more low leads fewer rfl
    exact Nat.ne_of_lt fewer (leads.unique climbs).1
  induction leads with
  | root top =>
    rw [leads_of_top top,
      leads_of_top (by rw [Table.get?_insert, if_neg (apart (.root top) fewer), top])]
  | step below rest ih =>
    rw [leads_of_below below,
      leads_of_below (by rw [Table.get?_insert, if_neg (apart (.step below rest) fewer), below])]
    exact or_congr_right (ih climbs (Nat.lt_of_succ_lt fewer) apart)

private theorem get?_shorten_of_root {reach : Nat} (below : parents.get? other = some root) :
    (shorten root reach vertex parents).get? other = some root := by
  induction reach generalizing vertex parents with
  | zero => exact below
  | succ reach ih =>
    rw [shorten]
    split
    · split
      · exact below
      · apply ih
        rw [Table.get?_insert, below, ite_self]
    · exact below

private theorem Climbs.get?_shorten (climbs : Climbs parents steps vertex root) {reach : Nat}
    (enough : steps ≤ reach) :
    (∀ other, Leads parents vertex other → other ≠ root →
      (Blocks.shorten root reach vertex parents).get? other = some root) ∧
    ∀ other, ¬Leads parents vertex other → (Blocks.shorten root reach vertex parents).get? other =
      parents.get? other := by
  induction reach generalizing steps vertex parents with
  | zero =>
    cases climbs with
    | root top =>
      exact ⟨fun other leads apart => absurd ((leads_of_top top).mp leads).symm apart, fun _ _ => rfl⟩
    | step => cases enough
  | succ reach ih =>
    cases climbs with
    | root top =>
      rw [Blocks.shorten, top]
      exact ⟨fun other leads apart => absurd ((leads_of_top top).mp leads).symm apart, fun _ _ => rfl⟩
    | @step steps _ above _ below rest =>
      have climbs := Climbs.step below rest
      rw [Blocks.shorten, below]
      dsimp only
      split
      next atRoot =>
        subst atRoot
        refine ⟨fun other leads apart => ?_, fun _ _ => rfl⟩
        rcases (leads_of_below below).mp leads with rfl | leads
        · exact below
        · exact absurd ((leads_of_top rest.top).mp leads).symm apart
      · obtain ⟨left, few, climbsAbove⟩ := climbs.lift below rest
        obtain ⟨onWay, offWay⟩ := ih climbsAbove (by omega)
        constructor
        · intro other leads apart
          rcases (leads_of_below below).mp leads with rfl | leads
          · exact get?_shorten_of_root (by rw [Table.get?_insert, if_pos rfl])
          · exact onWay other ((climbs.leads_insert rest (Nat.lt_succ_self steps)).mpr leads) apart
        · intro other off
          rw [leads_of_below below, not_or] at off
          rw [offWay other (mt (climbs.leads_insert rest (Nat.lt_succ_self steps)).mp off.2),
            Table.get?_insert, if_neg (Ne.symm off.1)]

/-- Finding the root of a vertex puts all that is on the way right below the root, and nothing else
anywhere else. -/
theorem find_compresses (grounded : Grounded blocks) (vertex : VertexId) :
    (∀ other, Leads blocks.parents vertex other → other ≠ blocks.root vertex →
      (blocks.find vertex).2.parents.get? other = some (blocks.root vertex)) ∧
    ∀ other, ¬Leads blocks.parents vertex other →
      (blocks.find vertex).2.parents.get? other = blocks.parents.get? other := by
  obtain ⟨_, climbs⟩ := grounded vertex
  exact climbs.get?_shorten climbs.le_size

theorem findAll_shortened (grounded : Grounded blocks) (vertices : List VertexId) :
    (blocks.findAll vertices).1 = vertices.map blocks.root ∧
    Shortened blocks (blocks.findAll vertices).2 := by
  induction vertices generalizing blocks with
  | nil => exact ⟨rfl, grounded.shortened⟩
  | cons vertex rest ih =>
    have first := find_shortened grounded vertex
    obtain ⟨roots, later⟩ := ih first.grounded
    refine ⟨?_, first.trans later⟩
    rw [findAll, List.map_cons]
    refine congrArg (blocks.root vertex :: ·) (roots.trans ?_)
    exact List.map_congr_left fun other _ => first.root other

/-- Vertices are joined by putting the root of one below that of the other, after both ways have
been shortened. -/
theorem join_eq (grounded : Grounded blocks) (first second : VertexId) :
    ∃ found, Shortened blocks found ∧ blocks.join first second =
      found.link (found.root first) (found.root second) := by
  have atFirst := find_shortened grounded first
  have atSecond := find_shortened atFirst.grounded second
  refine ⟨_, atFirst.trans atSecond, ?_⟩
  rw [join, (atFirst.trans atSecond).root, atSecond.root]
  rfl

/-- The roots after one of them has been put below another. -/
theorem link_shortened (grounded : Grounded blocks) (targets : Table VertexId VertexId)
    {kept gone : VertexId} (topKept : blocks.root kept = kept) (topGone : blocks.root gone = gone)
    (apart : kept ≠ gone) :
    Grounded ⟨blocks.parents.insert gone kept, targets⟩ ∧
    ∀ vertex, Blocks.root ⟨blocks.parents.insert gone kept, targets⟩ vertex =
      if blocks.root vertex = gone then kept else blocks.root vertex := by
  have free : ∀ {vertex}, blocks.root vertex = vertex → blocks.parents.get? vertex = none := by
    intro vertex top
    obtain ⟨_, climbs⟩ := grounded vertex
    exact top ▸ climbs.top
  have moved : ∀ {steps vertex root}, Climbs blocks.parents steps vertex root →
      ∃ left, Climbs (blocks.parents.insert gone kept) left vertex
        (if root = gone then kept else root) := by
    intro steps vertex root climbs
    induction climbs with
    | @root vertex top =>
      by_cases same : vertex = gone
      · subst same
        rw [if_pos rfl]
        refine ⟨1, .step (by rw [Table.get?_insert, if_pos rfl]) (.root ?_)⟩
        rw [Table.get?_insert, if_neg apart, free topKept]
      · rw [if_neg same]
        exact ⟨0, .root (by rw [Table.get?_insert, if_neg same, top])⟩
    | @step steps vertex above root below _ ih =>
      have different : vertex ≠ gone := by
        intro same
        rw [same, free topGone] at below
        cases below
      obtain ⟨left, climbs⟩ := ih
      exact ⟨left + 1, .step (by rw [Table.get?_insert, if_neg different, below]) climbs⟩
  have roots : ∀ vertex, Blocks.root ⟨blocks.parents.insert gone kept, targets⟩ vertex =
      if blocks.root vertex = gone then kept else blocks.root vertex := by
    intro vertex
    obtain ⟨_, climbs⟩ := grounded vertex
    obtain ⟨_, climbsOn⟩ := moved climbs
    exact climbsOn.root_eq
  refine ⟨?_, roots⟩
  intro vertex
  obtain ⟨_, climbs⟩ := grounded vertex
  rw [roots]
  exact moved climbs

end Coverability.Blocks
