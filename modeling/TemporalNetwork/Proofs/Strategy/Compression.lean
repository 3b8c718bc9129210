import Mathlib.Algebra.Order.Field.Rat
import Mathlib.Data.Finset.Sort
import Mathlib.Tactic.Linarith
import TemporalNetwork.Proofs.Strategy.History

/-!
Compression of a strategy. In each scenario the distance between two consecutive times is cut down to
a given gap. Distances do not grow, and no distance falls below the gap unless it was below it
before; what a node has to wait for is decided by its past, so the strategy stays one.
-/

namespace TemporalNetwork

/-- The time `t` after the earlier times, the last of which comes first, with no distance between
consecutive times larger than `gap`. -/
def squeeze (gap : ℚ) : ℚ → List ℚ → ℚ
  | _, [] => 0
  | t, r :: earlier => squeeze gap r earlier + min gap (t - r)

section Squeeze

variable {gap t a : ℚ} {later earlier : List ℚ}

theorem squeeze_nonneg (nonneg : 0 ≤ gap) (sorted : (t :: earlier).SortedGT) :
    0 ≤ squeeze gap t earlier := by
  induction earlier generalizing t with
  | nil => exact le_rfl
  | cons r earlier ih =>
    obtain ⟨below, rest⟩ := List.pairwise_cons.mp sorted.pairwise
    have lt : r < t := below r List.mem_cons_self
    have step : 0 ≤ min gap (t - r) := le_min nonneg (by linarith)
    have before := ih (List.Pairwise.sortedGT rest)
    rw [squeeze]
    linarith

theorem squeeze_le (gap t : ℚ) (earlier : List ℚ) : squeeze gap t earlier ≤ gap * earlier.length := by
  induction earlier generalizing t with
  | nil => simp [squeeze]
  | cons r earlier ih =>
    have before := ih r
    have step := min_le_left gap (t - r)
    rw [squeeze, List.length_cons, Nat.cast_succ, mul_add, mul_one]
    linarith

/-- A distance is not squeezed below the smaller of itself and the gap, and does not grow. -/
theorem squeeze_append (nonneg : 0 ≤ gap) (sorted : (t :: (later ++ a :: earlier)).SortedGT) :
    min gap (t - a) ≤ squeeze gap t (later ++ a :: earlier) - squeeze gap a earlier ∧
      squeeze gap t (later ++ a :: earlier) - squeeze gap a earlier ≤ t - a := by
  induction later generalizing t with
  | nil =>
    have step := min_le_right gap (t - a)
    rw [List.nil_append, squeeze]
    constructor
    · linarith
    · linarith
  | cons r later ih =>
    obtain ⟨below, rest⟩ := List.pairwise_cons.mp sorted.pairwise
    have lt : r < t := below r List.mem_cons_self
    have lt' : a < r := (List.pairwise_cons.mp rest).1 a (by simp)
    obtain ⟨lower, upper⟩ := ih (List.Pairwise.sortedGT rest)
    have step := min_le_right gap (t - r)
    rw [List.cons_append, squeeze]
    constructor
    · -- The gap is the smaller one somewhere, or nowhere.
      rcases le_total gap (t - r) with wide | narrow
      · have before : 0 ≤ min gap (r - a) := le_min nonneg (by linarith)
        have whole := min_le_left gap (t - a)
        rw [min_eq_left wide]
        linarith
      · rw [min_eq_right narrow]
        rcases le_total gap (r - a) with wide' | narrow'
        · rw [min_eq_left wide'] at lower
          have whole := min_le_left gap (t - a)
          linarith
        · rw [min_eq_right narrow'] at lower
          have whole := min_le_right gap (t - a)
          linarith
    · linarith

end Squeeze

namespace Timing

/-- The times before that of the node `x`. -/
def timesBefore (T : Timing) (n : Nat) (s : Scenario) (x : NodeId) : Finset ℚ :=
  ((Finset.range n).image (T s)).filter fun t => t < T s x

/-- The strategy with no distance between consecutive times larger than `gap`. -/
def compress (T : Timing) (n : Nat) (gap : ℚ) : Timing := fun s x =>
  squeeze gap (T s x) ((T.timesBefore n s x).sort (· ≥ ·))

variable {T : Timing} {n : Nat} {gap : ℚ} {s s' : Scenario} {x y : NodeId} {t : ℚ}
  {observed : NodeId → Option Proposition}

theorem mem_timesBefore : t ∈ T.timesBefore n s x ↔ (∃ y < n, T s y = t) ∧ t < T s x := by
  simp [timesBefore]

theorem sorted_timesBefore (T : Timing) (n : Nat) (s : Scenario) (x : NodeId) :
    (T s x :: (T.timesBefore n s x).sort (· ≥ ·)).SortedGT := by
  refine List.Pairwise.sortedGT (List.pairwise_cons.mpr ⟨?_, (Finset.sortedGT_sort _).pairwise⟩)
  intro r mem
  exact (mem_timesBefore.mp ((Finset.mem_sort _).mp mem)).2

/-- The times before a later node are those before an earlier one, its own time and some after it. -/
theorem sort_timesBefore (hx : x < n) (lt : T s x < T s y) :
    ∃ later, (T.timesBefore n s y).sort (· ≥ ·) =
      later ++ T s x :: (T.timesBefore n s x).sort (· ≥ ·) := by
  have mem : T s x ∈ (T.timesBefore n s y).sort (· ≥ ·) :=
    (Finset.mem_sort _).mpr (mem_timesBefore.mpr ⟨⟨x, hx, rfl⟩, lt⟩)
  obtain ⟨later, earlier, split⟩ := List.append_of_mem mem
  refine ⟨later, ?_⟩
  have sorted := (Finset.sortedGT_sort (T.timesBefore n s y)).pairwise
  rw [split] at sorted
  obtain ⟨_, tail, above⟩ := List.pairwise_append.mp sorted
  obtain ⟨below, sorted'⟩ := List.pairwise_cons.mp tail
  have members : earlier.toFinset = T.timesBefore n s x := by
    ext t
    have whole : t ∈ T.timesBefore n s y ↔ t ∈ later ∨ t = T s x ∨ t ∈ earlier := by
      rw [← Finset.mem_sort (r := (· ≥ ·)), split, List.mem_append, List.mem_cons]
    rw [List.mem_toFinset, mem_timesBefore]
    constructor
    · intro inside
      exact ⟨(mem_timesBefore.mp (whole.mpr (Or.inr (Or.inr inside)))).1, below t inside⟩
    · rintro ⟨timed, before⟩
      rcases whole.mp (mem_timesBefore.mpr ⟨timed, lt_trans before lt⟩) with first | same | inside
      · have after : T s x < t := above t first (T s x) List.mem_cons_self
        exact absurd before (not_lt.mpr (le_of_lt after))
      · exact absurd before (not_lt.mpr (ge_of_eq same))
      · exact inside
  have unique : earlier.toFinset.sort (· ≥ ·) = earlier :=
    (List.toFinset_sort _ (List.Pairwise.sortedGT sorted').nodup).mpr
      (sorted'.imp fun lt => le_of_lt lt)
  rw [split, ← members, unique]

theorem compress_of_lt (nonneg : 0 ≤ gap) (hx : x < n) (lt : T s x < T s y) :
    min gap (T s y - T s x) ≤ T.compress n gap s y - T.compress n gap s x ∧
      T.compress n gap s y - T.compress n gap s x ≤ T s y - T s x := by
  obtain ⟨later, split⟩ := sort_timesBefore hx lt
  have sorted := sorted_timesBefore T n s y
  rw [split] at sorted
  rw [compress, compress, split]
  exact squeeze_append nonneg sorted

theorem compress_of_eq (same : T s x = T s y) :
    T.compress n gap s x = T.compress n gap s y := by
  rw [compress, compress, timesBefore, timesBefore, same]

theorem compress_nonneg (nonneg : 0 ≤ gap) : 0 ≤ T.compress n gap s x :=
  squeeze_nonneg nonneg (sorted_timesBefore T n s x)

theorem compress_le (nonneg : 0 ≤ gap) : T.compress n gap s x ≤ gap * n := by
  have few : (T.timesBefore n s x).card ≤ n := by
    refine le_trans (Finset.card_filter_le _ _) (le_trans Finset.card_image_le ?_)
    rw [Finset.card_range]
  have bound := squeeze_le gap (T s x) ((T.timesBefore n s x).sort (· ≥ ·))
  rw [Finset.length_sort] at bound
  refine le_trans bound (mul_le_mul_of_nonneg_left ?_ nonneg)
  exact_mod_cast few

theorem compress_of_first (first : ∀ y < n, T s x ≤ T s y) : T.compress n gap s x = 0 := by
  have none : T.timesBefore n s x = ∅ := by
    rw [Finset.eq_empty_iff_forall_notMem]
    intro t mem
    obtain ⟨⟨y, hy, rfl⟩, before⟩ := mem_timesBefore.mp mem
    exact absurd before (not_lt.mpr (first y hy))
  rw [compress, none, Finset.sort_empty, squeeze]

theorem timesBefore_of_shared (nonant : T.Nonanticipating observed n)
    (inside : ∀ m p, observed m = some p → m < n) (hx : x < n)
    (shared : T.Shared observed s s' (T s x)) : T.timesBefore n s' x = T.timesBefore n s x := by
  have same : T s' x = T s x := shared.time_eq nonant hx le_rfl
  ext t
  rw [mem_timesBefore, mem_timesBefore, same]
  constructor
  · rintro ⟨⟨y, hy, rfl⟩, before⟩
    have same' := shared.time_eq_of_le nonant inside hy (le_of_lt before)
    exact ⟨⟨y, hy, same'.symm⟩, before⟩
  · rintro ⟨⟨y, hy, rfl⟩, before⟩
    exact ⟨⟨y, hy, shared.time_eq nonant hy (le_of_lt before)⟩, before⟩

theorem compress_nonanticipating (nonant : T.Nonanticipating observed n)
    (inside : ∀ m p, observed m = some p → m < n) (nonneg : 0 ≤ gap) :
    (T.compress n gap).Nonanticipating observed n := by
  intro s s' x hx shared
  rcases nonneg.eq_or_lt with zero | positive
  · -- Without a gap every node is at time zero.
    have still : ∀ s, T.compress n gap s x = 0 := by
      intro s
      have upper : T.compress n gap s x ≤ gap * n := compress_le nonneg
      rw [← zero, zero_mul] at upper
      rw [← zero] at *
      exact le_antisymm upper (compress_nonneg le_rfl)
    rw [still, still]
  · have shared' : T.Shared observed s s' (T s x) := by
      intro m p observes early
      refine shared m p observes ?_
      have apart := (compress_of_lt nonneg (inside m p observes) early).1
      have wide : 0 < min gap (T s x - T s m) := lt_min positive (by linarith)
      linarith
    rw [compress, compress, timesBefore_of_shared nonant inside hx shared',
      shared'.time_eq nonant hx le_rfl]

end Timing

end TemporalNetwork
