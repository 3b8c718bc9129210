import Mathlib.Algebra.Order.Field.Basic
import Mathlib.Algebra.Order.Ring.Cast
import Mathlib.Data.Finset.Max
import Mathlib.Tactic.Linarith
import TemporalNetwork.Stnu.Link

/-!
Schedules that depend on how long the links take, but do not tell so in advance: the time of a node may
depend on the contingent nodes that have occurred by then. Two choices of durations that differ for
one link are scheduled alike until the link ends in one of them.
-/

namespace TemporalNetwork

section durations

variable {T : Type*} [Field T] [LinearOrder T]

/-- Durations that the links, numbered by their place, may take. -/
def Admissible (links : List StnuLink) (ω : Nat → T) : Prop :=
  ∀ (i : Nat) (link : StnuLink), links[i]? = some link → (link.lower : T) ≤ ω i ∧ ω i ≤ link.upper

/-- Durations none of which is zero: a link that takes no time could tell its own activation node how
long it will take. -/
structure Proper (links : List StnuLink) (ω : Nat → T) : Prop where
  admissible : Admissible links ω
  positive : ∀ (i : Nat) (link : StnuLink), links[i]? = some link → 0 < ω i

theorem Proper.update {links : List StnuLink} {ω : Nat → T} (proper : Proper links ω) {i : Nat}
    {link : StnuLink} (listed : links[i]? = some link) {z : T}
    (bounds : (link.lower : T) ≤ z ∧ z ≤ link.upper) (positive : 0 < z) :
    Proper links (Function.update ω i z) := by
  constructor
  · intro k other listed'
    by_cases same : k = i
    · subst same
      rw [listed] at listed'
      cases listed'
      rwa [Function.update_self]
    · rw [Function.update_of_ne same]
      exact proper.admissible k other listed'
  · intro k other listed'
    by_cases same : k = i
    · subst same
      rwa [Function.update_self]
    · rw [Function.update_of_ne same]
      exact proper.positive k other listed'

/-- The longest durations of the links. -/
def longestDurations (T : Type*) [Field T] (links : List StnuLink) : Nat → T :=
  fun i => ((links[i]?).map fun link => (link.upper : T)).getD 0

theorem longestDurations_eq (T : Type*) [Field T] {links : List StnuLink} {i : Nat} {link : StnuLink}
    (listed : links[i]? = some link) : longestDurations T links i = link.upper := by
  rw [longestDurations, listed]
  rfl

theorem proper_longestDurations [IsStrictOrderedRing T] {links : List StnuLink}
    (nonneg : ∀ link ∈ links, 0 ≤ link.lower) (range : ∀ link ∈ links, link.lower < link.upper) :
    Proper links (longestDurations T links) := by
  constructor
  · intro i link listed
    rw [longestDurations_eq T listed]
    exact ⟨by exact_mod_cast (range link (List.mem_of_getElem? listed)).le, le_rfl⟩
  · intro i link listed
    have mem := List.mem_of_getElem? listed
    rw [longestDurations_eq T listed]
    exact_mod_cast (nonneg link mem).trans_lt (range link mem)

end durations

section strategies

variable {T : Type*} [Field T] [LinearOrder T] [IsStrictOrderedRing T]

/-- Times of nodes for all durations of the links. A node that is not contingent has the same time for
durations with which the same contingent nodes have occurred by then, at the same times. -/
structure Unforeseeing (nodes : Finset NodeId) (links : List StnuLink)
    (σ : (Nat → T) → NodeId → T) : Prop where
  ends : ∀ link ∈ links, link.activation ∈ nodes ∧ link.contingent ∈ nodes
  lasts : ∀ ω, Admissible links ω → ∀ (i : Nat) (link : StnuLink), links[i]? = some link →
    σ ω link.contingent = σ ω link.activation + ω i
  dynamic : ∀ ω ω', Admissible links ω → Admissible links ω' → ∀ n ∈ nodes,
    (∀ link ∈ links, n ≠ link.contingent) →
    (∀ link ∈ links, σ ω link.contingent ≤ σ ω n ∨ σ ω' link.contingent ≤ σ ω n →
      σ ω' link.contingent = σ ω link.contingent) →
    σ ω' n = σ ω n

namespace Unforeseeing

variable {nodes : Finset NodeId} {links : List StnuLink} {σ : (Nat → T) → NodeId → T}
  {ω ω' : Nat → T} {n : NodeId} {i : Nat} {link : StnuLink}

omit [IsStrictOrderedRing T] in
/-- What makes a difference for a node that is not contingent is a contingent node that has
occurred. -/
theorem dynamic_of_ne (strategy : Unforeseeing nodes links σ) (proper : Proper links ω)
    (proper' : Proper links ω') (mem : n ∈ nodes) (differs : σ ω' n ≠ σ ω n)
    (other : ∀ link ∈ links, n ≠ link.contingent) :
    ∃ link ∈ links, σ ω' link.contingent ≠ σ ω link.contingent ∧
      min (σ ω link.contingent) (σ ω' link.contingent) ≤ min (σ ω n) (σ ω' n) := by
  by_contra none
  push Not at none
  rcases le_total (σ ω n) (σ ω' n) with earlier | earlier
  · rw [min_eq_left earlier] at none
    refine differs (strategy.dynamic ω ω' proper.admissible proper'.admissible n mem other
      fun link mem occurs => ?_)
    by_contra differs'
    have later := none link mem differs'
    rcases occurs with before | before
    · exact absurd ((min_le_left _ _).trans before) (not_le.mpr later)
    · exact absurd ((min_le_right _ _).trans before) (not_le.mpr later)
  · rw [min_eq_right earlier] at none
    refine differs (strategy.dynamic ω' ω proper'.admissible proper.admissible n mem other
      fun link mem occurs => ?_).symm
    by_contra differs'
    have later := none link mem (Ne.symm differs')
    rcases occurs with before | before
    · exact absurd ((min_le_right _ _).trans before) (not_le.mpr later)
    · exact absurd ((min_le_left _ _).trans before) (not_le.mpr later)

/-- What first makes a difference between two choices of durations is the end of a link that takes
different durations from one and the same start. -/
theorem first_to_differ (strategy : Unforeseeing nodes links σ) (proper : Proper links ω)
    (proper' : Proper links ω') (mem : n ∈ nodes) (differs : σ ω' n ≠ σ ω n) :
    ∃ (i : Nat) (link : StnuLink), links[i]? = some link ∧ ω' i ≠ ω i ∧
      σ ω' link.activation = σ ω link.activation ∧
      σ ω link.activation + min (ω i) (ω' i) ≤ min (σ ω n) (σ ω' n) ∧
      ∀ m ∈ nodes, min (σ ω m) (σ ω' m) < σ ω link.activation + min (ω i) (ω' i) →
        σ ω' m = σ ω m := by
  classical
  let telling := nodes.filter fun m => σ ω' m ≠ σ ω m
  have mem_telling : ∀ m ∈ nodes, σ ω' m ≠ σ ω m → m ∈ telling :=
    fun m inside differs => Finset.mem_filter.mpr ⟨inside, differs⟩
  obtain ⟨x, first, least⟩ := Finset.exists_min_image telling (fun m => min (σ ω m) (σ ω' m))
    ⟨n, mem_telling n mem differs⟩
  obtain ⟨hx, differs'⟩ := Finset.mem_filter.mp first
  -- Some contingent node is among the first that differ.
  obtain ⟨link, mem', differs'', le⟩ : ∃ link ∈ links,
      σ ω' link.contingent ≠ σ ω link.contingent ∧
        min (σ ω link.contingent) (σ ω' link.contingent) ≤ min (σ ω x) (σ ω' x) := by
    by_cases contingent : ∃ link ∈ links, x = link.contingent
    · obtain ⟨link, mem', rfl⟩ := contingent
      exact ⟨link, mem', differs', le_rfl⟩
    · push Not at contingent
      exact strategy.dynamic_of_ne proper proper' hx differs' contingent
  obtain ⟨i, listed⟩ := List.getElem?_of_mem mem'
  have lasts := strategy.lasts ω proper.admissible i link listed
  have lasts' := strategy.lasts ω' proper'.admissible i link listed
  have positive := proper.positive i link listed
  have positive' := proper'.positive i link listed
  have activation : σ ω' link.activation = σ ω link.activation := by
    by_contra differs'
    have first := (least _ (mem_telling _ (strategy.ends link mem').1 differs')).trans' le
    rw [lasts, lasts'] at first
    refine absurd first (not_le.mpr (lt_min ?_ ?_))
    · exact (min_le_left _ _).trans_lt (lt_add_of_pos_right _ positive)
    · exact (min_le_right _ _).trans_lt (lt_add_of_pos_right _ positive')
  rw [lasts, lasts', activation] at differs''
  rw [lasts, lasts', activation, min_add_add_left] at le
  refine ⟨i, link, listed, fun same => differs'' (by rw [same]), activation,
    le.trans (least n (mem_telling n mem differs)), fun m inside before => ?_⟩
  by_contra differs'
  exact absurd (le.trans (least m (mem_telling m inside differs'))) (not_le.mpr before)

theorem first_difference (strategy : Unforeseeing nodes links σ) (proper : Proper links ω)
    (proper' : Proper links ω') (listed : links[i]? = some link) (same : ∀ k, k ≠ i → ω' k = ω k)
    (mem : n ∈ nodes) (differs : σ ω' n ≠ σ ω n) :
    σ ω' link.activation = σ ω link.activation ∧
      σ ω link.activation + min (ω i) (ω' i) ≤ min (σ ω n) (σ ω' n) := by
  obtain ⟨k, other, listed', unequal, activation, before, _⟩ :=
    strategy.first_to_differ proper proper' mem differs
  obtain rfl : k = i := by
    by_contra apart
    exact unequal (same k apart)
  rw [listed] at listed'
  cases listed'
  exact ⟨activation, before⟩

theorem activation_eq (strategy : Unforeseeing nodes links σ) (proper : Proper links ω)
    (proper' : Proper links ω') (listed : links[i]? = some link)
    (same : ∀ k, k ≠ i → ω' k = ω k) : σ ω' link.activation = σ ω link.activation := by
  by_contra differs
  have mem := (strategy.ends link (List.mem_of_getElem? listed)).1
  exact differs (strategy.first_difference proper proper' listed same mem differs).1

theorem time_eq (strategy : Unforeseeing nodes links σ) (proper : Proper links ω)
    (proper' : Proper links ω') (listed : links[i]? = some link) (same : ∀ k, k ≠ i → ω' k = ω k)
    (mem : n ∈ nodes) (before : σ ω n < σ ω link.activation + min (ω i) (ω' i)) :
    σ ω' n = σ ω n := by
  by_contra differs
  have later := (strategy.first_difference proper proper' listed same mem differs).2
  exact absurd (later.trans (min_le_left _ _)) (not_le.mpr before)

/-- If a node is before the end of a link by some distance, however long the link takes, it is so for
the shortest duration of the link: it cannot wait for the link to end. -/
theorem le_of_before (strategy : Unforeseeing nodes links σ) (listed : links[i]? = some link)
    (nonneg : 0 ≤ link.lower) (mem : n ∈ nodes) {d : T} (negative : d < 0)
    (proper : Proper links ω)
    (before : ∀ z, Proper links (Function.update ω i z) →
      σ (Function.update ω i z) n ≤ σ (Function.update ω i z) link.contingent + d) :
    σ ω n ≤ σ ω link.activation + (link.lower + d) := by
  have bounds := proper.admissible i link listed
  refine le_of_forall_pos_le_add fun ε positive => ?_
  -- The link is made to end soon after its shortest duration, but not later than it does.
  let z := min (link.lower + ε) (ω i)
  have above : (link.lower : T) ≤ z := le_min (by linarith) bounds.1
  have proper' : Proper links (Function.update ω i z) := by
    refine proper.update listed ⟨above, (min_le_right _ _).trans bounds.2⟩ ?_
    refine lt_min (lt_of_lt_of_le positive ?_) (proper.positive i link listed)
    exact le_add_of_nonneg_left (by exact_mod_cast nonneg)
  have same : ∀ k, k ≠ i → ω k = Function.update ω i z k := by
    intro k other
    rw [Function.update_of_ne other]
  have lasts := strategy.lasts _ proper'.admissible i link listed
  have early := before z proper'
  rw [lasts, Function.update_self] at early
  have activation := strategy.activation_eq proper' proper listed same
  have agrees : σ ω n = σ (Function.update ω i z) n := by
    refine strategy.time_eq proper' proper listed same mem ?_
    rw [Function.update_self, min_eq_left (min_le_right _ _)]
    linarith
  rw [agrees, activation]
  have : z ≤ link.lower + ε := min_le_left _ _
  linarith

/-- If a node is at or after the end of a link but for some distance when the link takes as long as it
can, the link must not start until the node is near enough for that: the node cannot wait for the
link to end. -/
theorem le_of_after (strategy : Unforeseeing nodes links σ) (listed : links[i]? = some link)
    (nonneg : 0 ≤ link.lower) (range : link.lower < link.upper) (mem : n ∈ nodes) {d : T}
    (far : (link.upper : T) - link.lower ≤ d) (proper : Proper links ω)
    (after : Proper links (Function.update ω i (link.upper : T)) →
      σ (Function.update ω i (link.upper : T)) link.contingent ≤
        σ (Function.update ω i (link.upper : T)) n + d) :
    σ ω link.activation ≤ σ ω n + (d - link.upper) := by
  have bounds := proper.admissible i link listed
  by_contra early
  rw [not_le] at early
  have proper' : Proper links (Function.update ω i (link.upper : T)) := by
    refine proper.update listed ⟨by exact_mod_cast range.le, le_rfl⟩ ?_
    exact_mod_cast lt_of_le_of_lt nonneg range
  have same : ∀ k, k ≠ i → Function.update ω i (link.upper : T) k = ω k :=
    fun k other => Function.update_of_ne other _ _
  have lasts := strategy.lasts _ proper'.admissible i link listed
  have late := after proper'
  have activation := strategy.activation_eq proper proper' listed same
  have agrees : σ (Function.update ω i (link.upper : T)) n = σ ω n := by
    refine strategy.time_eq proper proper' listed same mem ?_
    rw [Function.update_self, min_eq_left bounds.2]
    linarith
  rw [lasts, Function.update_self, activation, agrees] at late
  linarith

end Unforeseeing

end strategies

end TemporalNetwork
