import Mathlib.Algebra.Order.Ring.Rat
import Mathlib.Data.Finset.Max
import TemporalNetwork.Network.Basic
import TemporalNetwork.Proofs.Strategy.Scenario

/-!
What a strategy can know. Two scenarios share their history up to a time if they agree on every
proposition observed before it; a strategy gives the nodes up to that time the same times in both.
-/

namespace TemporalNetwork

/-- The time of each node in each scenario. -/
abbrev Timing := Scenario → NodeId → ℚ

namespace Timing

/-- Whether the scenarios agree on what is observed before `t` in the first one. -/
def Shared (T : Timing) (observed : NodeId → Option Proposition) (s s' : Scenario) (t : ℚ) : Prop :=
  ∀ m p, observed m = some p → T s m < t → s p = s' p

/-- Whether the time of each of `n` nodes depends on what is observed before it only. -/
def Nonanticipating (T : Timing) (observed : NodeId → Option Proposition) (n : Nat) : Prop :=
  ∀ s s' x, x < n → T.Shared observed s s' (T s x) → T s' x = T s x

variable {T : Timing} {observed : NodeId → Option Proposition} {n : Nat} {s s' : Scenario}
  {t r : ℚ} {x : NodeId}

theorem Shared.mono (shared : T.Shared observed s s' t) (le : r ≤ t) : T.Shared observed s s' r :=
  fun m p observes early => shared m p observes (lt_of_lt_of_le early le)

theorem Shared.time_eq (shared : T.Shared observed s s' t) (nonant : T.Nonanticipating observed n)
    (hx : x < n) (early : T s x ≤ t) : T s' x = T s x :=
  nonant s s' x hx (shared.mono early)

/-- Sharing a history is symmetric: the first observation on which the scenarios differ is made at
the same time in both. -/
theorem Shared.symm (shared : T.Shared observed s s' t) (nonant : T.Nonanticipating observed n)
    (inside : ∀ m p, observed m = some p → m < n) : T.Shared observed s' s t := by
  by_contra differs
  obtain ⟨m, p, observes, early, differ⟩ :
      ∃ m p, observed m = some p ∧ T s' m < t ∧ s' p ≠ s p := by
    unfold Shared at differs
    push Not at differs
    exact differs
  let telling := (Finset.range n).filter fun m =>
    T s' m < t ∧ ∃ p, observed m = some p ∧ s' p ≠ s p
  have some : telling.Nonempty :=
    ⟨m, Finset.mem_filter.mpr ⟨Finset.mem_range.mpr (inside m p observes), early, p, observes,
      differ⟩⟩
  obtain ⟨first, mem, least⟩ := Finset.exists_min_image telling (T s') some
  obtain ⟨hn, early, q, observes, differ⟩ := Finset.mem_filter.mp mem
  have before : T.Shared observed s' s (T s' first) := by
    intro k r observes' earlier
    by_contra differ'
    have mem' : k ∈ telling := Finset.mem_filter.mpr
      ⟨Finset.mem_range.mpr (inside k r observes'), lt_trans earlier early, r, observes', differ'⟩
    exact absurd (least k mem') (not_le.mpr earlier)
  have same := nonant s' s first (Finset.mem_range.mp hn) before
  exact differ (shared first q observes (same ▸ early)).symm

theorem Shared.time_eq_of_le (shared : T.Shared observed s s' t)
    (nonant : T.Nonanticipating observed n) (inside : ∀ m p, observed m = some p → m < n)
    (hx : x < n) (early : T s' x ≤ t) : T s' x = T s x :=
  ((shared.symm nonant inside).time_eq nonant hx early).symm

/-- A scenario shares its history with its adaption to a label, if what changes is not observed
before. -/
theorem shared_adapt {a : Label}
    (late : ∀ m p, observed m = some p → T s m < t → ∀ b, a.demand? p = some b → s p = b) :
    T.Shared observed s (s.adapt a) t := by
  intro m p observes early
  by_contra changed
  obtain ⟨b, asked, differ⟩ := Label.demand?_of_adapt_ne (Ne.symm changed)
  exact differ (late m p observes early b asked)

end Timing

end TemporalNetwork
