import TemporalNetwork.Proofs.Conditional.Extension
import TemporalNetwork.Proofs.Conditional.Scale

/-!
Time windows. The window of a node in a scenario is given by the least values between the node and Z
that hold there, so it can only shrink when more is known. That it is not empty follows from the closure
of the loop at Z in a complete scenario, in which the window is smallest.
-/

namespace TemporalNetwork

namespace Value

variable {v w : Value}

/-- The time whose negation is a bound towards Z. -/
def earliest (v : Value) : Value := (neg? v).getD posInf

theorem earliest_of_ne (finite : v ≠ negInf) : v.earliest = -v := by
  rw [earliest, neg?, if_neg finite, Option.getD_some]

theorem earliest_negInf : negInf.earliest = posInf := rfl

theorem earliest_nonneg (early : v ≤ 0) : 0 ≤ v.earliest := by
  by_cases lowest : v = negInf
  · rw [lowest]
    decide
  · rw [earliest_of_ne lowest]
    exact Int.neg_nonneg_of_nonpos early

theorem earliest_anti (lower : negInf ≤ v) (le : v ≤ w) : w.earliest ≤ v.earliest := by
  unfold negInf at lower
  by_cases lowest : v = negInf
  · by_cases lowest' : w = negInf
    · rw [lowest, lowest']
    · rw [lowest, earliest_negInf, earliest_of_ne lowest']
      have apart : w ≠ -2147483648 := lowest'
      have : -w ≤ (2147483647 : Int) := by lia
      exact this
  · have lowest' : w ≠ negInf := fun same => lowest (le_antisymm (same ▸ le) lower)
    rw [earliest_of_ne lowest, earliest_of_ne lowest']
    exact neg_le_neg le

end Value

namespace Network

variable {g : LabeledNetwork} {s t : Label} {u v n z : NodeId} {d e x horizon : Value}
  {withNodeLabels : Bool}

theorem HoldsIn.refine (holds : g.HoldsIn s u v x) (refines : t.subsumes s = true) :
    g.HoldsIn t u v x := by
  obtain ⟨e, l, joined, mem, sub⟩ := holds
  exact ⟨e, l, joined, mem, Label.subsumes_trans refines sub⟩

/-- The least values between a node and Z, which are bounded by the horizon. -/
structure Window (g : LabeledNetwork) (s : Label) (z n : NodeId) (horizon d e : Value) : Prop where
  toZ : g.IsLeast s n z d
  fromZ : g.IsLeast s z n e
  early : d ≤ 0
  lowest : Value.negInf ≤ d
  late : e ≤ horizon

theorem Scaled.exists_window (scaled : g.Scaled withNodeLabels z horizon)
    (occurs : g.Occurs withNodeLabels s n) (apart : n ≠ z) : ∃ d e, g.Window s z n horizon d e := by
  obtain ⟨toZ, fromZ⟩ := scaled.bounds n occurs.1 apart
  obtain ⟨x, early, holds⟩ := toZ.holdsIn occurs.2
  obtain ⟨y, late, holds'⟩ := fromZ.holdsIn occurs.2
  obtain ⟨d, least⟩ := holds.exists_isLeast
  obtain ⟨e, least'⟩ := holds'.exists_isLeast
  obtain ⟨edge, l, joined, mem, _⟩ := least.holdsIn
  have onScale := scaled.values n z edge joined .empty l d
    (LabeledEdge.mem_allValues.mpr (Or.inl ⟨rfl, mem⟩))
  exact ⟨d, e, least, least', (least.le holds).trans early, (onScale.inRange scaled.finite).1,
    (least'.le holds').trans late⟩

/-- In a complete scenario of a closed network, the loop from Z to the node and back is not negative. -/
theorem Window.proper {ctx : RuleContext} (window : g.Window s ctx.z n horizon d e)
    (closed : Closed ctx g) (finite : horizon < Value.posInf) (complete : s.IsComplete)
    (apart : n ≠ ctx.z) : d.earliest ≤ e := by
  obtain ⟨t, sum, loop, _⟩ := closed.path complete window.fromZ.holdsIn window.toZ.holdsIn
    (Ne.symm apart) apart
  have nonneg := Closed.nonneg_of_clamp (loop rfl)
  rcases Value.sum?_cases sum with ⟨infinite | infinite, _⟩ | ⟨_, _, _, low⟩ |
      ⟨rfl, _, _, _, _, bounded⟩
  · exact absurd infinite (ne_of_lt (lt_of_le_of_lt window.late finite))
  · exact absurd infinite (ne_of_lt (lt_of_le_of_lt window.early (by decide)))
  · rw [low] at nonneg
    exact absurd nonneg (by decide)
  · rw [Value.earliest_of_ne bounded]
    linarith

end Network

namespace CstnChecker

variable {c : CstnChecker} {s : Label} {z n : NodeId} {horizon d e : Value}

theorem timeWindow?_of_window (hz : c.z = some z) (window : c.network.Window s z n horizon d e) :
    c.timeWindow? n s = some (d.earliest, e) := by
  obtain ⟨edge, joined, min⟩ := window.toZ
  obtain ⟨edge', joined', min'⟩ := window.fromZ
  simp [timeWindow?, hz, joined, joined', min, min', Value.earliest]

/-- Whether the window of a node lies within `[0, horizon]` and contains the windows in all scenarios in
which more is known. -/
def Shrinks (c : CstnChecker) (n : NodeId) (s : Label) : Prop :=
  ∃ horizon e l, c.horizonValue? = some horizon ∧ c.timeWindow? n s = some (e, l) ∧ 0 ≤ e ∧
    l ≤ horizon ∧ ∀ s', s'.hasUnknown = false → s'.subsumes s = true →
      ∃ e' l', c.timeWindow? n s' = some (e', l') ∧ e ≤ e' ∧ l' ≤ l

/-- Whether the earliest time of the window is not after the latest. -/
def ProperWindow (c : CstnChecker) (n : NodeId) (s : Label) : Prop :=
  ∃ e l, c.timeWindow? n s = some (e, l) ∧ e ≤ l

end CstnChecker

/-- The time windows of a consistent network are bounded by the horizon and shrink when more is known;
with labelled propagation none of them is empty. -/
theorem time_windows_shrink (g : LabeledNetwork) (wf : g.WellFormed)
    (inRange : ∀ w ∈ g.allValues, w.InRange) (options : CheckerOptions) (rules : RuleSet)
    (stops : Polls) (c : CstnChecker) (status : CheckStatus)
    (checked : (CstnChecker.ofNetwork g options rules).check stops = (c, .ok status))
    (consistent : status.outcome = .consistent) (n : NodeId) (apart : c.z ≠ some n) (s : Label)
    (known : s.hasUnknown = false) (occurs : c.network.Occurs options.withNodeLabels s n) :
    c.Shrinks n s ∧ (Rule.labelPropagation ∈ rules → c.ProperWindow n s) := by
  obtain ⟨z, horizon, hz, hh, scaled⟩ :=
    CstnChecker.scaled_of_consistent wf inRange checked consistent
  have apart' : n ≠ z := fun same => apart (same ▸ hz)
  have refined : ∀ t : Label, t.subsumes s = true → c.network.Occurs options.withNodeLabels t n :=
    fun t refines => ⟨occurs.1, Label.subsumes_trans refines occurs.2⟩
  obtain ⟨d, e, window⟩ := scaled.exists_window occurs apart'
  have narrower : ∀ t : Label, t.subsumes s = true → ∃ d' e',
      c.network.Window t z n horizon.value d' e' ∧ d.earliest ≤ d'.earliest ∧ e' ≤ e := by
    intro t refines
    obtain ⟨d', e', window'⟩ := scaled.exists_window (refined t refines) apart'
    exact ⟨d', e', window', Value.earliest_anti window'.lowest
      (window'.toZ.le (window.toZ.holdsIn.refine refines)),
      window'.fromZ.le (window.fromZ.holdsIn.refine refines)⟩
  have here := CstnChecker.timeWindow?_of_window hz window
  constructor
  · refine ⟨horizon.value, d.earliest, e, by rw [CstnChecker.horizonValue?, hh]; rfl, here,
      Value.earliest_nonneg window.early, window.late, fun t _ refines => ?_⟩
    obtain ⟨d', e', window', later, sooner⟩ := narrower t refines
    exact ⟨_, _, CstnChecker.timeWindow?_of_window hz window', later, sooner⟩
  · -- Some complete scenario extends `s`, and its window is not empty.
    intro enabled
    obtain ⟨ctx, hz', closed, _⟩ := CstnChecker.closed_of_consistent wf enabled checked consistent
    obtain rfl := Option.some.inj (hz.symm.trans hz')
    obtain ⟨d', e', window', later, sooner⟩ := narrower s.completed s.subsumes_completed
    exact ⟨_, _, here, later.trans ((window'.proper closed scaled.finite
      (Label.isComplete_completed known) apart').trans sooner)⟩

/-- The node X of the observed network, when nothing has been observed yet. -/
theorem time_windows_shrink_observed :
    ∃ c status, (CstnChecker.ofNetwork observedNetwork untimed .full).check .never =
      (c, .ok status) ∧ status.outcome = .consistent ∧ c.z ≠ some 2 ∧
      c.network.Occurs false .empty 2 ∧ c.Shrinks 2 .empty ∧ c.ProperWindow 2 .empty := by
  have answered : ((CstnChecker.ofNetwork observedNetwork untimed .full).check
      .never).2.toOption.map CheckStatus.outcome = some .consistent := by decide +kernel
  have apart : ((CstnChecker.ofNetwork observedNetwork untimed .full).check .never).1.z ≠
      some 2 := by decide +kernel
  have occurs : ((CstnChecker.ofNetwork observedNetwork untimed .full).check
      .never).1.network.Occurs false .empty 2 := by
    unfold Network.Occurs
    decide +kernel
  cases checked : (CstnChecker.ofNetwork observedNetwork untimed .full).check .never with
  | mk c answer =>
    rw [checked] at answered apart occurs
    cases answer with
    | error e => cases answered
    | ok status =>
      have consistent : status.outcome = .consistent := Option.some.inj answered
      obtain ⟨shrinks, proper⟩ := time_windows_shrink observedNetwork
        (Network.wellFormed_getD_build _ _) (by decide +kernel) untimed .full .never c status checked
        consistent 2 apart .empty (by decide) occurs
      exact ⟨c, status, rfl, consistent, apart, occurs, shrinks, proper (by decide)⟩

/-- Without labelled propagation, the window of a node can be empty in a consistent network. -/
theorem not_proper_window_without_propagation :
    ¬ ∀ g : LabeledNetwork, g.WellFormed → (∀ w ∈ g.allValues, w.InRange) →
      ∀ (options : CheckerOptions) (rules : RuleSet) (stops : Polls) (c : CstnChecker)
        (status : CheckStatus),
      (CstnChecker.ofNetwork g options rules).check stops = (c, .ok status) →
      status.outcome = .consistent → ∀ n, c.z ≠ some n → ∀ s : Label, s.hasUnknown = false →
      c.network.Occurs options.withNodeLabels s n → c.Shrinks n s ∧ c.ProperWindow n s := by
  intro claim
  have answered : ((CstnChecker.ofNetwork contradictoryNetwork untimed []).check
      .never).2.toOption.map CheckStatus.outcome = some .consistent := by decide +kernel
  have apart : ((CstnChecker.ofNetwork contradictoryNetwork untimed []).check .never).1.z ≠
      some 1 := by decide +kernel
  have occurs : ((CstnChecker.ofNetwork contradictoryNetwork untimed []).check
      .never).1.network.Occurs false .empty 1 := by
    unfold Network.Occurs
    decide +kernel
  have window : ((CstnChecker.ofNetwork contradictoryNetwork untimed []).check
      .never).1.timeWindow? 1 .empty = some (6, 5) := by decide +kernel
  cases checked : (CstnChecker.ofNetwork contradictoryNetwork untimed []).check .never with
  | mk c answer =>
    rw [checked] at answered apart occurs window
    cases answer with
    | error e => cases answered
    | ok status =>
      have consistent : status.outcome = .consistent := Option.some.inj answered
      obtain ⟨_, e, l, here, le⟩ := claim contradictoryNetwork (Network.wellFormed_getD_build _ _)
        (by decide +kernel) untimed [] .never c status checked consistent 1 apart .empty (by decide)
        occurs
      rw [window] at here
      cases here
      exact absurd le (by decide)

end TemporalNetwork
