import TemporalNetwork.Proofs.Conditional.Preparation

/-!
What a verdict of the consistency check says about the propagation it comes from: consistent means a
fixpoint, and inconsistent a negative loop.
-/

namespace TemporalNetwork

/-- The outcome of a check whose propagation ends for this reason. -/
def Halt.outcome : Halt → Outcome
  | negativeLoop _ => .inconsistent
  | sumOverflow _ _ => .notFinished
  | timeout => .timeout
  | cycleBoundExceeded => .cycleBoundExceeded

namespace CheckStatus

variable {s : CheckStatus} {g : LabeledNetwork} {ctx : RuleContext} {stops : Polls}
  {cycleBound : Nat} {p : Progress}

theorem propagate_of_ok
    (run : (Propagation.toFixpoint ctx stops cycleBound).run ⟨g, s.applied, s.cycles, 0⟩ =
      .ok () p) :
    s.propagate g ctx stops cycleBound =
      (p.network, { s with cycles := p.cycles, applied := p.applied }, p.polls, none) := by
  rw [propagate, run]

theorem propagate_of_error {halt : Halt}
    (run : (Propagation.toFixpoint ctx stops cycleBound).run ⟨g, s.applied, s.cycles, 0⟩ =
      .error halt p) :
    s.propagate g ctx stops cycleBound =
      (p.network, { s with cycles := p.cycles, applied := p.applied }, p.polls, some halt) := by
  rw [propagate, run]

theorem outcome_setConsistent (timely : s.timeout = false) (bounded : s.cycleBoundExceeded = false) :
    s.setConsistent.outcome = .consistent := by
  simp [setConsistent, outcome, timely, bounded]

theorem outcome_of_recordHalt {halt : Halt} {t : CheckStatus}
    (recorded : s.recordHalt halt = .ok t) (timely : s.timeout = false)
    (bounded : s.cycleBoundExceeded = false) : t.outcome = halt.outcome := by
  cases halt with
  | negativeLoop loop =>
    cases recorded
    simp [setInconsistent, outcome, Halt.outcome, timely, bounded]
  | sumOverflow lhs rhs => cases recorded
  | timeout =>
    cases recorded
    simp [setTimeout, outcome, Halt.outcome]
  | cycleBoundExceeded =>
    cases recorded
    simp [setCycleBoundExceeded, outcome, Halt.outcome, timely]

theorem outcome_recordHalt {halt : Halt} {t : CheckStatus} (recorded : s.recordHalt halt = .ok t)
    (timely : s.timeout = false) (bounded : s.cycleBoundExceeded = false) :
    t.outcome ≠ .consistent ∧
      (t.outcome = .inconsistent → ∃ loop, halt = .negativeLoop loop) := by
  rw [outcome_of_recordHalt recorded timely bounded]
  cases halt <;> simp [Halt.outcome]

end CheckStatus

namespace CstnChecker

/-- The propagation of an initialised checker. -/
def propagation (c : CstnChecker) (z : NodeId) (horizon : Horizon) (stops : Polls) :
    EStateM.Result Halt Progress Unit :=
  (Propagation.toFixpoint (c.context z horizon) stops (c.network.cycleBound horizon.maxWeight)).run
    ⟨c.network, .zero, 0, 0⟩

variable {g : LabeledNetwork} {options : CheckerOptions} {rules : RuleSet} {stops : Polls}
  {c : CstnChecker} {status : CheckStatus}

/-- A check that answers has initialised the checker; its outcome tells how the propagation has
ended. -/
theorem ending_of_check
    (checked : (ofNetwork g options rules).check stops = (c, .ok status)) :
    ∃ c₀ z horizon, (ofNetwork g options rules).initialise = (c₀, .ok ()) ∧ c₀.z = some z ∧
      c₀.horizon = some horizon ∧ c.z = some z ∧ c.options = options ∧
      ((∃ p, c₀.propagation z horizon stops = .ok () p ∧ c.network = p.network ∧
          status.outcome = .consistent) ∨
        ∃ halt p, c₀.propagation z horizon stops = .error halt p ∧
          status.outcome = halt.outcome ∧ ∀ u v, halt ≠ .sumOverflow u v) := by
  unfold check checkCounting at checked
  rw [if_neg (by simp [ofNetwork, Stage.isFinished])] at checked
  cases ready : (ofNetwork g options rules).initialise with
  | mk c₀ answer =>
    rw [ready] at checked
    cases answer with
    | error e => cases congrArg Prod.snd checked
    | ok _ =>
      obtain ⟨z, horizon, d, _, same⟩ := prepare_of_initialise ready
      have timely : c₀.status.timeout = false := by rw [same]; rfl
      have bounded : c₀.status.cycleBoundExceeded = false := by rw [same]; rfl
      have fresh : (⟨c₀.network, .zero, 0, 0⟩ : Progress) =
          ⟨c₀.network, c₀.status.applied, c₀.status.cycles, 0⟩ := by rw [same]; rfl
      have stage : c₀.stage = .initialised := by rw [same]
      have hz : c₀.z = some z := by rw [same]
      have hh : c₀.horizon = some horizon := by rw [same]
      have options' : c₀.options = options := by rw [same]
      refine ⟨c₀, z, horizon, rfl, hz, hh, ?_⟩
      rw [propagation, fresh]
      -- The check is the propagation of the initialised checker, and the record of how that ends.
      simp only [stage, hz, hh] at checked
      cases run : (Propagation.toFixpoint (c₀.context z horizon) stops
          (c₀.network.cycleBound horizon.maxWeight)).run
            ⟨c₀.network, c₀.status.applied, c₀.status.cycles, 0⟩ with
      | ok a p =>
        rw [CheckStatus.propagate_of_ok run] at checked
        dsimp only at checked
        cases checked
        exact ⟨rfl, options', Or.inl ⟨p, rfl, rfl, CheckStatus.outcome_setConsistent
          (s := { c₀.status with cycles := p.cycles, applied := p.applied }) timely bounded⟩⟩
      | error halt p =>
        rw [CheckStatus.propagate_of_error run] at checked
        dsimp only at checked
        cases recorded : ({ c₀.status with cycles := p.cycles, applied := p.applied } :
          CheckStatus).recordHalt halt with
        | error e =>
          rw [recorded] at checked
          cases checked
        | ok t =>
          rw [recorded] at checked
          cases checked
          have outcome := CheckStatus.outcome_of_recordHalt recorded timely bounded
          refine ⟨rfl, options', Or.inr ⟨halt, p, rfl, outcome, ?_⟩⟩
          rintro u v rfl
          cases recorded

/-- A consistent verdict comes from a fixpoint, an inconsistent one from a negative loop. -/
theorem propagation_of_check
    (checked : (ofNetwork g options rules).check stops = (c, .ok status)) :
    ∃ c₀ z horizon, (ofNetwork g options rules).initialise = (c₀, .ok ()) ∧ c₀.z = some z ∧
      c₀.horizon = some horizon ∧ c.z = some z ∧ c.options = options ∧
      (status.outcome = .consistent →
        ∃ p, c₀.propagation z horizon stops = .ok () p ∧ c.network = p.network) ∧
      (status.outcome = .inconsistent →
        ∃ loop p, c₀.propagation z horizon stops = .error (.negativeLoop loop) p) := by
  obtain ⟨c₀, z, horizon, ready, hz, hh, hz', options', ending⟩ := ending_of_check checked
  refine ⟨c₀, z, horizon, ready, hz, hh, hz', options', ?_⟩
  rcases ending with ⟨p, run, same, consistent⟩ | ⟨halt, p, run, outcome, _⟩
  · rw [consistent]
    exact ⟨fun _ => ⟨p, run, same⟩, nofun⟩
  · rw [outcome, run]
    cases halt with
    | negativeLoop loop => exact ⟨nofun, fun _ => ⟨loop, p, rfl⟩⟩
    | sumOverflow => exact ⟨nofun, nofun⟩
    | timeout => exact ⟨nofun, nofun⟩
    | cycleBoundExceeded => exact ⟨nofun, nofun⟩

end CstnChecker

end TemporalNetwork
