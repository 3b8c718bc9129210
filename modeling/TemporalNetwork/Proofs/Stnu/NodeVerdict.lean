import TemporalNetwork.Proofs.Stnu.NodeRun
import TemporalNetwork.Proofs.Stnu.NormalForm
import TemporalNetwork.Proofs.Stnu.Verdict

/-!
What the verdict of a check tells of its run over the nodes of the normal form.
-/

namespace TemporalNetwork

theorem Prepared.carries {g h : PlainNetwork} {links : List StnuLink} (prepared : Prepared g h links)
    (raw : ∀ u v, g.case? u v = none) : Carries h links := by
  refine ⟨prepared.wellFormed, fun link mem => (prepared.link link mem).inside,
    fun link mem => (prepared.link link mem).apart, fun link mem => (prepared.link link mem).nonneg,
    fun link mem => (prepared.link link mem).range, prepared.distinct, fun u v c found => ?_,
    prepared.cases⟩
  rcases prepared.case? u v c found with before | owned
  · rw [raw] at before
    cases before
  · exact owned

namespace StnuChecker

variable {g : PlainNetwork} {options : CheckerOptions} {stops : Polls} {c : StnuChecker}
  {status : CheckStatus}

/-- The state in which a run over the nodes begins. -/
def nodeStart (h : PlainNetwork) (links : List StnuLink) (statistics : StnuStatistics) :
    StnuRun NodeStatus :=
  .start (NormalForm.ofLinks h links).1 statistics
    (Array.replicate (NormalForm.ofLinks h links).1.nodeCount .unvisited)

theorem runFrom_ends {σ : Type} {m : StnuM σ Unit} {statistics : StnuStatistics} {statuses : Array σ}
    {ok : Unit → StnuRun σ → Prop} {err : Interruption → StnuRun σ → Prop}
    (ends : Ends m (.start g statistics statuses) ok err) (links : List StnuLink) :
    match (runFrom m g statistics statuses links).interruption with
    | none => ∃ s, ok () s
    | some e => ∃ s, err e s := by
  unfold Ends at ends
  unfold runFrom
  cases run : m.run (.start g statistics statuses) with
  | ok _ s =>
    rw [run] at ends
    exact ⟨s, ends⟩
  | error e s =>
    rw [run] at ends
    exact ⟨s, ends⟩

theorem initialise_of_ok {links : List StnuLink} {d : Draft PlainEdge}
    (run : StnuLink.prepareAll.run ⟨g, []⟩ = .ok links d) :
    (ofNetwork g options).initialise = (⟨d.network, options, .initialised,
      { CheckStatus.fresh with fixes := d.fixes }, links⟩, .ok ()) := by
  have run' : StnuLink.prepareAll.run ⟨(ofNetwork g options).network,
      (ofNetwork g options).status.fixes⟩ = .ok links d := run
  unfold initialise
  rw [if_neg (by simp [ofNetwork]), run']
  rfl

theorem interruption_of_check {links : List StnuLink} {d : Draft PlainEdge}
    (run : StnuLink.prepareAll.run ⟨g, []⟩ = .ok links d)
    (checked : (ofNetwork g options).check stops = (c, .ok status)) :
    match (runAlgorithm options.algorithm d.network links .zero stops).interruption with
    | none => status.outcome = .consistent
    | some .notControllable => status.outcome = .inconsistent
    | some .timeout => status.outcome = .timeout
    | some (.range _) => False := by
  unfold check at checked
  rw [if_neg (by simp [ofNetwork, Stage.isFinished]), initialise_of_ok run] at checked
  dsimp only [CheckStatus.fresh] at checked
  rw [if_neg (by simp)] at checked
  generalize runAlgorithm options.algorithm d.network links .zero stops = r at checked
  cases interrupted : r.interruption with
  | none =>
    rw [interrupted] at checked
    cases checked
    rfl
  | some e =>
    rw [interrupted] at checked
    cases e with
    | notControllable =>
      cases checked
      rfl
    | timeout =>
      cases checked
      rfl
    | range e => cases congrArg Prod.snd checked

/-- A check that answers has prepared the network; its outcome tells how the run over the nodes of the
normal form has ended. -/
theorem ran_over_nodes (wf : g.WellFormed) (byNodes : options.algorithm = .morris2014)
    (checked : (ofNetwork g options).check stops = (c, .ok status)) :
    ∃ h, Prepared g h (ofNetwork g options).initialise.1.links ∧ ∃ statistics,
      ∀ {ok : Unit → StnuRun NodeStatus → Prop} {err : Interruption → StnuRun NodeStatus → Prop},
        Ends (NodeRun.processAll stops)
          (nodeStart h (ofNetwork g options).initialise.1.links statistics) ok err →
        (status.outcome = .consistent → ∃ s, ok () s) ∧
          (status.outcome = .inconsistent → ∃ s, err .notControllable s) := by
  cases run : StnuLink.prepareAll.run ⟨g, []⟩ with
  | error e d =>
    rw [check_of_error run] at checked
    cases congrArg Prod.snd checked
  | ok links d =>
    have prepared : Prepared g d.network links :=
      (StnuLink.prepareAll_ends (d := ⟨g, []⟩) wf).of_ok run
    have answered := interruption_of_check run checked
    rw [initialise_of_ok run]
    refine ⟨d.network, prepared, { StnuStatistics.zero with
      normalFormNodes := StnuStatistics.zero.normalFormNodes +
        (NormalForm.ofLinks d.network links).2.2 }, fun ends => ?_⟩
    have told := runFrom_ends ends (NormalForm.ofLinks d.network links).2.1
    rw [byNodes] at answered
    change match (runFrom (NodeRun.processAll stops) _ _ _ _).interruption with
      | none => _ | some .notControllable => _ | some .timeout => _ | some (.range _) => _ at answered
    -- The outcome is a function of how the run was interrupted.
    revert told answered
    cases (runFrom (NodeRun.processAll stops) _ _ _ _).interruption with
    | none =>
      intro told answered
      dsimp only at answered
      rw [answered]
      exact ⟨fun _ => told, nofun⟩
    | some e =>
      intro told answered
      cases e with
      | notControllable =>
        dsimp only at answered
        rw [answered]
        exact ⟨nofun, fun _ => told⟩
      | timeout =>
        dsimp only at answered
        rw [answered]
        exact ⟨nofun, nofun⟩
      | range e => exact answered.elim

end StnuChecker

end TemporalNetwork
