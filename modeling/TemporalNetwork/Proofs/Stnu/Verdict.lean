import TemporalNetwork.Proofs.Stnu.Lockstep
import TemporalNetwork.Stnu.Controllability

/-!
What the verdict of a check tells of its run over the links: the stage at which all links have been
finished, or the one at which the network has been found to be not controllable.
-/

namespace TemporalNetwork

namespace StnuChecker

/-- The run over the links of a check, from a prepared network. -/
def linkRun (links : List StnuLink) (incremental : Bool) (stops : Polls) : LinkRun Unit := do
  Potential.compute
  LinkRun.processAll links incremental stops

/-- All links have been finished in a run that began with the edges of `h`, and ended with the network
`k`. -/
def FinishesAll (links : List StnuLink) (h k : PlainNetwork) : Prop :=
  ∃ first statuses finished, Runnable links first ∧ h.SameEdges first ∧
    LinkStage.Reachable links first ⟨k, statuses, finished, []⟩ ∧
    ∀ i, i < links.length → i ∈ finished

/-- A run that began with the edges of `h` has no potential to begin with, or gets to a stage at which
the network is found to be not controllable. -/
def Rejects (links : List StnuLink) (h : PlainNetwork) : Prop :=
  (∀ p, ¬ h.Admits p) ∨ ∃ first stage, Runnable links first ∧ h.SameEdges first ∧
    LinkStage.Reachable links first stage ∧ stage.Rejected links

open Potential (Alike)

/-- The two ways to run over the links of a prepared network end in the same way. -/
theorem linkRun_abreast {g h : PlainNetwork} {links : List StnuLink} (prepared : Prepared g h links)
    (stops : Polls) (statistics : StnuStatistics) {s : StnuRun LinkStatus}
    (start : s = .start h statistics (Array.replicate links.length .unstarted)) :
    Abreast (linkRun links true stops) (linkRun links false stops) s s
      (fun _ t _ t' => Alike t t' ∧ t'.network = t.network ∧ FinishesAll links h t.network)
      fun e t t' => Alike t t' ∧ (e = .notControllable → Rejects links h) := by
  subst start
  have computes := Potential.compute_ends (s := .start h statistics
    (Array.replicate links.length LinkStatus.unstarted)) prepared.wellFormed
  cases computed : Potential.compute.run
      (.start h statistics (Array.replicate links.length LinkStatus.unstarted)) with
  | error e t =>
    exact abreast_bind_of_error computed computed
      ⟨.refl t, fun _ => Or.inl (computes.of_error computed).2.2⟩
  | ok _ s =>
    obtain ⟨refreshed, _⟩ := computes.of_ok computed
    have runnable := prepared.runnable rfl computed
    refine abreast_bind_of_ok computed computed ?_
    refine (LinkRun.abreast_processAll runnable stops (prepared.inStep computed)).mono ?_ ?_
    · rintro _ t _ t' ⟨inStep, complete⟩
      exact ⟨inStep.alike, inStep.network, s.network, t.statuses, t.finished, runnable,
        refreshed.edges, inStep.reachable, complete⟩
    · rintro e t t' ⟨alike, rejected⟩
      refine ⟨alike, fun same => ?_⟩
      obtain ⟨stage, reachable, rejected⟩ := rejected same
      exact Or.inr ⟨s.network, stage, runnable, refreshed.edges, reachable, rejected⟩

theorem linkRun_ends {g h : PlainNetwork} {links : List StnuLink} (prepared : Prepared g h links)
    (incremental : Bool) (stops : Polls) (statistics : StnuStatistics) :
    Ends (linkRun links incremental stops)
      (.start h statistics (Array.replicate links.length .unstarted))
      (fun _ t => FinishesAll links h t.network)
      fun e _ => e = .notControllable → Rejects links h := by
  have abreast := linkRun_abreast prepared stops statistics rfl
  cases incremental with
  | true =>
    refine abreast.left.mono ?_ ?_
    · rintro _ t ⟨_, _, _, _, finishes⟩
      exact finishes
    · rintro e t ⟨_, _, rejects⟩
      exact rejects
  | false =>
    refine abreast.right.mono ?_ ?_
    · rintro _ t' ⟨_, t, _, network, finishes⟩
      rwa [network]
    · rintro e t' ⟨_, _, rejects⟩
      exact rejects

/-- How the run over the links of a prepared network has ended, by the outcome of the check. -/
structure Ran (h : PlainNetwork) (c : StnuChecker) (outcome : Outcome) : Prop where
  consistent : outcome = .consistent → FinishesAll c.links h c.network
  inconsistent : outcome = .inconsistent → Rejects c.links h

variable {g : PlainNetwork} {options : CheckerOptions} {stops : Polls} {c : StnuChecker}
  {status : CheckStatus}

theorem runAlgorithm_eq (byLinks : options.algorithm ≠ .morris2014) (h : PlainNetwork)
    (links : List StnuLink) (statistics : StnuStatistics) (stops : Polls) :
    runAlgorithm options.algorithm h links statistics stops =
      runFrom (linkRun links (options.algorithm == .rul2020) stops) h statistics
        (Array.replicate links.length .unstarted) links := by
  cases algorithm : options.algorithm with
  | morris2014 => exact absurd algorithm byLinks
  | rul2018 => rfl
  | rul2020 => rfl

/-- The status of a check after its run. -/
def statusAfter (d : Draft PlainEdge) (s : StnuRun LinkStatus) : CheckStatus :=
  { CheckStatus.fresh with fixes := d.fixes, stnu := s.statistics }

/-- A check with its status, which is also its answer. -/
def finishedWith (options : CheckerOptions) (links : List StnuLink) (s : StnuRun LinkStatus)
    (status : CheckStatus) : StnuChecker × Except Failure CheckStatus :=
  (⟨s.network, options, .finished status.outcome, status, links⟩, .ok status)

/-- The end of a check after its run over the links. -/
def conclude (options : CheckerOptions) (d : Draft PlainEdge) (links : List StnuLink) :
    EStateM.Result Interruption (StnuRun LinkStatus) Unit → StnuChecker × Except Failure CheckStatus
  | .ok _ s => finishedWith options links s (statusAfter d s).setConsistent
  | .error .notControllable s => finishedWith options links s ((statusAfter d s).setInconsistent none)
  | .error .timeout s => finishedWith options links s (statusAfter d s).setTimeout
  | .error (.range e) s =>
    (⟨s.network, options, .propagating, statusAfter d s, links⟩, .error (.range e))

theorem check_of_error {e : Failure} {d : Draft PlainEdge}
    (run : StnuLink.prepareAll.run ⟨g, []⟩ = .error e d) (stops : Polls) :
    (ofNetwork g options).check stops = (⟨d.network, options, .uninitialised,
      { CheckStatus.fresh with fixes := d.fixes }, []⟩, .error e) := by
  have run' : StnuLink.prepareAll.run ⟨(ofNetwork g options).network,
      (ofNetwork g options).status.fixes⟩ = .error e d := run
  unfold check initialise
  rw [if_neg (by simp [ofNetwork, Stage.isFinished]), if_neg (by simp [ofNetwork]), run']
  rfl

theorem check_of_ok (byLinks : options.algorithm ≠ .morris2014) {links : List StnuLink}
    {d : Draft PlainEdge} (run : StnuLink.prepareAll.run ⟨g, []⟩ = .ok links d) (stops : Polls) :
    (ofNetwork g options).check stops = conclude options d links
      ((linkRun links (options.algorithm == .rul2020) stops).run
        (.start d.network .zero (Array.replicate links.length .unstarted))) := by
  have run' : StnuLink.prepareAll.run ⟨(ofNetwork g options).network,
      (ofNetwork g options).status.fixes⟩ = .ok links d := run
  have algorithm := runAlgorithm_eq byLinks d.network links .zero stops
  unfold check initialise
  rw [if_neg (by simp [ofNetwork, Stage.isFinished]), if_neg (by simp [ofNetwork]), run']
  dsimp only
  rw [if_neg (by simp)]
  cases ran : (linkRun links (options.algorithm == .rul2020) stops).run
      (.start d.network .zero (Array.replicate links.length .unstarted)) with
  | ok _ s =>
    rw [runFrom, ran] at algorithm
    dsimp only [ofNetwork, CheckStatus.fresh] at algorithm ⊢
    rw [algorithm]
    rfl
  | error e s =>
    rw [runFrom, ran] at algorithm
    dsimp only [ofNetwork, CheckStatus.fresh] at algorithm ⊢
    rw [algorithm]
    cases e <;> rfl

/-- A check that answers has prepared the network; its outcome tells how the run has ended. -/
theorem ran_of_check (wf : g.WellFormed) (byLinks : options.algorithm ≠ .morris2014)
    (checked : (ofNetwork g options).check stops = (c, .ok status)) :
    ∃ h, Prepared g h c.links ∧ Ran h c status.outcome := by
  cases run : StnuLink.prepareAll.run ⟨g, []⟩ with
  | error e d =>
    rw [check_of_error run] at checked
    cases congrArg Prod.snd checked
  | ok links d =>
    have prepared : Prepared g d.network links :=
      (StnuLink.prepareAll_ends (d := ⟨g, []⟩) wf).of_ok run
    have ends := linkRun_ends prepared (options.algorithm == .rul2020) stops .zero
    rw [check_of_ok byLinks run] at checked
    cases ran : (linkRun links (options.algorithm == .rul2020) stops).run
        (.start d.network .zero (Array.replicate links.length .unstarted)) with
    | ok _ s =>
      rw [ran] at checked
      cases checked
      exact ⟨d.network, prepared, ⟨fun _ => ends.of_ok ran, nofun⟩⟩
    | error e s =>
      rw [ran] at checked
      cases e with
      | notControllable =>
        cases checked
        exact ⟨d.network, prepared, ⟨nofun, fun _ => ends.of_error ran rfl⟩⟩
      | timeout =>
        cases checked
        exact ⟨d.network, prepared, ⟨nofun, nofun⟩⟩
      | range e => cases congrArg Prod.snd checked

end StnuChecker

/-- The two checks over the links give the same answer, or fail with the same error, and leave the
same edges and links behind, however often they are told to stop. -/
theorem link_checks_agree (g : PlainNetwork) (wf : g.WellFormed) (options options' : CheckerOptions)
    (nested : options.algorithm = .rul2018) (stacked : options'.algorithm = .rul2020) (stops : Polls)
    (c c' : StnuChecker) (answer answer' : Except Failure CheckStatus)
    (checked : (StnuChecker.ofNetwork g options).check stops = (c, answer))
    (checked' : (StnuChecker.ofNetwork g options').check stops = (c', answer')) :
    answer.map CheckStatus.outcome = answer'.map CheckStatus.outcome ∧ c.links = c'.links ∧
      c.network.SameEdges c'.network := by
  cases run : StnuLink.prepareAll.run ⟨g, []⟩ with
  | error e d =>
    rw [StnuChecker.check_of_error run] at checked checked'
    cases checked
    cases checked'
    exact ⟨rfl, rfl, .refl _⟩
  | ok links d =>
    have prepared : Prepared g d.network links :=
      (StnuLink.prepareAll_ends (d := ⟨g, []⟩) wf).of_ok run
    have abreast := StnuChecker.linkRun_abreast prepared stops .zero rfl
    rw [StnuChecker.check_of_ok (by rw [nested]; decide) run, nested] at checked
    rw [StnuChecker.check_of_ok (by rw [stacked]; decide) run, stacked] at checked'
    change StnuChecker.conclude options d links ((StnuChecker.linkRun links false stops).run _) = _
      at checked
    change StnuChecker.conclude options' d links ((StnuChecker.linkRun links true stops).run _) = _
      at checked'
    unfold Abreast at abreast
    cases ran : (StnuChecker.linkRun links false stops).run
        (.start d.network .zero (Array.replicate links.length .unstarted)) with
    | ok _ s =>
      cases ran' : (StnuChecker.linkRun links true stops).run
          (.start d.network .zero (Array.replicate links.length .unstarted)) with
      | ok _ s' =>
        rw [ran, ran'] at abreast
        rw [ran] at checked
        rw [ran'] at checked'
        cases checked
        cases checked'
        exact ⟨rfl, rfl, abreast.1.edges.symm⟩
      | error e s' =>
        rw [ran, ran'] at abreast
        exact abreast.elim
    | error e s =>
      cases ran' : (StnuChecker.linkRun links true stops).run
          (.start d.network .zero (Array.replicate links.length .unstarted)) with
      | ok _ s' =>
        rw [ran, ran'] at abreast
        exact abreast.elim
      | error e' s' =>
        rw [ran, ran'] at abreast
        rw [ran] at checked
        rw [ran'] at checked'
        obtain ⟨rfl, alike, _⟩ := abreast
        cases e <;>
        · cases checked
          cases checked'
          exact ⟨rfl, rfl, alike.edges.symm⟩

theorem link_checks_agree_chained :
    ((StnuChecker.ofNetwork chainedNetwork ⟨none, false, true, .rul2018⟩).check .never).2.map
        CheckStatus.outcome =
      ((StnuChecker.ofNetwork chainedNetwork ⟨none, false, true, .rul2020⟩).check .never).2.map
        CheckStatus.outcome :=
  (link_checks_agree chainedNetwork (Network.wellFormed_getD_build _ _)
    ⟨none, false, true, .rul2018⟩ ⟨none, false, true, .rul2020⟩ rfl rfl .never _ _ _ _ rfl rfl).1

end TemporalNetwork
