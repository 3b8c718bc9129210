import TemporalNetwork.Proofs.Stnu.LinkRun
import TemporalNetwork.Proofs.Stnu.Preparation

/-!
The two runs over the links go through the same stages. One keeps the links that wait on a stack and
repairs the potential, the other waits for nested runs and computes the potential anew: the potential
is the greatest one in both, so they propagate in the same networks.
-/

namespace TemporalNetwork

/-- The links finished in a run, the latest first. -/
def StnuRun.finished (s : StnuRun LinkStatus) : List Nat :=
  s.moves.filterMap fun (i, status) => if status = .finished then some i else none

/-- The stage of a run in which the links on `stack` wait. -/
def StnuRun.stage (s : StnuRun LinkStatus) (stack : List Nat) : LinkStage :=
  ⟨s.network, s.statuses, s.finished, stack⟩

open Potential (Alike Refreshed)

/-- Two runs that are at the same stage. -/
structure InStep (links : List StnuLink) (first : PlainNetwork) (stack : List Nat)
    (s s' : StnuRun LinkStatus) : Prop where
  alike : Alike s s'
  network : s'.network = s.network
  reachable : (s.stage stack).Reachable links first

/-- Two runs that have been interrupted in the same way. -/
def Halted (links : List StnuLink) (first : PlainNetwork) (e : Interruption)
    (s s' : StnuRun LinkStatus) : Prop :=
  Alike s s' ∧ (e = .notControllable → ∃ stage, LinkStage.Reachable links first stage ∧
    stage.Rejected links)

/-- What no stage undoes: no link goes back to being unstarted. -/
structure Advances (statuses statuses' : Array LinkStatus) : Prop where
  unstarted : ∀ k : Nat, statuses'[k]? = some .unstarted → statuses[k]? = some .unstarted
  waiting_le : waiting statuses' ≤ waiting statuses

namespace Advances

variable {statuses statuses' statuses'' : Array LinkStatus} {i : Nat}

theorem refl (statuses : Array LinkStatus) : Advances statuses statuses := ⟨fun _ h => h, le_rfl⟩

theorem trans (first : Advances statuses statuses') (second : Advances statuses' statuses'') :
    Advances statuses statuses'' :=
  ⟨fun k h => first.unstarted k (second.unstarted k h),
    second.waiting_le.trans first.waiting_le⟩

theorem start (unstarted : statuses[i]? = some .unstarted) :
    Advances statuses (statuses.setIfInBounds i .started) := by
  refine ⟨fun k h => ?_, by have := waiting_start unstarted; omega⟩
  rw [getElem?_setStatus (lt_of_status unstarted)] at h
  split at h
  · cases h
  · exact h

theorem finish (started : statuses[i]? = some .started) :
    Advances statuses (statuses.setIfInBounds i .finished) := by
  refine ⟨fun k h => ?_, (waiting_finish started).le⟩
  rw [getElem?_setStatus (lt_of_status started)] at h
  split at h
  · cases h
  · exact h

end Advances

namespace LinkRun

variable {links : List StnuLink} {first : PlainNetwork} {s s' : StnuRun LinkStatus}
  {i : Nat} {link : StnuLink} {rest stack : List Nat}

/-- The run after the back-propagation of a link. -/
def attempted (s : StnuRun LinkStatus) : StnuRun LinkStatus :=
  { s with
    polls := s.polls + 1
    statistics := { s.statistics with backPropagations := s.statistics.backPropagations + 1 } }

/-- The run after a link has been started because another one waits for it. -/
def interruptedBy (s : StnuRun LinkStatus) (next : Nat) : StnuRun LinkStatus :=
  { s with
    statistics := { s.statistics with
      restartedBackPropagations := s.statistics.restartedBackPropagations + 1 }
    statuses := s.statuses.setIfInBounds next .started
    moves := (next, .started) :: s.moves }

/-- The run after a link has been started that no other one waits for. -/
def starting (s : StnuRun LinkStatus) (i : Nat) : StnuRun LinkStatus :=
  { s with statuses := s.statuses.setIfInBounds i .started, moves := (i, .started) :: s.moves }

/-- The run after a link has been finished. -/
def finishing (s : StnuRun LinkStatus) (i : Nat) : StnuRun LinkStatus :=
  { s with statuses := s.statuses.setIfInBounds i .finished, moves := (i, .finished) :: s.moves }

theorem run_status? (s : StnuRun LinkStatus) (i : Nat) :
    (StnuM.status? i).run s = .ok s.statuses[i]? s := rfl

theorem run_start (s : StnuRun LinkStatus) (i : Nat) :
    (StnuM.setStatus i .started).run s = .ok () (starting s i) := rfl

theorem run_finish (s : StnuRun LinkStatus) (i : Nat) :
    (StnuM.setStatus i .finished).run s = .ok () (finishing s i) := rfl

theorem run_attempt (links : List StnuLink) (stops : Polls) (s : StnuRun LinkStatus) (i : Nat) (link : StnuLink) :
    (do
      StnuM.poll stops
      backPropagate links i link).run s =
      if stops s.polls then .error .timeout { s with polls := s.polls + 1 }
      else .ok (.ofLink s.network links s.statuses i link) (attempted s) := by
  rw [EStateM.run_bind]
  cases stop : stops s.polls with
  | true =>
    have polled : (StnuM.poll stops).run s = .error .timeout { s with polls := s.polls + 1 } :=
      if_pos stop
    rw [polled]
    rfl
  | false =>
    have polled : (StnuM.poll stops).run s = .ok () { s with polls := s.polls + 1 } :=
      if_neg (by rw [stop]; exact Bool.false_ne_true)
    rw [polled]
    rfl

section alike

variable (alike : Alike s s')

include alike in
theorem alike_attempted : Alike (attempted s) (attempted s') :=
  ⟨alike.edges, alike.statuses, alike.moves, congrArg (· + 1) alike.polls,
    congrArg (· + 1) alike.backPropagations, alike.restarted, alike.derivedEdges⟩

include alike in
theorem alike_interruptedBy (next : Nat) : Alike (interruptedBy s next) (interruptedBy s' next) :=
  ⟨alike.edges, congrArg (Array.setIfInBounds · next _) alike.statuses,
    congrArg (_ :: ·) alike.moves, alike.polls, alike.backPropagations,
    congrArg (· + 1) alike.restarted, alike.derivedEdges⟩

include alike in
theorem alike_finishing (i : Nat) : Alike (finishing s i) (finishing s' i) :=
  ⟨alike.edges, congrArg (Array.setIfInBounds · i _) alike.statuses,
    congrArg (_ :: ·) alike.moves, alike.polls, alike.backPropagations, alike.restarted,
    alike.derivedEdges⟩

include alike in
theorem alike_tightened (same : s'.network = s.network) (target : NodeId)
    (edges : List (NodeId × Value)) :
    Alike (tightened s target edges) (tightened s' target edges) := by
  refine ⟨?_, alike.statuses, alike.moves, alike.polls, alike.backPropagations, alike.restarted, ?_⟩
  · simp only [tightened, same]
    exact .refl _
  · simp only [tightened, same, alike.derivedEdges]

end alike

/-- Both runs propagate from the link on top of the stack, with the same outcome, unless they are
stopped. -/
theorem abreast_attempt {α β : Type} {f : BackPropagation → LinkRun α}
    {f' : BackPropagation → LinkRun β} {ok : α → StnuRun LinkStatus → β → StnuRun LinkStatus → Prop}
    (stops : Polls) (inStep : InStep links first stack s s')
    (later : Abreast (f (.ofLink s.network links s.statuses i link))
      (f' (.ofLink s.network links s.statuses i link)) (attempted s) (attempted s') ok
      (Halted links first)) :
    Abreast
      (do
        StnuM.poll stops
        let outcome ← backPropagate links i link
        f outcome)
      (do
        StnuM.poll stops
        let outcome ← backPropagate links i link
        f' outcome)
      s s' ok (Halted links first) := by
  have alike := inStep.alike
  have run := run_attempt links stops s i link
  have run' := run_attempt links stops s' i link
  have polled : stops s'.polls = stops s.polls := congrArg stops alike.polls
  have outcome : BackPropagation.ofLink s'.network links s'.statuses i link =
      .ofLink s.network links s.statuses i link := by rw [inStep.network, alike.statuses]
  rw [polled, outcome] at run'
  rw [← bind_assoc, ← bind_assoc]
  cases stop : stops s.polls with
  | true =>
    rw [stop, if_pos rfl] at run run'
    refine abreast_bind_of_error run run' ⟨⟨alike.edges, alike.statuses, alike.moves,
      congrArg (· + 1) alike.polls, alike.backPropagations, alike.restarted, alike.derivedEdges⟩,
      fun impossible => ?_⟩
    cases impossible
  | false =>
    rw [stop, if_neg Bool.false_ne_true] at run run'
    exact abreast_bind_of_ok run run' later

/-- Both ways to renew the potential after edges have been tightened lead to the same potential, or
both find that there is none. -/
theorem abreast_renew (alike : Alike s s') (network : s'.network = s.network)
    (wf : s.network.WellFormed) {target : NodeId} (inside : target < s.network.nodeCount)
    {sources : List NodeId} (disturbed : Potential.Disturbed s.network target sources) :
    Abreast (Potential.repair target sources)
      (if !sources.isEmpty then Potential.compute else pure () : LinkRun Unit) s s'
      (fun _ t _ t' => Alike t t' ∧ t'.network = t.network ∧ Refreshed s t ∧ t.network.Relaxed)
      fun e t t' => Alike t t' ∧ e = .notControllable ∧ ∀ p, ¬ s.network.Admits p := by
  have renew : Ends (if !sources.isEmpty then Potential.compute else pure () : LinkRun Unit) s'
      (fun _ t => Refreshed s' t ∧ t.network.Relaxed)
      fun e t => e = .notControllable ∧ Alike s' t ∧ ∀ p, ¬ s.network.Admits p := by
    rw [← network]
    -- Without sources nothing has been violated, and the old potential is the greatest one still.
    cases sources with
    | nil =>
      refine ⟨.refl s', fun u v w weight => ?_, ?_, ?_⟩
      · rw [network] at weight ⊢
        exact (disturbed.violated u v w weight).resolve_right fun into => nomatch into.2
      · rw [network]
        exact disturbed.nonpos
      · rw [network]
        exact disturbed.above
    | cons source more => exact Potential.compute_ends (by rwa [network])
  refine Abreast.of_ends (Potential.repair_ends wf inside disturbed) renew ?_ ?_ ?_ ?_
  · rintro _ t _ t' ⟨refreshed, relaxed⟩ ⟨refreshed', relaxed'⟩
    obtain ⟨p, same⟩ := refreshed.potentials
    obtain ⟨q, same'⟩ := refreshed'.potentials
    rw [network] at same'
    refine ⟨(refreshed.symm.trans alike).trans refreshed'.toAlike, ?_, refreshed, relaxed⟩
    rw [same] at relaxed
    rw [same'] at relaxed'
    rw [same, same', relaxed.eq relaxed']
  · rintro _ t _ t' ⟨rfl, changed, none⟩ ⟨rfl, changed', _⟩
    exact ⟨rfl, (changed.symm.trans alike).trans changed', rfl, none⟩
  · rintro _ t _ t' ⟨refreshed, relaxed⟩ ⟨_, _, none⟩
    exact none _ (refreshed.edges.symm.admits relaxed.valid)
  · rintro _ t _ t' ⟨_, _, none⟩ ⟨refreshed, relaxed⟩
    have valid := refreshed.edges.symm.admits relaxed.valid
    rw [network] at valid
    exact none _ valid

theorem abreast_finish {α β : Type} {f : LinkRun α} {f' : LinkRun β}
    {ok : α → StnuRun LinkStatus → β → StnuRun LinkStatus → Prop} (runnable : Runnable links first)
    (inStep : InStep links first (i :: rest) s s') (listed : links[i]? = some link)
    {edges : List (NodeId × Value)}
    (completes : BackPropagation.ofLink s.network links s.statuses i link = .completed edges)
    (later : ∀ t t', InStep links first rest t t' →
      t.statuses = s.statuses.setIfInBounds i .finished → Abreast f f' t t' ok (Halted links first)) :
    Abreast
      (do
        let sources ← addEdges link.activation edges
        Potential.repair link.activation sources
        StnuM.setStatus i .finished
        f)
      (do
        let sources ← addEdges link.activation edges
        (if !sources.isEmpty then Potential.compute else pure () : LinkRun Unit)
        StnuM.setStatus i .finished
        f')
      (attempted s) (attempted s') ok (Halted links first) := by
  have progress := inStep.reachable.progress runnable
  obtain ⟨inside, _, _⟩ := progress.within i link listed
  obtain ⟨_, after⟩ := progress.tightens listed completes
  have network : (attempted s').network = (attempted s).network := inStep.network
  have sources : (Network.tightenEach link.activation (attempted s').network edges).2 =
      (Network.tightenEach link.activation (attempted s).network edges).2 := by rw [network]
  have alike := alike_tightened (alike_attempted inStep.alike) network link.activation edges
  refine abreast_bind_of_ok (run_addEdges _ _ _)
    ((run_addEdges _ _ _).trans (by rw [sources])) ?_
  have renewed := abreast_renew alike (by simp only [tightened, network]) after.wellFormed
    (lt_of_lt_of_eq inside after.tightened.nodeCount.symm) (after.disturbed progress.relaxed)
  refine (renewed.mono (fun _ _ _ _ h => h) fun e t t' halted => ?_).bind fun _ t _ t' renewed => ?_
  · obtain ⟨alike, rfl, none⟩ := halted
    exact ⟨alike, fun _ => ⟨_, inStep.reachable, .potential listed completes none⟩⟩
  · obtain ⟨alike, network, refreshed, relaxed⟩ := renewed
    obtain ⟨p, same⟩ := refreshed.potentials
    have statuses : t.statuses = s.statuses := refreshed.statuses
    have moves : t.moves = s.moves := refreshed.moves
    refine abreast_bind_of_ok (run_finish t i) (run_finish t' i) (later _ _
      ⟨alike_finishing alike i, network, ?_⟩ (congrArg (Array.setIfInBounds · i _) statuses))
    have stage : (finishing t i).stage rest =
        ⟨(Network.tightenEach link.activation s.network edges).1.setPotentials p,
          s.statuses.setIfInBounds i .finished, i :: s.finished, rest⟩ := by
      rw [StnuRun.stage, StnuRun.finished, finishing, statuses, moves, same]
      rfl
    rw [stage]
    rw [same] at relaxed
    exact .finish inStep.reachable listed completes relaxed

theorem interrupt_inStep (runnable : Runnable links first)
    (inStep : InStep links first (i :: rest) s s') (listed : links[i]? = some link) {next : Nat}
    (waits : BackPropagation.ofLink s.network links s.statuses i link = .interrupted next) :
    InStep links first (next :: i :: rest) (interruptedBy (attempted s) next)
      (interruptedBy (attempted s') next) ∧ s.statuses[next]? = some .unstarted :=
  ⟨⟨alike_interruptedBy (alike_attempted inStep.alike) next, inStep.network,
    .interrupt inStep.reachable listed waits⟩,
    (inStep.reachable.progress runnable).unstarted listed waits⟩

/-- One run takes the link from the top of its stack, the other ends a nested run and goes on: from
there on the two end in the same way if they do once the link is finished. -/
theorem abreast_processNested (runnable : Runnable links first) (stops : Polls)
    {ok : Unit → StnuRun LinkStatus → Unit → StnuRun LinkStatus → Prop} (nested fuel i : Nat)
    (rest : List Nat) (s s' : StnuRun LinkStatus) (onward : Unit → LinkRun Unit)
    (inStep : InStep links first (i :: rest) s s')
    (enough : 2 * waiting s.statuses + rest.length < fuel) (enough' : waiting s.statuses < nested)
    (later : ∀ fuel t t', InStep links first rest t t' → Advances s.statuses t.statuses →
      2 * waiting t.statuses + rest.length ≤ fuel →
      Abreast (processStack links stops fuel rest) (onward ()) t t' ok (Halted links first)) :
    Abreast (processStack links stops fuel (i :: rest)) (processNested links stops nested i >>= onward)
      s s' ok (Halted links first) := by
  -- By induction on the depth left; `onward` is what the nested run goes on with, the stack below in the
  -- other.
  induction nested generalizing fuel i rest s s' onward with
  | zero => omega
  | succ nested ih =>
    obtain ⟨fuel, rfl⟩ : ∃ n, fuel = n + 1 := ⟨fuel - 1, by omega⟩
    have progress := inStep.reachable.progress runnable
    obtain ⟨link, listed⟩ := progress.exists_link
    have started := progress.status_top
    rw [processStack, processNested, listed]
    simp only [bind_assoc]
    refine abreast_attempt stops inStep ?_
    cases outcome : BackPropagation.ofLink s.network links s.statuses i link with
    | failed e =>
      refine ⟨rfl, alike_attempted inStep.alike, ?_⟩
      rintro rfl
      exact ⟨_, inStep.reachable, .propagation listed outcome⟩
    | interrupted next =>
      obtain ⟨interrupted, unstarted⟩ := interrupt_inStep runnable inStep listed outcome
      have fewer := waiting_start unstarted
      have advances := Advances.start unstarted
      dsimp only
      simp only [bind_assoc]
      change Abreast (processStack links stops fuel (next :: i :: rest))
        (processNested links stops nested next >>= fun _ =>
          processNested links stops nested i >>= onward)
        (interruptedBy (attempted s) next) (interruptedBy (attempted s') next) ok _
      have started' : (interruptedBy (attempted s) next).statuses =
          s.statuses.setIfInBounds next .started := rfl
      refine ih fuel next (i :: rest) _ _ _ interrupted ?_ ?_ fun fuel t t' inStep' advances' more => ?_
      · rw [started', List.length_cons]
        omega
      · rw [started']
        omega
      · have fewer' := advances'.waiting_le
        rw [started'] at fewer' advances'
        rw [List.length_cons] at more
        exact ih fuel i rest t t' onward inStep' (by omega) (by omega)
          fun fuel u u' inStep'' advances'' more => later fuel u u' inStep''
            ((advances.trans advances').trans advances'') more
    | completed edges =>
      have renewed : ∀ sources : List NodeId,
          (if !sources.isEmpty then do
            Potential.compute
            StnuM.setStatus i .finished
          else StnuM.setStatus i .finished : LinkRun Unit) = (do
            (if !sources.isEmpty then Potential.compute else pure () : LinkRun Unit)
            StnuM.setStatus i .finished) := by
        intro sources
        split
        · rfl
        · rw [pure_bind]
      dsimp only
      simp only [renewed, bind_assoc]
      refine abreast_finish runnable inStep listed outcome fun t t' inStep' statuses => ?_
      have fewer : waiting t.statuses = waiting s.statuses := by
        rw [statuses]
        exact waiting_finish started
      exact later fuel t t' inStep' (statuses ▸ .finish started) (by omega)

theorem abreast_process (runnable : Runnable links first) (stops : Polls) (i : Nat)
    (inStep : InStep links first [] s s') :
    Abreast (process links true stops i) (process links false stops i) s s'
      (fun _ t _ t' => InStep links first [] t t' ∧ Advances s.statuses t.statuses ∧
        t.statuses[i]? ≠ some .unstarted) (Halted links first) := by
  have progress := inStep.reachable.progress runnable
  have size := progress.size
  have same : s'.statuses[i]? = s.statuses[i]? := by rw [inStep.alike.statuses]
  refine abreast_bind_of_ok (run_status? s i) (run_status? s' i) ?_
  rw [same]
  -- A link that has been treated before is left alone by both; otherwise both start it, with the same
  -- restarts or none.
  by_cases unstarted : s.statuses[i]? = some .unstarted
  · rw [if_pos unstarted, if_pos unstarted]
    have fewer := waiting_start unstarted
    have all := waiting_le_size s.statuses
    have alike := inStep.alike
    have inStep' : InStep links first [i] (starting s i) (starting s' i) :=
      ⟨⟨alike.edges, congrArg (Array.setIfInBounds · i _) alike.statuses,
        congrArg (_ :: ·) alike.moves, alike.polls, alike.backPropagations, alike.restarted,
        alike.derivedEdges⟩, inStep.network, .start inStep.reachable unstarted⟩
    refine abreast_bind_of_ok (run_start s i) (run_start s' i) ?_
    rw [if_pos rfl, if_neg Bool.false_ne_true, ← bind_pure (processNested links stops _ i)]
    have started : (starting s i).statuses = s.statuses.setIfInBounds i .started := rfl
    dsimp only [StnuRun.stage] at size
    refine abreast_processNested runnable stops _ _ i [] _ _ _ inStep' ?_ ?_
      fun fuel t t' inStep'' advances more => ?_
    · rw [started, List.length_nil]
      omega
    · rw [started]
      omega
    · rw [processStack.eq_def]
      refine ⟨inStep'', (Advances.start unstarted).trans advances, fun h => ?_⟩
      have back := advances.unstarted i h
      rw [started, getElem?_setStatus (lt_of_status unstarted), if_pos rfl] at back
      cases back
  · rw [if_neg unstarted, if_neg unstarted]
    exact ⟨inStep, .refl _, unstarted⟩

/-- Both runs end at one stage, with every link finished, or are interrupted in the same way. -/
theorem abreast_processAll (runnable : Runnable links first) (stops : Polls)
    (inStep : InStep links first [] s s') :
    Abreast (processAll links true stops) (processAll links false stops) s s'
      (fun _ t _ t' => InStep links first [] t t' ∧ ∀ k, k < links.length → k ∈ t.finished)
      (Halted links first) := by
  refine (abreast_forM (fun todo t t' => InStep links first [] t t' ∧ ∀ k, k < links.length →
    k ∉ todo → t.statuses[k]? ≠ some .unstarted) ?_ _ s s' ⟨inStep, ?_⟩).mono ?_ fun _ _ _ h => h
  · rintro i rest t t' ⟨inStep, processed⟩
    refine (abreast_process runnable stops i inStep).mono ?_ fun _ _ _ h => h
    rintro _ u _ u' ⟨inStep', advances, here⟩
    refine ⟨inStep', fun k inside outside h => ?_⟩
    by_cases same : k = i
    · exact here (same ▸ h)
    · exact processed k inside (by simp [same, outside]) (advances.unstarted k h)
  · exact fun k inside outside => absurd (List.mem_range.mpr inside) outside
  · rintro _ t _ t' ⟨inStep', processed⟩
    refine ⟨inStep', fun k inside => ?_⟩
    have progress := inStep'.reachable.progress runnable
    have inside' : k < t.statuses.size := by
      have size := progress.size
      dsimp only [StnuRun.stage] at size
      omega
    have unstarted := processed k inside List.not_mem_nil
    refine (progress.done k).mp ?_
    have started := progress.started k
    dsimp only [StnuRun.stage] at started ⊢
    rw [Array.getElem?_eq_getElem inside'] at unstarted started ⊢
    cases status : t.statuses[k] with
    | unstarted => exact absurd (congrArg some status) unstarted
    | started => exact absurd (started.mp (congrArg some status)) List.not_mem_nil
    | finished => rfl

end LinkRun

/-- Whether computing the potential anew would succeed and change nothing. -/
def StnuRun.AtRest {σ : Type} (s : StnuRun σ) : Prop :=
  ∃ t, Potential.compute.run s = .ok () t ∧ t.network = s.network

theorem StnuRun.atRest_of_relaxed {σ : Type} {s : StnuRun σ} (wf : s.network.WellFormed)
    (relaxed : s.network.Relaxed) : s.AtRest := by
  have computes := Potential.compute_ends wf
  cases run : Potential.compute.run s with
  | error e t => exact absurd relaxed.valid ((computes.of_error run).2.2 _)
  | ok _ t =>
    obtain ⟨refreshed, relaxed'⟩ := computes.of_ok run
    obtain ⟨p, same⟩ := refreshed.potentials
    refine ⟨t, run, ?_⟩
    rw [same] at relaxed' ⊢
    have itself := s.network.setPotentials_self
    rw [← itself] at relaxed
    exact (relaxed'.eq relaxed).trans itself

theorem Prepared.runnable {g h : PlainNetwork} {links : List StnuLink}
    (prepared : Prepared g h links) {s t : StnuRun LinkStatus} (network : s.network = h)
    (computed : Potential.compute.run s = .ok () t) : Runnable links t.network := by
  have wf : s.network.WellFormed := network ▸ prepared.wellFormed
  obtain ⟨refreshed, relaxed⟩ := (Potential.compute_ends wf).of_ok computed
  refine ⟨refreshed.edges.wellFormed wf, relaxed, fun i link listed => ?_⟩
  obtain ⟨inside, apart, _⟩ := prepared.link link (List.mem_of_getElem? listed)
  rw [refreshed.edges.nodeCount, network]
  exact ⟨inside.1, inside.2, apart⟩

theorem Prepared.inStep {g h : PlainNetwork} {links : List StnuLink} (prepared : Prepared g h links)
    {statistics : StnuStatistics} {s : StnuRun LinkStatus}
    (computed : Potential.compute.run
      (.start h statistics (Array.replicate links.length .unstarted)) = .ok () s) :
    InStep links s.network [] s s := by
  have wf : (StnuRun.start h statistics (Array.replicate links.length
    LinkStatus.unstarted)).network.WellFormed := prepared.wellFormed
  obtain ⟨refreshed, _⟩ := (Potential.compute_ends wf).of_ok computed
  have stage : s.stage [] = ⟨s.network, Array.replicate links.length .unstarted, [], []⟩ := by
    rw [StnuRun.stage, StnuRun.finished, refreshed.statuses, refreshed.moves]
    rfl
  exact ⟨.refl s, rfl, stage ▸ .begin⟩

/-- The run that keeps a stack and repairs the potential and the run that nests and computes the
potential anew go through the same stages: they end with the same edges, the same changes of status
and the same counts, both with a result or both with the same interruption. With a result they also
end with the same potential, and it is the one that would be computed anew. -/
theorem runs_in_lockstep {g : PlainNetwork} (wf : g.WellFormed) {fixes : List String}
    {links : List StnuLink} {d : Draft PlainEdge}
    (prepared : StnuLink.prepareAll.run ⟨g, fixes⟩ = .ok links d) {statistics : StnuStatistics}
    {s : StnuRun LinkStatus}
    (computed : Potential.compute.run
      (.start d.network statistics (Array.replicate links.length .unstarted)) = .ok () s)
    (stops : Polls) :
    Abreast (LinkRun.processAll links true stops) (LinkRun.processAll links false stops) s s
      (fun _ t _ t' => Alike t t' ∧ t'.network = t.network ∧ t.AtRest) fun _ t t' => Alike t t' := by
  have prepared := (StnuLink.prepareAll_ends wf).of_ok prepared
  have runnable := prepared.runnable rfl computed
  refine (LinkRun.abreast_processAll runnable stops (prepared.inStep computed)).mono ?_ fun _ _ _ halted => halted.1
  rintro _ t _ t' ⟨inStep', _⟩
  have progress := inStep'.reachable.progress runnable
  exact ⟨inStep'.alike, inStep'.network, StnuRun.atRest_of_relaxed progress.wellFormed
    progress.relaxed⟩

/-- The activation node of the second link has to follow the contingent node of the first by one. -/
def chainedNetwork : PlainNetwork :=
  (Network.build [.named "Z", .named "A", .named "C", .named "B", .named "D"]
    [("AC", 1, 2, ⟨.contingent, 3, none⟩), ("CA", 2, 1, ⟨.contingent, -1, none⟩),
      ("BD", 3, 4, ⟨.contingent, 4, none⟩), ("DB", 4, 3, ⟨.contingent, -2, none⟩),
      ("BC", 3, 2, ⟨.ordinary, -1, none⟩)]).getD .empty

theorem runs_in_lockstep_chained : ∃ links d s,
    StnuLink.prepareAll.run ⟨chainedNetwork, []⟩ = .ok links d ∧
    Potential.compute.run
      (.start d.network .zero (Array.replicate links.length LinkStatus.unstarted)) = .ok () s ∧
    Abreast (LinkRun.processAll links true .never) (LinkRun.processAll links false .never) s s
      (fun _ t _ t' => Alike t t' ∧ t'.network = t.network ∧ t.AtRest) fun _ t t' => Alike t t' := by
  have computes : (match StnuLink.prepareAll.run ⟨chainedNetwork, []⟩ with
      | .ok links d => succeeds Potential.compute
          (.start d.network .zero (Array.replicate links.length LinkStatus.unstarted))
      | .error .. => false) = true := by decide +kernel
  split at computes
  · rename_i links d prepared
    obtain ⟨_, s, computed⟩ := exists_of_succeeds computes
    exact ⟨links, d, s, prepared, computed,
      runs_in_lockstep (Network.wellFormed_getD_build _ _) prepared computed .never⟩
  · cases computes

end TemporalNetwork
