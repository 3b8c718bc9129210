import TemporalNetwork.Proofs.Check.LifeCycle
import TemporalNetwork.Proofs.Conditional.Faults
import TemporalNetwork.Proofs.Conditional.Fixpoint
import TemporalNetwork.Proofs.Conditional.Monotone
import TemporalNetwork.Proofs.Conditional.Projection
import TemporalNetwork.Proofs.Stnu.Faults
import TemporalNetwork.Stnu.Controllability

/-!
The life of the three checkers. Each goes through its stages in order, finishes with the outcome of its
status, and then stays as it is; it runs into a fault only when it is asked to go on after a check that
failed half-way.
-/

namespace TemporalNetwork

namespace CheckStatus

variable {s : CheckStatus}

/-- Whether a check with this status has come to an end. -/
def Answers (s : CheckStatus) : Prop := s.outcome ≠ .notFinished

theorem answers_of_finished (finished : s.finished = true) : s.Answers := by
  unfold Answers outcome
  rw [finished]
  split
  · nofun
  · split
    · nofun
    · rw [if_neg (by decide)]
      split <;> nofun

theorem answers_setTimeout (s : CheckStatus) : s.setTimeout.Answers := nofun

theorem answers_setCycleBoundExceeded (s : CheckStatus) : s.setCycleBoundExceeded.Answers := by
  unfold Answers outcome setCycleBoundExceeded
  split
  · nofun
  · rw [if_pos rfl]
    nofun

/-- However a propagation halts, the status is not left without an outcome. -/
theorem answers_of_recordHalt {t : CheckStatus} {halt : Halt}
    (recorded : s.recordHalt halt = .ok t) : t.Answers := by
  cases halt with
  | negativeLoop loop =>
    cases recorded
    exact answers_of_finished rfl
  | sumOverflow lhs rhs => cases recorded
  | timeout =>
    cases recorded
    exact answers_setTimeout s
  | cycleBoundExceeded =>
    cases recorded
    exact answers_setCycleBoundExceeded s

end CheckStatus

namespace CstnChecker

/-- What is known of a checker at each stage. -/
def Sound (c : CstnChecker) : Prop :=
  match c.stage with
  | .uninitialised => c.network.Enclosed ∧ c.status.Unworked
  | .initialised => ∃ z horizon, c.z = some z ∧ c.horizon = some horizon
  | .propagating => True
  | .finished o => o = c.status.outcome ∧ c.status.Answers

def machine : Machine CstnChecker := ⟨stage, status, initialise, check, initialiseAndCheck⟩

variable {c c' : CstnChecker}

theorem initialise_idle (stage : c.stage ≠ .uninitialised) : c.initialise = (c, .ok ()) := if_pos stage

theorem initialise_of_fresh (sound : c.Sound) (stage : c.stage = .uninitialised)
    {answer : Except Failure Unit} (run : c.initialise = (c', answer)) :
    c'.Sound ∧ (answer = .ok () ∧ c'.stage = .initialised ∨ ∃ e, answer = .error e ∧
      c'.stage = .uninitialised ∧ c'.status.Unworked ∧ e.Within fun _ => False) := by
  have known : c.network.Enclosed ∧ c.status.Unworked := by rwa [Sound, stage] at sound
  have keeps : Preparation.Keeps (fun _ => False) (prepare c.options.withNodeLabels)
    ⟨c.network, c.status.fixes⟩ fun _ _ => True := keeps_prepare known.1 c.options.withNodeLabels
  rw [initialise, if_neg (by simp [stage])] at run
  unfold Preparation.Keeps Ends at keeps
  cases prepared : (prepare c.options.withNodeLabels).run ⟨c.network, c.status.fixes⟩ with
  | ok r d =>
    rw [prepared] at run
    obtain ⟨z, horizon⟩ := r
    cases run
    exact ⟨⟨z, horizon, rfl, rfl⟩, Or.inl ⟨rfl, rfl⟩⟩
  | error e d =>
    rw [prepared] at keeps run
    cases run
    have unworked : ({ c.status with fixes := d.fixes } : CheckStatus).Unworked :=
      ⟨known.2.cycles, known.2.applied, known.2.stnu⟩
    refine ⟨?_, Or.inr ⟨e, rfl, stage, unworked, keeps.2⟩⟩
    dsimp only [Sound]
    rw [stage]
    exact ⟨keeps.1, unworked⟩

theorem check_of_finished {o : Outcome} (finished : c.stage = .finished o) (stops : Polls) :
    c.check stops = (c, .ok c.status) := by
  unfold check checkCounting
  rw [if_pos (by rw [finished]; rfl)]

theorem check_of_rejected {e : Failure} (stage : c.stage = .uninitialised)
    (rejected : c.initialise = (c', .error e)) (stops : Polls) : c.check stops = (c', .error e) := by
  unfold check checkCounting
  rw [if_neg (by simp [stage, Stage.isFinished]), rejected]

theorem check_of_initialised (stage : c.stage = .uninitialised) (stage' : c'.stage = .initialised)
    (ready : c.initialise = (c', .ok ())) (stops : Polls) : c.check stops = c'.check stops := by
  have idle : c'.initialise = (c', .ok ()) := initialise_idle (by simp [stage'])
  unfold check checkCounting
  rw [if_neg (by simp [stage, Stage.isFinished]), if_neg (by simp [stage', Stage.isFinished]), ready,
    idle]

theorem check_of_propagating (stage : c.stage = .propagating) (stops : Polls) :
    c.check stops = (c, .error (.fault .halfPropagated)) := by
  have idle : c.initialise = (c, .ok ()) := initialise_idle (by simp [stage])
  unfold check checkCounting
  rw [if_neg (by simp [stage, Stage.isFinished]), idle]
  dsimp only
  rw [stage]

theorem check_of_ready (sound : c.Sound) (stage : c.stage = .initialised) {stops : Polls}
    {answer : Except Failure CheckStatus} (run : c.check stops = (c', answer)) :
    c'.Sound ∧ ((∃ s, answer = .ok s ∧ c'.stage = .finished s.outcome) ∨
      ∃ e, answer = .error e ∧ c'.stage = .propagating ∧ e.Within fun _ => False) := by
  obtain ⟨z, horizon, reference, known⟩ : ∃ z horizon, c.z = some z ∧ c.horizon = some horizon := by
    rwa [Sound, stage] at sound
  have idle : c.initialise = (c, .ok ()) := initialise_idle (by simp [stage])
  unfold check checkCounting at run
  rw [if_neg (by simp [stage, Stage.isFinished]), idle] at run
  dsimp only at run
  rw [stage, reference, known] at run
  dsimp only at run
  -- Only how the run came to its halt is needed from here on, and that its network is still within
  -- range.
  generalize c.status.propagate _ _ _ _ = result at run
  obtain ⟨g, status, polls, halt⟩ := result
  -- A fixpoint is followed by the check of the projection; every other end is recorded as it is.
  cases halt with
  | none =>
    cases run
    exact ⟨⟨rfl, CheckStatus.answers_of_finished rfl⟩, Or.inl ⟨_, rfl, rfl⟩⟩
  | some halt =>
    dsimp only at run
    cases recorded : status.recordHalt halt with
    | ok s =>
      rw [recorded] at run
      cases run
      exact ⟨⟨rfl, CheckStatus.answers_of_recordHalt recorded⟩, Or.inl ⟨s, rfl, rfl⟩⟩
    | error e =>
      rw [recorded] at run
      cases run
      exact ⟨trivial, Or.inr ⟨_, rfl, rfl, Preparation.within_range _⟩⟩

theorem lawful : machine.Lawful Sound where
  idle _ stage := initialise_idle stage
  initialises c c' answer sound stage run := by
    obtain ⟨sound', ready | ⟨e, error, stage', unworked, within⟩⟩ :=
      initialise_of_fresh sound stage run
    · exact ⟨sound', Or.inl ready⟩
    · exact ⟨sound', Or.inr ⟨e, error, stage', unworked, fun f same => (within f same).elim⟩⟩
  check_finished _ _ stops finished := check_of_finished finished stops
  check_propagating _ stops stage := check_of_propagating stage stops
  check_rejected _ _ _ stops stage rejected := check_of_rejected stage rejected stops
  check_initialised _ _ stops stage ready stage' := check_of_initialised stage stage' ready stops
  checks _ _ _ _ sound stage run := check_of_ready sound stage run
  outcome c o sound finished := by
    have known : o = c.status.outcome ∧ c.status.Answers := by
      rwa [Sound, show c.stage = _ from finished] at sound
    exact ⟨known.1, known.1 ▸ known.2⟩
  timed c := ⟨c.options.polls, rfl⟩

/-- A new checker of an enclosed network answers, or fails without a fault. -/
theorem check_ofNetwork {g : LabeledNetwork} (enclosed : g.Enclosed) (options : CheckerOptions)
    (rules : RuleSet) (stops : Polls) :
    (∃ s, ((ofNetwork g options rules).check stops).2 = .ok s ∧ s.Answers) ∨
      ∃ e, ((ofNetwork g options rules).check stops).2 = .error e ∧ e.Within fun _ => False := by
  have sound : (ofNetwork g options rules).Sound := ⟨enclosed, rfl, rfl, rfl⟩
  obtain ⟨c, answer, run⟩ : ∃ c answer, (ofNetwork g options rules).initialise = (c, answer) :=
    ⟨_, _, rfl⟩
  obtain ⟨sound', ⟨rfl, stage⟩ | ⟨e, rfl, _, _, within⟩⟩ := initialise_of_fresh sound rfl run
  · rw [check_of_initialised rfl stage run]
    obtain ⟨c', answer', run'⟩ : ∃ c' answer', c.check stops = (c', answer') := ⟨_, _, rfl⟩
    rw [run']
    obtain ⟨sound'', ⟨s, rfl, finished⟩ | ⟨e, rfl, _, within⟩⟩ := check_of_ready sound' stage run'
    · rw [Sound, finished] at sound''
      refine Or.inl ⟨s, rfl, ?_⟩
      rw [CheckStatus.Answers, sound''.1]
      exact sound''.2
    · exact Or.inr ⟨e, rfl, within⟩
  · rw [check_of_rejected rfl run]
    exact Or.inr ⟨e, rfl, within⟩

end CstnChecker

namespace Network.Enclosed

variable {g : LabeledNetwork}

theorem allMaxProjection (enclosed : g.Enclosed) : g.allMaxProjection.Enclosed :=
  enclosed.of_sameNodes ⟨rfl, rfl, rfl⟩ enclosed.wellFormed.allMaxProjection

theorem propagate (enclosed : g.Enclosed) (s : CheckStatus) (ctx : RuleContext) (stops : Polls)
    (cycleBound : Nat) : (s.propagate g ctx stops cycleBound).1.Enclosed := by
  have reached : ∀ q, Traced ctx ⟨g, s.applied, s.cycles, 0⟩ q → q.network.Enclosed := by
    rintro q ⟨states, merges, trace⟩
    have lasts := trace.accumulates enclosed.wellFormed
    have evolves := lasts.evolves_of_mem lasts.mem_start
    exact enclosed.of_sameNodes ⟨evolves.nodes, evolves.z, evolves.activations⟩
      (lasts.wellFormed q List.mem_cons_self)
  have traced := Propagation.toFixpoint_traced ctx stops cycleBound ⟨g, s.applied, s.cycles, 0⟩
  unfold CheckStatus.propagate
  unfold Ends at traced
  cases run : (Propagation.toFixpoint ctx stops cycleBound).run ⟨g, s.applied, s.cycles, 0⟩ with
  | ok a q =>
    rw [run] at traced
    exact reached q traced
  | error halt q =>
    rw [run] at traced
    exact reached q traced

end Network.Enclosed

namespace CstnuChecker

/-- What is known of a checker at each stage. -/
def Sound (c : CstnuChecker) : Prop :=
  match c.stage with
  | .uninitialised => c.network.Enclosed ∧ c.status.Unworked
  | .initialised => c.network.Enclosed ∧ ∃ z horizon, c.z = some z ∧ c.horizon = some horizon
  | .propagating => True
  | .finished o => o = c.status.outcome ∧ c.status.Answers

def machine : Machine CstnuChecker := ⟨stage, status, initialise, check, initialiseAndCheck⟩

variable {c c' : CstnuChecker}

theorem initialise_idle (stage : c.stage ≠ .uninitialised) : c.initialise = (c, .ok ()) := if_pos stage

theorem initialise_of_fresh (sound : c.Sound) (stage : c.stage = .uninitialised)
    {answer : Except Failure Unit} (run : c.initialise = (c', answer)) :
    c'.Sound ∧ (answer = .ok () ∧ c'.stage = .initialised ∨ ∃ e, answer = .error e ∧
      c'.stage = .uninitialised ∧ c'.status.Unworked ∧ e.Within (· = .overflow)) := by
  have known : c.network.Enclosed ∧ c.status.Unworked := by rwa [Sound, stage] at sound
  have keeps : Preparation.Keeps (· = .overflow) (prepare c.options.withNodeLabels)
    ⟨c.network, c.status.fixes⟩ fun _ _ => True :=
      CstnuChecker.keeps_prepare (by rfl) known.1 c.options.withNodeLabels
  rw [initialise, if_neg (by simp [stage])] at run
  unfold Preparation.Keeps Ends at keeps
  cases prepared : (prepare c.options.withNodeLabels).run ⟨c.network, c.status.fixes⟩ with
  | ok r d =>
    rw [prepared] at keeps run
    obtain ⟨z, links, horizon⟩ := r
    cases run
    exact ⟨⟨keeps.1, z, horizon, rfl, rfl⟩, Or.inl ⟨rfl, rfl⟩⟩
  | error e d =>
    rw [prepared] at keeps run
    cases run
    have unworked : ({ c.status with fixes := d.fixes } : CheckStatus).Unworked :=
      ⟨known.2.cycles, known.2.applied, known.2.stnu⟩
    refine ⟨?_, Or.inr ⟨e, rfl, stage, unworked, keeps.2⟩⟩
    dsimp only [Sound]
    rw [stage]
    exact ⟨keeps.1, unworked⟩

theorem check_of_finished {o : Outcome} (finished : c.stage = .finished o) (stops : Polls) :
    c.check stops = (c, .ok c.status) := by
  unfold check
  rw [if_pos (by rw [finished]; rfl)]

theorem check_of_rejected {e : Failure} (stage : c.stage = .uninitialised)
    (rejected : c.initialise = (c', .error e)) (stops : Polls) : c.check stops = (c', .error e) := by
  unfold check
  rw [if_neg (by simp [stage, Stage.isFinished]), rejected]

theorem check_of_initialised (stage : c.stage = .uninitialised) (stage' : c'.stage = .initialised)
    (ready : c.initialise = (c', .ok ())) (stops : Polls) : c.check stops = c'.check stops := by
  have idle : c'.initialise = (c', .ok ()) := initialise_idle (by simp [stage'])
  unfold check
  rw [if_neg (by simp [stage, Stage.isFinished]), if_neg (by simp [stage', Stage.isFinished]), ready,
    idle]

theorem check_of_propagating (stage : c.stage = .propagating) (stops : Polls) :
    c.check stops = (c, .error (.fault .halfPropagated)) := by
  have idle : c.initialise = (c, .ok ()) := initialise_idle (by simp [stage])
  unfold check
  rw [if_neg (by simp [stage, Stage.isFinished]), idle]
  dsimp only
  rw [stage]

theorem checkProjection_answers {g : LabeledNetwork} (enclosed : g.Enclosed)
    (options : CheckerOptions) (stops : Polls) (s : CheckStatus) :
    (∃ t, checkProjection g options stops s = .ok t ∧ t.Answers) ∨
      ∃ e, checkProjection g options stops s = .error e ∧ e.Within fun _ => False := by
  unfold checkProjection
  rcases CstnChecker.check_ofNetwork enclosed.allMaxProjection { options with onlyToZ := false }
    .full stops with ⟨t, answer, answers⟩ | ⟨e, error, within⟩
  · dsimp only
    rw [answer]
    dsimp only
    unfold CheckStatus.Answers at answers
    cases outcome : t.outcome with
    | consistent => exact Or.inl ⟨_, rfl, CheckStatus.answers_of_finished rfl⟩
    | inconsistent => exact Or.inl ⟨_, rfl, CheckStatus.answers_of_finished rfl⟩
    | timeout => exact Or.inl ⟨_, rfl, CheckStatus.answers_setTimeout _⟩
    | cycleBoundExceeded => exact Or.inl ⟨_, rfl, CheckStatus.answers_setCycleBoundExceeded _⟩
    | notFinished => exact absurd outcome answers
  · dsimp only
    rw [error]
    exact Or.inr ⟨e, rfl, within⟩

theorem check_of_ready (sound : c.Sound) (stage : c.stage = .initialised) {stops : Polls}
    {answer : Except Failure CheckStatus} (run : c.check stops = (c', answer)) :
    c'.Sound ∧ ((∃ s, answer = .ok s ∧ c'.stage = .finished s.outcome) ∨
      ∃ e, answer = .error e ∧ c'.stage = .propagating ∧ e.Within fun _ => False) := by
  obtain ⟨enclosed, z, horizon, reference, known⟩ : c.network.Enclosed ∧
      ∃ z horizon, c.z = some z ∧ c.horizon = some horizon := by
    rwa [Sound, stage] at sound
  have idle : c.initialise = (c, .ok ()) := initialise_idle (by simp [stage])
  unfold check at run
  rw [if_neg (by simp [stage, Stage.isFinished]), idle] at run
  dsimp only at run
  rw [stage, reference, known] at run
  dsimp only at run
  have enclosed' := enclosed.propagate c.status (c.context z horizon) stops
    (c.network.cycleBound horizon.maxWeight)
  generalize c.status.propagate _ _ _ _ = result at run enclosed'
  obtain ⟨g, status, polls, halt⟩ := result
  cases halt with
  | none =>
    dsimp only at run enclosed'
    rcases checkProjection_answers enclosed' c.options (fun k => stops (polls + k)) status with
      ⟨s, projected, answers⟩ | ⟨e, projected, within⟩
    · rw [projected] at run
      cases run
      exact ⟨⟨rfl, answers⟩, Or.inl ⟨s, rfl, rfl⟩⟩
    · rw [projected] at run
      cases run
      exact ⟨trivial, Or.inr ⟨e, rfl, rfl, within⟩⟩
  | some halt =>
    dsimp only at run
    cases recorded : status.recordHalt halt with
    | ok s =>
      rw [recorded] at run
      cases run
      exact ⟨⟨rfl, CheckStatus.answers_of_recordHalt recorded⟩, Or.inl ⟨s, rfl, rfl⟩⟩
    | error e =>
      rw [recorded] at run
      cases run
      exact ⟨trivial, Or.inr ⟨_, rfl, rfl, Preparation.within_range _⟩⟩

theorem lawful : machine.Lawful Sound where
  idle _ stage := initialise_idle stage
  initialises _ _ _ sound stage run := initialise_of_fresh sound stage run
  check_finished _ _ stops finished := check_of_finished finished stops
  check_propagating _ stops stage := check_of_propagating stage stops
  check_rejected _ _ _ stops stage rejected := check_of_rejected stage rejected stops
  check_initialised _ _ stops stage ready stage' := check_of_initialised stage stage' ready stops
  checks _ _ _ _ sound stage run := check_of_ready sound stage run
  outcome c o sound finished := by
    have known : o = c.status.outcome ∧ c.status.Answers := by
      rwa [Sound, show c.stage = _ from finished] at sound
    exact ⟨known.1, known.1 ▸ known.2⟩
  timed c := ⟨c.options.polls, rfl⟩

end CstnuChecker

namespace StnuChecker

/-- What is known of a checker at each stage. -/
def Sound (c : StnuChecker) : Prop :=
  match c.stage with
  | .uninitialised => c.network.Enclosed ∧ c.status.Unworked
  | .initialised => True
  | .propagating => True
  | .finished o => o = c.status.outcome ∧ c.status.Answers

def machine : Machine StnuChecker := ⟨stage, status, initialise, check, initialiseAndCheck⟩

variable {c c' : StnuChecker}

theorem initialise_idle (stage : c.stage ≠ .uninitialised) : c.initialise = (c, .ok ()) := if_pos stage

theorem initialise_of_fresh (sound : c.Sound) (stage : c.stage = .uninitialised)
    {answer : Except Failure Unit} (run : c.initialise = (c', answer)) :
    c'.Sound ∧ (answer = .ok () ∧ c'.stage = .initialised ∨ ∃ e, answer = .error e ∧
      c'.stage = .uninitialised ∧ c'.status.Unworked ∧ e.Within (· = .overflow)) := by
  have known : c.network.Enclosed ∧ c.status.Unworked := by rwa [Sound, stage] at sound
  have keeps : Preparation.Keeps (· = .overflow) StnuLink.prepareAll
    ⟨c.network, c.status.fixes⟩ fun _ _ => True := StnuLink.keeps_prepareAll (by rfl) known.1
  rw [initialise, if_neg (by simp [stage])] at run
  unfold Preparation.Keeps Ends at keeps
  cases prepared : StnuLink.prepareAll.run ⟨c.network, c.status.fixes⟩ with
  | ok links d =>
    rw [prepared] at run
    cases run
    exact ⟨trivial, Or.inl ⟨rfl, rfl⟩⟩
  | error e d =>
    rw [prepared] at keeps run
    cases run
    have unworked : ({ c.status with fixes := d.fixes } : CheckStatus).Unworked :=
      ⟨known.2.cycles, known.2.applied, known.2.stnu⟩
    refine ⟨?_, Or.inr ⟨e, rfl, stage, unworked, keeps.2⟩⟩
    dsimp only [Sound]
    rw [stage]
    exact ⟨keeps.1, unworked⟩

theorem check_of_finished {o : Outcome} (finished : c.stage = .finished o) (stops : Polls) :
    c.check stops = (c, .ok c.status) := by
  unfold check
  rw [if_pos (by rw [finished]; rfl)]

theorem check_of_rejected {e : Failure} (stage : c.stage = .uninitialised)
    (rejected : c.initialise = (c', .error e)) (stops : Polls) : c.check stops = (c', .error e) := by
  unfold check
  rw [if_neg (by simp [stage, Stage.isFinished]), rejected]

theorem check_of_initialised (stage : c.stage = .uninitialised) (stage' : c'.stage = .initialised)
    (ready : c.initialise = (c', .ok ())) (stops : Polls) : c.check stops = c'.check stops := by
  have idle : c'.initialise = (c', .ok ()) := initialise_idle (by simp [stage'])
  unfold check
  rw [if_neg (by simp [stage, Stage.isFinished]), if_neg (by simp [stage', Stage.isFinished]), ready,
    idle]

theorem check_of_propagating (stage : c.stage = .propagating) (stops : Polls) :
    c.check stops = (c, .error (.fault .halfPropagated)) := by
  have idle : c.initialise = (c, .ok ()) := initialise_idle (by simp [stage])
  unfold check
  rw [if_neg (by simp [stage, Stage.isFinished]), idle]
  dsimp only
  rw [if_pos (by simp [stage])]

theorem check_of_ready (stage : c.stage = .initialised) {stops : Polls}
    {answer : Except Failure CheckStatus} (run : c.check stops = (c', answer)) :
    c'.Sound ∧ ((∃ s, answer = .ok s ∧ c'.stage = .finished s.outcome) ∨
      ∃ e, answer = .error e ∧ c'.stage = .propagating ∧ e.Within fun _ => False) := by
  have idle : c.initialise = (c, .ok ()) := initialise_idle (by simp [stage])
  unfold check at run
  rw [if_neg (by simp [stage, Stage.isFinished]), idle] at run
  dsimp only at run
  rw [if_neg (by simp [stage])] at run
  generalize runAlgorithm _ _ _ _ _ = result at run
  obtain ⟨g, statistics, links, interruption⟩ := result
  cases interruption with
  | none =>
    cases run
    exact ⟨⟨rfl, CheckStatus.answers_of_finished rfl⟩, Or.inl ⟨_, rfl, rfl⟩⟩
  | some interruption =>
    cases interruption with
    | notControllable =>
      cases run
      exact ⟨⟨rfl, CheckStatus.answers_of_finished rfl⟩, Or.inl ⟨_, rfl, rfl⟩⟩
    | timeout =>
      cases run
      exact ⟨⟨rfl, CheckStatus.answers_setTimeout _⟩, Or.inl ⟨_, rfl, rfl⟩⟩
    | range e =>
      cases run
      exact ⟨trivial, Or.inr ⟨_, rfl, rfl, Preparation.within_range _⟩⟩

theorem lawful : machine.Lawful Sound where
  idle _ stage := initialise_idle stage
  initialises _ _ _ sound stage run := initialise_of_fresh sound stage run
  check_finished _ _ stops finished := check_of_finished finished stops
  check_propagating _ stops stage := check_of_propagating stage stops
  check_rejected _ _ _ stops stage rejected := check_of_rejected stage rejected stops
  check_initialised _ _ stops stage ready stage' := check_of_initialised stage stage' ready stops
  checks _ _ _ _ _ stage run := check_of_ready stage run
  outcome c o sound finished := by
    have known : o = c.status.outcome ∧ c.status.Answers := by
      rwa [Sound, show c.stage = _ from finished] at sound
    exact ⟨known.1, known.1 ▸ known.2⟩
  timed c := ⟨c.options.polls, rfl⟩

end StnuChecker

end TemporalNetwork
