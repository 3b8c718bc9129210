import Mathlib.Data.List.Induction
import TemporalNetwork.Check.Options
import TemporalNetwork.Check.Status
import TemporalNetwork.Proofs.Check.Enclosed

/-!
The life of a checker under a sequence of calls. What single calls do is given by laws of the checker;
that the life is orderly follows by induction on the calls.
-/

namespace TemporalNetwork

/-- What a checker can be asked for. -/
inductive Call where
  | initialise
  | check (stops : Polls)
  | initialiseAndCheck

/-- What the call answers about a status, if it succeeds. -/
def Call.reply (call : Call) (s : CheckStatus) : Option CheckStatus :=
  match call with
  | initialise => none
  | check _ => some s
  | initialiseAndCheck => some s

/-- Whether a checker can go from one stage to the other. -/
def Stage.Precedes (first second : Stage) : Prop :=
  match first, second with
  | uninitialised, _ => True
  | initialised, s => s ≠ uninitialised
  | propagating, s => s ≠ uninitialised ∧ s ≠ initialised
  | finished o, s => s = finished o

theorem Stage.Precedes.refl (s : Stage) : s.Precedes s := by
  cases s <;> simp [Precedes]

/-- No pass, rule application or back-propagation has been counted. -/
structure CheckStatus.Unworked (s : CheckStatus) : Prop where
  cycles : s.cycles = 0
  applied : s.applied = .zero
  stnu : s.stnu = .zero

/-- A kind of checker: what is seen of one and what it can be asked for. -/
structure Machine (C : Type) where
  stage : C → Stage
  status : C → CheckStatus
  initialise : C → C × Except Failure Unit
  check : C → Polls → C × Except Failure CheckStatus
  initialiseAndCheck : C → C × Except Failure CheckStatus

namespace Machine

variable {C : Type} (m : Machine C)

def perform (c : C) : Call → C × Except Failure (Option CheckStatus)
  | .initialise => ((m.initialise c).1, (m.initialise c).2.map fun _ => none)
  | .check stops => ((m.check c stops).1, (m.check c stops).2.map some)
  | .initialiseAndCheck => ((m.initialiseAndCheck c).1, (m.initialiseAndCheck c).2.map some)

/-- The checker after some calls. -/
def after (start : C) (calls : List Call) : C :=
  calls.foldl (fun c call => (m.perform c call).1) start

/-- What single calls do to a checker for which an invariant holds. -/
structure Lawful (I : C → Prop) : Prop where
  idle : ∀ c, m.stage c ≠ .uninitialised → m.initialise c = (c, .ok ())
  initialises : ∀ c c' answer, I c → m.stage c = .uninitialised → m.initialise c = (c', answer) →
    I c' ∧ (answer = .ok () ∧ m.stage c' = .initialised ∨ ∃ e, answer = .error e ∧
      m.stage c' = .uninitialised ∧ (m.status c').Unworked ∧ e.Within (· = .overflow))
  check_finished : ∀ c o stops, m.stage c = .finished o → m.check c stops = (c, .ok (m.status c))
  check_propagating : ∀ c stops, m.stage c = .propagating →
    m.check c stops = (c, .error (.fault .halfPropagated))
  check_rejected : ∀ c c' e stops, m.stage c = .uninitialised → m.initialise c = (c', .error e) →
    m.check c stops = (c', .error e)
  check_initialised : ∀ c c' stops, m.stage c = .uninitialised → m.initialise c = (c', .ok ()) →
    m.stage c' = .initialised → m.check c stops = m.check c' stops
  checks : ∀ c c' answer stops, I c → m.stage c = .initialised → m.check c stops = (c', answer) →
    I c' ∧ ((∃ s, answer = .ok s ∧ m.stage c' = .finished s.outcome) ∨
      ∃ e, answer = .error e ∧ m.stage c' = .propagating ∧ e.Within fun _ => False)
  outcome : ∀ c o, I c → m.stage c = .finished o → o = (m.status c).outcome ∧ o ≠ .notFinished
  timed : ∀ c, ∃ stops, m.initialiseAndCheck c = m.check c stops

/-- What a call can do to a checker and answer. -/
inductive Step (c : C) (call : Call) : C → Except Failure (Option CheckStatus) → Prop
  | settled {o : Outcome} (stage : m.stage c = .finished o) :
    Step c call c (.ok (call.reply (m.status c)))
  | idle (quiet : call = .initialise) (stage : m.stage c = .initialised ∨ m.stage c = .propagating) :
    Step c call c (.ok none)
  | halfway (check : call ≠ .initialise) (stage : m.stage c = .propagating) :
    Step c call c (.error (.fault .halfPropagated))
  | rejected {c' : C} {e : Failure} (stage : m.stage c = .uninitialised)
    (rejects : m.initialise c = (c', .error e)) (stage' : m.stage c' = .uninitialised)
    (unworked : (m.status c').Unworked) (within : e.Within (· = .overflow)) :
    Step c call c' (.error e)
  | initialised {c' : C} (quiet : call = .initialise) (stage : m.stage c = .uninitialised)
    (initialises : m.initialise c = (c', .ok ())) (stage' : m.stage c' = .initialised) :
    Step c call c' (.ok none)
  | answered {c' : C} {s : CheckStatus} (check : call ≠ .initialise)
    (stage : m.stage c = .uninitialised ∨ m.stage c = .initialised)
    (ready : (m.initialise c).2 = .ok ()) (stage' : m.stage c' = .finished s.outcome) :
    Step c call c' (.ok (some s))
  | failed {c' : C} {e : Failure} (check : call ≠ .initialise)
    (stage : m.stage c = .uninitialised ∨ m.stage c = .initialised)
    (ready : (m.initialise c).2 = .ok ()) (stage' : m.stage c' = .propagating)
    (within : e.Within fun _ => False) : Step c call c' (.error e)

section lawful

variable {m : Machine C} {I : C → Prop} (lawful : m.Lawful I) {c : C}

include lawful in
theorem Lawful.step_initialise (holds : I c) :
    m.Step c .initialise (m.initialise c).1 ((m.initialise c).2.map fun _ => none) ∧
      I (m.initialise c).1 := by
  by_cases stage : m.stage c = .uninitialised
  · obtain ⟨c', answer, run⟩ : ∃ c' answer, m.initialise c = (c', answer) := ⟨_, _, rfl⟩
    obtain ⟨holds', ⟨rfl, stage'⟩ | ⟨e, rfl, stage', unworked, within⟩⟩ :=
      lawful.initialises c c' answer holds stage run
    · rw [run]
      exact ⟨.initialised rfl stage run stage', holds'⟩
    · rw [run]
      exact ⟨.rejected stage run stage' unworked within, holds'⟩
  · rw [lawful.idle c stage]
    refine ⟨?_, holds⟩
    cases here : m.stage c with
    | uninitialised => exact absurd here stage
    | initialised => exact .idle rfl (Or.inl here)
    | propagating => exact .idle rfl (Or.inr here)
    | finished o => exact .settled here

include lawful in
theorem Lawful.step_check (holds : I c) {call : Call} (check : call ≠ .initialise)
    (reply : ∀ s, call.reply s = some s) (stops : Polls) :
    m.Step c call (m.check c stops).1 ((m.check c stops).2.map some) ∧ I (m.check c stops).1 := by
  -- The propagation starts from an initialised checker, which is `c` or what initialising it leaves.
  have checks : ∀ c₀, I c₀ → m.stage c₀ = .initialised → m.check c stops = m.check c₀ stops →
      m.stage c = .uninitialised ∨ m.stage c = .initialised → (m.initialise c).2 = .ok () →
      m.Step c call (m.check c stops).1 ((m.check c stops).2.map some) ∧
        I (m.check c stops).1 := by
    intro c₀ holds₀ stage₀ same stage ready
    obtain ⟨c', answer, run⟩ : ∃ c' answer, m.check c₀ stops = (c', answer) := ⟨_, _, rfl⟩
    rw [same, run]
    obtain ⟨holds', ⟨s, rfl, stage'⟩ | ⟨e, rfl, stage', within⟩⟩ :=
      lawful.checks c₀ c' answer stops holds₀ stage₀ run
    · exact ⟨.answered check stage ready stage', holds'⟩
    · exact ⟨.failed check stage ready stage' within, holds'⟩
  cases stage : m.stage c with
  | uninitialised =>
    obtain ⟨c', answer, run⟩ : ∃ c' answer, m.initialise c = (c', answer) := ⟨_, _, rfl⟩
    obtain ⟨holds', ⟨rfl, stage'⟩ | ⟨e, rfl, stage', unworked, within⟩⟩ :=
      lawful.initialises c c' answer holds stage run
    · exact checks c' holds' stage' (lawful.check_initialised c c' stops stage run stage')
        (Or.inl stage) (congrArg Prod.snd run)
    · rw [lawful.check_rejected c c' e stops stage run]
      exact ⟨.rejected stage run stage' unworked within, holds'⟩
  | initialised =>
    have ready := lawful.idle c (by rw [stage]; nofun)
    exact checks c holds stage rfl (Or.inr stage) (congrArg Prod.snd ready)
  | propagating =>
    rw [lawful.check_propagating c stops stage]
    exact ⟨.halfway check stage, holds⟩
  | finished o =>
    rw [lawful.check_finished c o stops stage]
    have settled : m.Step c call c (.ok (call.reply (m.status c))) := .settled stage
    rw [reply] at settled
    exact ⟨settled, holds⟩

include lawful in
theorem Lawful.step (holds : I c) (call : Call) :
    m.Step c call (m.perform c call).1 (m.perform c call).2 ∧ I (m.perform c call).1 := by
  cases call with
  | initialise => exact lawful.step_initialise holds
  | check stops => exact lawful.step_check holds (by nofun) (fun _ => rfl) stops
  | initialiseAndCheck =>
    obtain ⟨stops, same⟩ := lawful.timed c
    rw [perform, same]
    exact lawful.step_check holds (by nofun) (fun _ => rfl) stops

end lawful

theorem after_append (start : C) (calls more : List Call) :
    m.after start (calls ++ more) = m.after (m.after start calls) more := List.foldl_append

theorem after_concat (start : C) (calls : List Call) (call : Call) :
    m.after start (calls ++ [call]) = (m.perform (m.after start calls) call).1 :=
  m.after_append start calls [call]

variable {m}

section

variable {c c' : C} {call : Call} {answer : Except Failure (Option CheckStatus)}

end

section

variable {I : C → Prop} {start : C}

theorem Lawful.after (lawful : m.Lawful I) (holds : I start) (calls : List Call) :
    I (m.after start calls) := by
  induction calls using List.reverseRecOn with
  | nil => exact holds
  | append_singleton calls call ih =>
    rw [after_concat]
    exact (lawful.step ih call).2

end

end Machine

end TemporalNetwork
