import TemporalNetwork.Proofs.Conditional.EveryValue
import TemporalNetwork.Proofs.Conditional.Saturation

/-!
How many passes a propagation takes. A pass after which another one is due has added something. If
every such pass uses up one of the passes that are `left`, the limit is not reached, and a propagation
that is not interrupted ends with a fixpoint or with what a rule derives.
-/

namespace TemporalNetwork

/-- Whether a rule can stop the propagation for this reason. -/
def Halt.Derived (halt : Halt) : Prop := ∃ d : Derivation, d.halt? = some halt

namespace Propagation

variable {ctx : RuleContext} {start g h : LabeledNetwork} {I : LabeledNetwork → Prop} {E : Halt → Prop}

theorem performs_values {P : ValueProperty} (merges : ∀ g : LabeledNetwork, ∀ u v, g.WellFormed →
      u < g.nodeCount → v < g.nodeCount → I g → ∀ case label w, P u v case label w →
      I (g.mergeInto .derived u v case label w).1)
    (derives : ∀ (a : Application) (g : LabeledNetwork), a.Possible ctx → g.WellFormed →
      start.Grows g → I g → ∀ case label w, .value case label w ∈ a.derivations ctx g →
      P a.source a.target case label w) :
    Performs ctx start I Halt.Derived where
  perform a p possible wf grows holds := by
    unfold Ends
    rw [Application.perform_eq]
    refine (apply_values (fun g => merges g a.source a.target) _ _ p wf holds
      (Application.inRange wf) (derives a p.network possible wf grows holds)).mono
      (fun _ _ => id) ?_
    rintro halt _ ⟨d, _, stops⟩
    exact ⟨d, stops⟩

/-- What has happened between the networks `g` and `h` before and after a pass that calls for another
one. -/
structure Passed (ctx : RuleContext) (I : LabeledNetwork → Prop) (g h : LabeledNetwork) : Prop where
  grows : g.Grows h
  made : ∀ a : Application, a.Relevant ctx → ∃ k, Between I g k h ∧
    ∀ d ∈ a.derivations ctx k, d.SettledAt h a.source a.target
  advanced : Advanced ctx I g h

theorem Collecting.passed {next : Worklist} {q : Progress}
    (run : Collecting ctx g I [] [] (fun _ => False) next q) (more : next.toList ≠ []) :
    Passed ctx I g q.network where
  grows := run.running.grows
  made a relevant := by
    rcases run.running.covered a relevant with isDue | ⟨k, between, settled, _⟩ | ⟨_, _, _, _, _, mem⟩
    · exact isDue.elim
    · exact ⟨k, between, settled⟩
    · split at mem <;> cases mem
  advanced := by
    obtain ⟨e, mem⟩ := List.exists_mem_of_ne_nil _ more
    exact run.running.advanced e mem

/-- A propagation that is never interrupted does not reach the limit on its passes if there are always
enough of them left. -/
theorem passes_ends_within (left : Nat → LabeledNetwork → Prop) (keeps : Performs ctx start I E)
    (functional : LinksFunctional ctx) (exhausted : ∀ g, ¬ left 0 g)
    (pass : ∀ n g h, g.WellFormed → start.Grows g → I g → Passed ctx I g h → left (n + 1) g → left n h)
    (remaining : Nat) (edges : List EdgeId) (p : Progress) (pending : Pending ctx start I edges p)
    (enough : edges ≠ [] → left remaining p.network) :
    Ends (passes ctx .never remaining edges) p (fun _ _ => True) (fun halt _ => E halt) := by
  have timely : ∀ n, Polls.never n = true → E .timeout := nofun
  induction remaining generalizing edges p with
  | zero =>
    cases edges with
    | nil => exact trivial
    | cons e es => exact absurd (enough (List.cons_ne_nil e es)) (exhausted p.network)
  | succ remaining ih =>
    cases edges with
    | nil => exact trivial
    | cons e es =>
      have some := enough (List.cons_ne_nil e es)
      rw [passes, ends_bind, ends_modify]
      refine (poll_ends timely _).bind fun _ q same => ?_
      have same' : q.network = p.network := same
      have pending' : Pending ctx start I (e :: es) q := pending.of_network same'
      refine (pending'.pass keeps functional timely).bind fun next r run => ?_
      refine ih next.toList r (pending'.next run) fun more => ?_
      rw [← same'] at some
      exact pass remaining q.network r.network pending'.wellFormed pending'.grows pending'.holds
        (run.passed more) some

theorem toFixpoint_ends_within (left : Nat → LabeledNetwork → Prop) {p : Progress} {limit : Nat}
    (keeps : Performs ctx p.network I E) (functional : LinksFunctional ctx)
    (exhausted : ∀ g, ¬ left 0 g)
    (pass : ∀ n g h, g.WellFormed → p.network.Grows g → I g → Passed ctx I g h → left (n + 1) g →
      left n h)
    (wf : p.network.WellFormed) (holds : I p.network)
    (enough : p.network.edgeIds ≠ [] → left limit p.network) :
    Ends (toFixpoint ctx .never limit) p (fun _ _ => True) (fun halt _ => E halt) := by
  rw [toFixpoint, ends_bind, ends_get]
  exact passes_ends_within left keeps functional exhausted pass limit _ p (Pending.initial wf holds) enough

end Propagation

end TemporalNetwork
