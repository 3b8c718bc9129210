import TemporalNetwork.Proofs.Conditional.Application

/-!
Traces of a propagation: the states it passes through, one for each value that it merges and each
time it counts a pass or a poll. However a propagation ends, there is a trace to the state it ends in,
and it ends for lack of time only if it is told to stop.
-/

namespace TemporalNetwork

/-- A derived value that has been merged into the edge between two nodes. -/
structure Merge where
  rule : Rule
  source : NodeId
  target : NodeId
  before : LabeledNetwork
  after : LabeledNetwork

/-- Whether the contents of the edge have changed. -/
def Merge.changes (m : Merge) : Bool :=
  m.after.edgeBetween? m.source m.target != m.before.edgeBetween? m.source m.target

/-- The states and merges on the way from `start` to a state, the latest ones first. A value that is
merged has been derived in the present state or in an earlier one. -/
inductive Trace (ctx : RuleContext) (start : Progress) :
    List Progress → List Merge → Progress → Prop
  | start : Trace ctx start [] [] start
  | count {states merges p q} (before : Trace ctx start states merges p)
      (network : q.network = p.network) (applied : q.applied = p.applied) :
      Trace ctx start (p :: states) merges q
  | merge {states merges p k case label value} (a : Application)
      (before : Trace ctx start states merges p) (possible : a.Possible ctx)
      (earlier : k ∈ p :: states) (derived : .value case label value ∈ a.derivations ctx k.network) :
      Trace ctx start (p :: states)
        (⟨a.rule ctx, a.source, a.target, p.network,
          (p.merge (a.rule ctx) a.source a.target case label value).1.network⟩ :: merges)
        (p.merge (a.rule ctx) a.source a.target case label value).1

/-- Whether a trace leads from `start` to the state. -/
def Traced (ctx : RuleContext) (start p : Progress) : Prop :=
  ∃ states merges, Trace ctx start states merges p

namespace Propagation

variable {ctx : RuleContext} {stops : Polls} {start : Progress} {α β : Type}

/-- Whether a computation that is interrupted has been told to stop. -/
def Interrupted (stops : Polls) (halt : Halt) : Prop := halt = .timeout → ∃ k, stops k = true

theorem interrupted_of_ne {halt : Halt} (other : halt ≠ .timeout) : Interrupted stops halt :=
  fun same => absurd same other

/-- Whether the computation takes a state with a trace to a state with a trace, however it ends. -/
def Tracing (ctx : RuleContext) (stops : Polls) (start : Progress) (m : Propagation α) : Prop :=
  ∀ p, Traced ctx start p → Ends m p (fun _ q => Traced ctx start q)
    (fun halt q => Interrupted stops halt ∧ Traced ctx start q)

theorem tracing_pure (a : α) : Tracing ctx stops start (pure a) := fun _ traced => traced

theorem tracing_throw {h : Halt} (interrupted : Interrupted stops h) :
    Tracing ctx stops start (throw h : Propagation α) :=
  fun _ traced => ⟨interrupted, traced⟩

theorem tracing_get : Tracing ctx stops start get := fun _ traced => traced

theorem Tracing.bind {m : Propagation α} {f : α → Propagation β} (first : Tracing ctx stops start m)
    (rest : ∀ a, Tracing ctx stops start (f a)) : Tracing ctx stops start (m >>= f) :=
  fun p traced => (first p traced).bind fun a q traced' => rest a q traced'

theorem Tracing.foldlM {f : β → α → Propagation β} (todo : List α) (b : β)
    (step : ∀ a ∈ todo, ∀ b, Tracing ctx stops start (f b a)) : Tracing ctx stops start (todo.foldlM f b) := by
  intro p traced
  refine ends_foldlM (fun rest _ q => (∀ a ∈ rest, a ∈ todo) ∧ Traced ctx start q) ?_ todo b p
    ⟨fun _ => id, traced⟩ |>.mono (fun _ _ done => done.2) fun _ _ => id
  rintro a rest b q ⟨listed, traced'⟩
  exact (step a (listed a List.mem_cons_self) b q traced').mono
    (fun _ _ next => ⟨fun x mem => listed x (List.mem_cons_of_mem a mem), next⟩) fun _ _ => id

theorem tracing_countPass :
    Tracing ctx stops start (modify fun p : Progress => { p with cycles := p.cycles + 1 }) := by
  rintro p ⟨states, merges, trace⟩
  exact ⟨_, _, trace.count rfl rfl⟩

theorem tracing_poll : Tracing ctx stops start (poll stops) := by
  rintro p ⟨states, merges, trace⟩
  have next : Traced ctx start { p with polls := p.polls + 1 } := ⟨_, _, trace.count rfl rfl⟩
  cases told : stops p.polls with
  | false =>
    have run : (poll stops).run p = .ok () { p with polls := p.polls + 1 } := by
      simp [EStateM.run, poll, told]
    rw [Ends, run]
    exact next
  | true =>
    have run : (poll stops).run p = .error .timeout { p with polls := p.polls + 1 } := by
      simp [EStateM.run, poll, told]
    rw [Ends, run]
    exact ⟨fun _ => ⟨p.polls, told⟩, next⟩

theorem tracing_apply {a : Application} (possible : a.Possible ctx) {k : Progress}
    (ds : List Derivation) (derived : ∀ d ∈ ds, d ∈ a.derivations ctx k.network)
    {states : List Progress} {merges : List Merge} {p : Progress}
    (trace : Trace ctx start states merges p) (earlier : k ∈ p :: states) :
    Ends (apply (a.rule ctx) a.source a.target ds) p (fun _ q => Traced ctx start q)
      (fun halt q => Interrupted stops halt ∧ Traced ctx start q) := by
  induction ds generalizing states merges p with
  | nil => exact ⟨states, merges, trace⟩
  | cons d rest ih =>
    cases d with
    | value case label value =>
      have merged := trace.merge a possible earlier (derived _ List.mem_cons_self)
      rw [apply, ends_bind, ends_modifyGet, ends_bind]
      exact ih (fun d mem => derived d (List.mem_cons_of_mem _ mem)) merged
        (List.mem_cons_of_mem _ earlier)
    | negativeLoop loop => exact ⟨interrupted_of_ne Halt.noConfusion, states, merges, trace⟩
    | sumOverflow lhs rhs => exact ⟨interrupted_of_ne Halt.noConfusion, states, merges, trace⟩

theorem tracing_perform {a : Application} (possible : a.Possible ctx) :
    Tracing ctx stops start (a.perform ctx) := by
  rintro p ⟨states, merges, trace⟩
  unfold Ends
  rw [a.perform_eq]
  exact tracing_apply possible _ (fun _ => id) trace List.mem_cons_self

theorem tracing_noteIf (changed : Bool) (u v : NodeId) (next : Worklist) :
    Tracing ctx stops start (noteIf changed u v next) := by
  unfold noteIf
  split
  · refine tracing_get.bind fun q => ?_
    split
    · exact tracing_pure _
    · exact tracing_pure _
  · exact tracing_pure _

theorem tracing_observeEdge (next : Worklist) (e : EdgeId) :
    Tracing ctx stops start (observeEdge ctx next e) := by
  refine tracing_get.bind fun p => ?_
  split
  · exact tracing_pure _
  · rename_i source target _ _
    refine (tracing_perform (a := .r0 source target) trivial).bind fun r0 => ?_
    refine (tracing_perform (a := .r3 source target) trivial).bind fun r3 => ?_
    refine tracing_get.bind fun q => ?_
    dsimp only
    split
    · refine .foldlM _ _ fun other _ next => ?_
      exact (tracing_perform (a := .r3 other target) trivial).bind fun _ => tracing_noteIf _ _ _ _
    · exact tracing_pure _

theorem tracing_combineEdge (next : Worklist) (e : EdgeId) :
    Tracing ctx stops start (combineEdge ctx next e) := by
  refine tracing_get.bind fun p => ?_
  split
  · exact tracing_pure _
  · rename_i a b _ _
    refine tracing_get.bind fun q => Tracing.bind (.foldlM _ _ fun w mem next => ?_) fun next => ?_
    -- The loop over successors is left out unless the rules apply everywhere or the path ends in Z.
    · have possible : (Application.labelPropagation a b w).Possible ctx := by
        intro toZ
        rw [if_pos toZ] at mem
        simpa using (List.mem_filter.mp mem).2
      exact (tracing_perform possible).bind fun _ => tracing_noteIf _ _ _ _
    refine tracing_get.bind fun r => Tracing.bind (.foldlM _ _ fun x mem next => ?_) fun next => ?_
    · have possible : (Application.labelPropagation x a b).Possible ctx := by
        intro toZ
        by_contra away
        rw [if_neg (by simp [toZ, away])] at mem
        cases mem
      exact (tracing_perform possible).bind fun _ => tracing_noteIf _ _ _ _
    split
    · exact tracing_pure _
    rename_i linked
    have linked : ctx.links ≠ [] := by simpa using linked
    have crossing : ∀ x y w, Tracing ctx stops start (applyCrossLowerCase ctx x y w) := fun x y w =>
      tracing_perform (a := .crossLowerCase x y w) linked
    have removing : ∀ next : Worklist, Tracing ctx stops start (do
        let removed ← applyLetterRemoval ctx a b
        return if removed then next.insert e else next) := fun next =>
      (tracing_perform (a := .letterRemoval a b) trivial).bind fun _ => tracing_pure _
    refine tracing_get.bind fun s => Tracing.bind (.foldlM _ _ fun w _ next => ?_) fun next => ?_
    · exact (crossing a b w).bind fun _ => tracing_noteIf _ _ _ _
    split
    · rename_i link _
      refine (crossing link.activation a b).bind fun changed => ?_
      exact (tracing_noteIf changed link.activation b next).bind removing
    · exact (tracing_pure _).bind removing

theorem tracing_pass (edges : List EdgeId) :
    Tracing ctx stops start (pass ctx stops edges) := by
  refine Tracing.bind (.foldlM _ _ fun e _ next => tracing_observeEdge next e) fun next => ?_
  exact .foldlM _ _ fun e _ next => tracing_poll.bind fun _ => tracing_combineEdge next e

theorem tracing_passes (remaining : Nat) (edges : List EdgeId) :
    Tracing ctx stops start (passes ctx stops remaining edges) := by
  induction remaining generalizing edges with
  | zero =>
    cases edges with
    | nil => exact tracing_pure _
    | cons e es => exact tracing_countPass.bind fun _ => tracing_throw (interrupted_of_ne Halt.noConfusion)
  | succ remaining ih =>
    cases edges with
    | nil => exact tracing_pure _
    | cons e es =>
      refine tracing_countPass.bind fun _ => ?_
      refine tracing_poll.bind fun _ => (tracing_pass (e :: es)).bind fun next => ?_
      exact ih next.toList

theorem toFixpoint_ends_traced (ctx : RuleContext) (stops : Polls) (cycleBound : Nat)
    (p : Progress) : Ends (toFixpoint ctx stops cycleBound) p (fun _ q => Traced ctx p q)
      (fun halt q => Interrupted stops halt ∧ Traced ctx p q) :=
  tracing_get.bind (fun _ => tracing_passes cycleBound _) p ⟨[], [], .start⟩

/-- However a propagation ends, a trace leads to the state it ends in. -/
theorem toFixpoint_traced (ctx : RuleContext) (stops : Polls) (cycleBound : Nat) (p : Progress) :
    Ends (toFixpoint ctx stops cycleBound) p (fun _ q => Traced ctx p q)
      (fun _ q => Traced ctx p q) :=
  (toFixpoint_ends_traced ctx stops cycleBound p).mono (fun _ _ => id) fun _ _ => And.right

end Propagation

end TemporalNetwork
