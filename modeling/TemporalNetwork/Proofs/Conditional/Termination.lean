import Mathlib.Data.FinEnum
import Mathlib.Data.Int.Interval
import Mathlib.Data.Set.Card
import Mathlib.Order.Interval.Finset.Nat
import TemporalNetwork.Proofs.Conditional.Scale

/-!
Propagation ends by itself. The scale has finitely many values, so there are finitely many bounds on it
that a network does not imply yet. A merge that reports a change makes the network imply one more of
them, and a pass that calls for another one has made such a merge; hence the loop ends even without a
limit on its passes.
-/

namespace TemporalNetwork

instance : Finite Label :=
  Finite.of_injective (fun l : Label => (l.straight, l.negated)) fun _ _ same =>
    Label.ext (congrArg Prod.fst same) (congrArg Prod.snd same)

instance : Finite CaseLabel :=
  Finite.of_injective CaseLabel.mask fun ⟨_⟩ ⟨_⟩ same => congrArg CaseLabel.mk same

/-- A bound that an edge can be given: its ends, the letters and the label, and the value. -/
abbrev EdgeBound := NodeId × NodeId × CaseLabel × Label × Value

namespace Network

variable {g h : LabeledNetwork} {horizon w : Value} {u v : NodeId} {case : CaseLabel} {label : Label}

/-- The bounds on the scale which the network does not imply yet. -/
def openBounds (horizon : Value) (g : LabeledNetwork) : Set EdgeBound := fun (u, v, case, label, w) =>
  u < g.nodeCount ∧ v < g.nodeCount ∧ w.OnScale horizon ∧ ¬ g.Covers u v case label w

/-- How many bounds a network can still be given. -/
noncomputable def openCount (horizon : Value) (g : LabeledNetwork) : Nat := (g.openBounds horizon).ncard

theorem finite_openBounds (horizon : Value) (g : LabeledNetwork) : (g.openBounds horizon).Finite := by
  have scale : {w : Value | w.OnScale horizon}.Finite := by
    refine ((Set.finite_Icc (-horizon) Value.posInf).insert Value.negInf).subset fun w scaled => ?_
    exact scaled.imp_right id
  refine (((Set.finite_Iio g.nodeCount).prod ((Set.finite_Iio g.nodeCount).prod
    ((Set.finite_univ (α := CaseLabel)).prod ((Set.finite_univ (α := Label)).prod scale))))).subset ?_
  rintro ⟨u, v, case, label, w⟩ ⟨hu, hv, scaled, _⟩
  exact ⟨hu, hv, trivial, trivial, scaled⟩

theorem Grows.openBounds (grows : g.Grows h) (horizon : Value) :
    h.openBounds horizon ⊆ g.openBounds horizon := by
  rintro ⟨u, v, case, label, w⟩ ⟨hu, hv, scaled, uncovered⟩
  rw [grows.nodeCount] at hu hv
  exact ⟨hu, hv, scaled, fun covered => uncovered (grows.covers covered)⟩

theorem Grows.openCount_le (grows : g.Grows h) (horizon : Value) :
    h.openCount horizon ≤ g.openCount horizon :=
  Set.ncard_le_ncard (grows.openBounds horizon) (g.finite_openBounds horizon)

/-- A network that comes to imply a further bound can be given fewer of them. -/
theorem Grows.openCount_lt (grows : g.Grows h) (hu : u < g.nodeCount) (hv : v < g.nodeCount)
    (scaled : w.OnScale horizon) (isOpen : ¬ g.Covers u v case label w)
    (covered : h.Covers u v case label w) : h.openCount horizon < g.openCount horizon := by
  refine Set.ncard_lt_ncard (Set.ssubset_iff_subset_ne.mpr ⟨grows.openBounds horizon, fun same => ?_⟩)
    (g.finite_openBounds horizon)
  have mem : (u, v, case, label, w) ∈ g.openBounds horizon := ⟨hu, hv, scaled, isOpen⟩
  rw [← same] at mem
  exact mem.2.2.2 covered

end Network

theorem Progress.openCount_merge {p : Progress} (rule : Rule) (wf : p.network.WellFormed)
    {u v : NodeId} (hu : u < p.network.nodeCount) (hv : v < p.network.nodeCount) (case : CaseLabel)
    (label : Label) {w horizon : Value} (scaled : w.OnScale horizon) :
    (p.merge rule u v case label w).1.network.openCount horizon ≤ p.network.openCount horizon ∧
      ((p.merge rule u v case label w).2 = true →
        (p.merge rule u v case label w).1.network.openCount horizon <
          p.network.openCount horizon) := by
  obtain ⟨grows, settled, _⟩ := merge_spec rule wf hu hv case label w
  refine ⟨grows.toGrows.openCount_le horizon, fun changed => ?_⟩
  have unsettled : ¬ (Derivation.value case label w).SettledAt p.network u v := fun already => by
    rw [merge_of_settled rule wf already] at changed
    cases changed
  obtain ⟨finite, isOpen⟩ := not_or.mp unsettled
  exact grows.toGrows.openCount_lt hu hv scaled isOpen (settled.resolve_left finite)

namespace Propagation

variable {ctx : RuleContext} {stops : Polls} {edges : List EdgeId} {p q : Progress}
  {r r' : EStateM.Result Halt Progress Unit}

theorem Passed.openCount_lt {g h : LabeledNetwork} (unlinked : ctx.links = [])
    (passed : Passed ctx (Network.EveryValue fun _ _ _ _ w => w.OnScale ctx.horizon) g h) :
    h.openCount ctx.horizon < g.openCount ctx.horizon := by
  obtain ⟨k, a, between, possible, d, mem, unsettled, settled⟩ := passed.advanced
  cases d with
  | negativeLoop loop => exact settled.elim
  | sumOverflow lhs rhs => exact settled.elim
  | value case label w =>
    obtain ⟨finite, isOpen⟩ := not_or.mp unsettled
    have scaled := RuleContext.derived_onScale unlinked between.wellFormed between.holds possible mem
    have inside := a.inRange between.wellFormed (List.ne_nil_of_mem mem)
    exact (between.before.openCount_lt inside.1 inside.2 scaled isOpen
      (settled.resolve_left finite)).trans_le (between.after.openCount_le ctx.horizon)

/-- One turn of the loop: a pass with its count and its poll. -/
def turn (ctx : RuleContext) (stops : Polls) (edges : List EdgeId) : Propagation Worklist := do
  modify fun s => { s with cycles := s.cycles + 1 }
  poll stops
  pass ctx stops edges

/-- How the loop ends that makes passes until the worklist is empty, with no limit on their number. -/
inductive Unlimited (ctx : RuleContext) (stops : Polls) :
    List EdgeId → Progress → EStateM.Result Halt Progress Unit → Prop
  | done {p : Progress} : Unlimited ctx stops [] p (.ok () p)
  | halt {e : EdgeId} {es : List EdgeId} {p q : Progress} {h : Halt}
      (stop : (turn ctx stops (e :: es)).run p = .error h q) :
      Unlimited ctx stops (e :: es) p (.error h q)
  | next {e : EdgeId} {es : List EdgeId} {p q : Progress} {next : Worklist}
      {r : EStateM.Result Halt Progress Unit}
      (turned : (turn ctx stops (e :: es)).run p = .ok next q)
      (rest : Unlimited ctx stops next.toList q r) : Unlimited ctx stops (e :: es) p r

theorem passes_cons (remaining : Nat) (e : EdgeId) (es : List EdgeId) :
    passes ctx stops (remaining + 1) (e :: es) =
      turn ctx stops (e :: es) >>= fun next => passes ctx stops remaining next.toList := by
  rw [passes, turn]
  simp only [bind_assoc]

theorem unlimited_of_passes {remaining : Nat}
    (within : ∀ q, (passes ctx stops remaining edges).run p ≠ .error .cycleBoundExceeded q) :
    Unlimited ctx stops edges p ((passes ctx stops remaining edges).run p) := by
  induction remaining generalizing edges p with
  | zero =>
    cases edges with
    | nil => exact .done
    | cons e es => exact absurd rfl (within _)
  | succ remaining ih =>
    cases edges with
    | nil => exact .done
    | cons e es =>
      rw [passes_cons, EStateM.run_bind] at within ⊢
      cases turned : (turn ctx stops (e :: es)).run p with
      | error h q => exact .halt turned
      | ok next q =>
        simp only [turned] at within
        exact .next turned (ih within)

theorem Unlimited.deterministic (first : Unlimited ctx stops edges p r)
    (second : Unlimited ctx stops edges p r') : r = r' := by
  induction first with
  | done =>
    cases second
    rfl
  | halt stop =>
    cases second with
    | halt stop' =>
      rw [stop] at stop'
      cases stop'
      rfl
    | next turned _ =>
      rw [stop] at turned
      cases turned
  | next turned _ ih =>
    cases second with
    | halt stop =>
      rw [turned] at stop
      cases stop
    | next turned' rest =>
      rw [turned] at turned'
      cases turned'
      exact ih rest

/-- Whether the loop ends by itself: in a fixpoint, with a negative loop or with an arithmetic error. -/
def EndsByItself (r : EStateM.Result Halt Progress Unit) : Prop :=
  (∃ q, r = .ok () q) ∨ (∃ loop q, r = .error (.negativeLoop loop) q) ∨
    ∃ lhs rhs q, r = .error (.sumOverflow lhs rhs) q

theorem exists_unlimited (unlinked : ctx.links = []) (wf : p.network.WellFormed)
    (scaled : p.network.EveryValue fun _ _ _ _ w => w.OnScale ctx.horizon) :
    ∃ r, Unlimited ctx .never p.network.edgeIds p r ∧ EndsByItself r := by
  have ends : Ends (passes ctx .never (p.network.openCount ctx.horizon + 1) p.network.edgeIds) p
      (fun _ _ => True) (fun halt _ => halt.Derived) := by
    refine passes_ends_within (fun n g => g.openCount ctx.horizon < n)
      (performs_scaled unlinked p.network) (linksFunctional_of_no_links unlinked)
      (fun _ => Nat.not_lt_zero _) (fun n g h _ _ _ passed some => ?_) _ _ p
      (Pending.initial wf scaled) fun _ => Nat.lt_succ_self _
    exact Nat.lt_of_lt_of_le (passed.openCount_lt unlinked) (Nat.lt_succ_iff.mp some)
  have within : ∀ q, (passes ctx .never (p.network.openCount ctx.horizon + 1)
      p.network.edgeIds).run p ≠ .error .cycleBoundExceeded q := by
    intro q run
    obtain ⟨d, stops⟩ := ends.of_error run
    cases d <;> cases stops
  refine ⟨_, unlimited_of_passes within, ?_⟩
  unfold Ends at ends
  cases run : (passes ctx .never (p.network.openCount ctx.horizon + 1) p.network.edgeIds).run p with
  | ok a q => exact Or.inl ⟨q, rfl⟩
  | error halt q =>
    rw [run] at ends
    obtain ⟨d, stops⟩ := ends
    cases d with
    | value => cases stops
    | negativeLoop loop =>
      cases stops
      exact Or.inr (Or.inl ⟨loop, q, rfl⟩)
    | sumOverflow lhs rhs =>
      cases stops
      exact Or.inr (Or.inr ⟨lhs, rhs, q, rfl⟩)

end Propagation

/-- What holds in a state of a propagation on a scale: no finite value is below the negated horizon, and
the number of open bounds falls with every change that the merge of a derived value reports. -/
structure Descends (ctx : RuleContext) (states : List Progress) (p : Progress) : Prop where
  above : p.network.EveryValue fun _ _ _ _ w => w.IsFinite → -ctx.horizon ≤ w
  falls : ∀ k ∈ p :: states, ∀ a : Application, a.Possible ctx → ∀ case label w,
    .value case label w ∈ a.derivations ctx k.network →
    (p.merge (a.rule ctx) a.source a.target case label w).1.network.openCount ctx.horizon ≤
        p.network.openCount ctx.horizon ∧
      ((p.merge (a.rule ctx) a.source a.target case label w).2 = true →
        (p.merge (a.rule ctx) a.source a.target case label w).1.network.openCount ctx.horizon <
          p.network.openCount ctx.horizon)

theorem Trace.descends {ctx : RuleContext} (unlinked : ctx.links = []) {start p : Progress}
    {states : List Progress} {merges : List Merge} (wf : start.network.WellFormed)
    (scaled : start.network.EveryValue fun _ _ _ _ w => w.OnScale ctx.horizon)
    (trace : Trace ctx start states merges p) : Descends ctx states p := by
  have all := trace.everyValue (Q := fun w => w.OnScale ctx.horizon) (Or.inl rfl)
    (fun _ _ _ _ _ sum => RuleContext.clamp_onScale sum) unlinked wf scaled
  have passed := trace.accumulates wf
  refine ⟨(all p List.mem_cons_self).mono fun _ _ _ _ _ onScale => onScale.neg_le, ?_⟩
  intro k earlier a possible case label w derived
  have inside := passed.inRange earlier derived
  exact Progress.openCount_merge (a.rule ctx) (passed.wellFormed p List.mem_cons_self) inside.1
    inside.2 case label (RuleContext.derived_onScale unlinked (passed.wellFormed k earlier)
      (all k earlier) possible derived)

/-- The propagation of an initialised checker ends by itself: its states descend, and without a limit on
its passes and without interruption the loop has exactly one result. -/
theorem propagation_terminates (g : LabeledNetwork) (wf : g.WellFormed)
    (inRange : ∀ w ∈ g.allValues, w.InRange) (options : CheckerOptions) (rules : RuleSet)
    (c : CstnChecker) (z : NodeId) (horizon : Horizon)
    (ready : (CstnChecker.ofNetwork g options rules).initialise = (c, .ok ())) (hz : c.z = some z)
    (hh : c.horizon = some horizon) (applied : RuleCounts) (cycles polls : Nat) :
    (∀ stops cycleBound,
      Ends (Propagation.toFixpoint (c.context z horizon) stops cycleBound)
        ⟨c.network, applied, cycles, polls⟩
        (fun _ q => Traced (c.context z horizon) ⟨c.network, applied, cycles, polls⟩ q)
        (fun _ q => Traced (c.context z horizon) ⟨c.network, applied, cycles, polls⟩ q)) ∧
    (∀ states merges p,
      Trace (c.context z horizon) ⟨c.network, applied, cycles, polls⟩ states merges p →
      Descends (c.context z horizon) states p) ∧
    ∃ r, (Propagation.Unlimited (c.context z horizon) .never c.network.edgeIds
        ⟨c.network, applied, cycles, polls⟩ r ∧ Propagation.EndsByItself r) ∧
      ∀ r', Propagation.Unlimited (c.context z horizon) .never c.network.edgeIds
        ⟨c.network, applied, cycles, polls⟩ r' → r' = r := by
  have scaled := CstnChecker.scaled_of_initialise wf inRange ready hz hh
  refine ⟨fun stops cycleBound => Propagation.toFixpoint_traced _ stops cycleBound _,
    fun states merges p trace => ?_, ?_⟩
  · refine trace.descends rfl ?_ ?_
    · exact scaled.wellFormed
    · exact scaled.values
  · obtain ⟨r, unlimited, ends⟩ := @Propagation.exists_unlimited (c.context z horizon)
      ⟨c.network, applied, cycles, polls⟩ rfl scaled.wellFormed scaled.values
    exact ⟨r, ⟨unlimited, ends⟩, fun r' other => other.deterministic unlimited⟩

/-- The propagation of the observed network. -/
theorem propagation_terminates_observed :
    ∃ c z horizon, (CstnChecker.ofNetwork observedNetwork untimed .full).initialise = (c, .ok ()) ∧
      c.z = some z ∧ c.horizon = some horizon ∧ ∃ r,
        Propagation.Unlimited (c.context z horizon) .never c.network.edgeIds
          ⟨c.network, .zero, 0, 0⟩ r ∧ Propagation.EndsByItself r := by
  have answered : ((CstnChecker.ofNetwork observedNetwork untimed .full).initialise.2.toOption
      ).isSome = true := by decide +kernel
  cases ready : (CstnChecker.ofNetwork observedNetwork untimed .full).initialise with
  | mk c answer =>
    rw [ready] at answered
    cases answer with
    | error e => cases answered
    | ok _ =>
      obtain ⟨z, horizon, _, _, same⟩ := CstnChecker.prepare_of_initialise ready
      have hz : c.z = some z := by rw [same]
      have hh : c.horizon = some horizon := by rw [same]
      obtain ⟨_, _, r, ends, _⟩ := propagation_terminates observedNetwork
        (Network.wellFormed_getD_build _ _) (by decide +kernel) untimed .full c z horizon ready hz hh
        .zero 0 0
      exact ⟨c, z, horizon, rfl, hz, hh, r, ends⟩

end TemporalNetwork
