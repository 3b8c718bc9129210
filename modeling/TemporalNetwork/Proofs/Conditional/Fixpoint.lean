import TemporalNetwork.Proofs.Conditional.Preparation
import TemporalNetwork.Proofs.Conditional.Saturation

/-!
A fixpoint of either checker is saturated: making any application of any enabled rule once more
answers that nothing has changed, and nothing has.
-/

namespace TemporalNetwork

/-- An edge with one value. -/
def LabeledEdge.ofValue (kind : ConstraintKind) (label : Label) (value : Value) : LabeledEdge :=
  { LabeledEdge.ofKind kind with values := ⟨[(label, value)]⟩ }

/-- No application of an enabled rule to the network `g` changes anything. -/
structure Saturated (ctx : RuleContext) (g : LabeledNetwork) : Prop where
  r0 : ∀ p : Progress, p.network = g → ∀ observer target,
    (Propagation.applyR0 ctx observer target).run p = .ok false p
  r3 : ∀ p : Progress, p.network = g → ∀ source target,
    (Propagation.applyR3 ctx source target).run p = .ok false p
  labelPropagation : ∀ p : Progress, p.network = g → ∀ x y w, (ctx.onlyToZ = true → w = ctx.z) →
    (Propagation.applyLabelPropagation ctx x y w).run p = .ok false p
  crossLowerCase : ∀ p : Progress, p.network = g → ∀ link ∈ ctx.links, ∀ w,
    (Propagation.applyCrossLowerCase ctx link.activation link.contingent w).run p = .ok false p
  letterRemoval : ∀ p : Progress, p.network = g → ∀ x activation,
    (Propagation.applyLetterRemoval ctx x activation).run p = .ok false p

theorem Saturated.of_settled {ctx : RuleContext} {g : LabeledNetwork} (wf : g.WellFormed)
    (settled : ∀ a : Application, a.Relevant ctx → a.Settled ctx g) : Saturated ctx g where
  r0 p same observer target := by
    subst same
    exact Application.perform_of_settled wf (settled (.r0 observer target) trivial)
  r3 p same source target := by
    subst same
    exact Application.perform_of_settled wf (settled (.r3 source target) trivial)
  labelPropagation p same x y w toZ := by
    subst same
    exact Application.perform_of_settled wf (settled (.labelPropagation x y w) toZ)
  crossLowerCase p same link mem w := by
    subst same
    exact Application.perform_of_settled wf
      (settled (.crossLowerCase link.activation link.contingent w) ⟨link, mem, rfl, rfl⟩)
  letterRemoval p same x activation := by
    subst same
    exact Application.perform_of_settled wf (settled (.letterRemoval x activation) trivial)

theorem Propagation.keeps_nothing (ctx : RuleContext) (start : LabeledNetwork) :
    Keeps ctx start (fun _ => True) (fun _ => True) where
  perform a p _ wf _ _ := (a.perform_ends ctx p wf).mono (fun _ _ _ => trivial) fun _ _ _ => trivial
  timeout := trivial
  cycleBoundExceeded := trivial

/-- What applications keep, a propagation keeps as long as it runs. -/
theorem Propagation.Performs.keeps {ctx : RuleContext} {start : LabeledNetwork}
    {I : LabeledNetwork → Prop} {E : Halt → Prop} (performs : Performs ctx start I E) :
    Keeps ctx start I (fun _ => True) where
  perform a p possible wf grows holds :=
    (performs.perform a p possible wf grows holds).mono (fun _ _ => id) fun _ _ _ => trivial
  timeout := trivial
  cycleBoundExceeded := trivial

theorem Propagation.toFixpoint_saturated {ctx : RuleContext} (functional : LinksFunctional ctx)
    {stops : Polls} {cycleBound : Nat} {p q : Progress} (wf : p.network.WellFormed)
    (run : (toFixpoint ctx stops cycleBound).run p = .ok () q) : Saturated ctx q.network := by
  obtain ⟨wf', _, _, settled⟩ := (toFixpoint_ends (keeps_nothing ctx p.network) functional stops
    cycleBound wf trivial).of_ok run
  exact .of_settled wf' settled

theorem CstnChecker.wellFormed_of_initialise {g : LabeledNetwork} (wf : g.WellFormed)
    {options : CheckerOptions} {rules : RuleSet} {c : CstnChecker}
    (ready : (ofNetwork g options rules).initialise = (c, .ok ())) : c.network.WellFormed := by
  obtain ⟨z, horizon, d, run, rfl⟩ := prepare_of_initialise ready
  obtain ⟨h, _, wf', hz, _, _, _, known, bounded⟩ :=
    (prepare_ends WellDefined.kept_wellFormed wf wf).of_ok run
  have finite : horizon.value ≠ Value.posInf := ne_of_lt (Network.horizon?_spec known).1.2
  exact bounded ▸ (Network.addBounds_spec wf' hz horizon.value finite _).1

theorem CstnuChecker.wellFormed_of_initialise {g : LabeledNetwork} (wf : g.WellFormed)
    {options : CheckerOptions} {c : CstnuChecker}
    (ready : (ofNetwork g options).initialise = (c, .ok ())) :
    c.network.WellFormed ∧ ∀ link ∈ c.links, ∀ link' ∈ c.links,
      link.contingent = link'.contingent → link.activation = link'.activation := by
  obtain ⟨z, links, horizon, d, run, rfl⟩ := prepare_of_initialise ready
  obtain ⟨h, _, wf', hz, entered, known, bounded⟩ :=
    (prepare_ends WellDefined.kept_wellFormed ContingentLink.kept_wellFormed wf wf).of_ok run
  have finite : horizon.value ≠ Value.posInf := ne_of_lt (Network.horizon?_spec known).1.2
  refine ⟨bounded ▸ (Network.addBounds_spec wf' hz horizon.value finite _).1, ?_⟩
  intro link mem link' mem' same
  have start := entered link mem
  rw [same, entered link' mem'] at start
  exact (Option.some.inj start).symm

/-- Worklist completeness: whenever the propagation of an initialised checker ends with a fixpoint,
the final network is saturated. -/
theorem fixpoint_saturated (g : LabeledNetwork) (wf : g.WellFormed) (options : CheckerOptions)
    (rules : RuleSet) (stops : Polls) (cycleBound : Nat) (applied : RuleCounts)
    (cycles polls : Nat) :
    (∀ c z horizon p, (CstnChecker.ofNetwork g options rules).initialise = (c, .ok ()) →
      c.z = some z → c.horizon = some horizon →
      (Propagation.toFixpoint (c.context z horizon) stops cycleBound).run
        ⟨c.network, applied, cycles, polls⟩ = .ok () p →
      Saturated (c.context z horizon) p.network) ∧
    (∀ c z horizon p, (CstnuChecker.ofNetwork g options).initialise = (c, .ok ()) →
      c.z = some z → c.horizon = some horizon →
      (Propagation.toFixpoint { c.context z horizon with rules := rules } stops cycleBound).run
        ⟨c.network, applied, cycles, polls⟩ = .ok () p →
      Saturated { c.context z horizon with rules := rules } p.network) := by
  constructor
  · intro c z horizon p ready _ _ run
    exact Propagation.toFixpoint_saturated (Propagation.linksFunctional_of_no_links rfl)
      (CstnChecker.wellFormed_of_initialise wf ready) run
  · intro c z horizon p ready _ _ run
    obtain ⟨wf', functional⟩ := CstnuChecker.wellFormed_of_initialise wf ready
    have functional' : Propagation.LinksFunctional { c.context z horizon with rules := rules } :=
      functional
    exact Propagation.toFixpoint_saturated functional' wf' run

/-- An observation decides how long to wait. -/
def observedNetwork : LabeledNetwork :=
  (Network.build
    [.named "Z", { Node.named "P" with observed := some 0 }, .named "X"]
    [("wait", 2, 0, .ofValue .ordinary (.ofLiteral ⟨0, .straight⟩) (-5)),
      ("hurry", 0, 2, .ofValue .ordinary (.ofLiteral ⟨0, .negated⟩) 3),
      ("look", 1, 0, .ofValue .ordinary .empty (-1))]).getD .empty

/-- A link whose start is bounded. -/
def linkedNetwork : LabeledNetwork :=
  (Network.build [.named "Z", .named "A", .named "C"]
    [("latest", 1, 2, .ofValue .contingent .empty 4),
      ("earliest", 2, 1, .ofValue .contingent .empty (-1)),
      ("start", 1, 0, .ofValue .ordinary .empty (-2))]).getD .empty

def untimed : CheckerOptions := ⟨none, false, false, .rul2020⟩

/-- Both checkers reach a fixpoint on networks in which the rules derive something. -/
theorem fixpoint_saturated_small :
    (∃ c z horizon p,
      (CstnChecker.ofNetwork observedNetwork untimed .full).initialise = (c, .ok ()) ∧
      c.z = some z ∧ c.horizon = some horizon ∧
      (Propagation.toFixpoint (c.context z horizon) .never 100).run ⟨c.network, .zero, 0, 0⟩ =
        .ok () p ∧ Saturated (c.context z horizon) p.network) ∧
    (∃ c z horizon p,
      (CstnuChecker.ofNetwork linkedNetwork untimed).initialise = (c, .ok ()) ∧
      c.z = some z ∧ c.horizon = some horizon ∧
      (Propagation.toFixpoint (c.context z horizon) .never 100).run ⟨c.network, .zero, 0, 0⟩ =
        .ok () p ∧ Saturated (c.context z horizon) p.network) := by
  have observed := fixpoint_saturated observedNetwork (Network.wellFormed_getD_build _ _) untimed
    .full .never 100 .zero 0 0
  have linked := fixpoint_saturated linkedNetwork (Network.wellFormed_getD_build _ _) untimed
    CstnuChecker.rules .never 100 .zero 0 0
  -- The fixpoint is found by evaluation; that it is saturated is the theorem.
  constructor
  · have ready : (CstnChecker.ofNetwork observedNetwork untimed .full).initialise =
        ((CstnChecker.ofNetwork observedNetwork untimed .full).initialise.1, .ok ()) :=
      Prod.ext rfl (by decide +kernel)
    have z : (CstnChecker.ofNetwork observedNetwork untimed .full).initialise.1.z = some 0 := by
      decide +kernel
    have horizon : (CstnChecker.ofNetwork observedNetwork untimed .full).initialise.1.horizon =
        some ⟨5, 15⟩ := by decide +kernel
    obtain ⟨_, p, run⟩ := exists_of_succeeds (m := Propagation.toFixpoint
      ((CstnChecker.ofNetwork observedNetwork untimed .full).initialise.1.context 0 ⟨5, 15⟩)
      .never 100)
      (s := ⟨(CstnChecker.ofNetwork observedNetwork untimed .full).initialise.1.network, .zero, 0,
        0⟩) (by decide +kernel)
    exact ⟨_, _, _, p, ready, z, horizon, run, observed.1 _ _ _ p ready z horizon run⟩
  · have ready : (CstnuChecker.ofNetwork linkedNetwork untimed).initialise =
        ((CstnuChecker.ofNetwork linkedNetwork untimed).initialise.1, .ok ()) :=
      Prod.ext rfl (by decide +kernel)
    have z : (CstnuChecker.ofNetwork linkedNetwork untimed).initialise.1.z = some 0 := by
      decide +kernel
    have horizon : (CstnuChecker.ofNetwork linkedNetwork untimed).initialise.1.horizon =
        some ⟨4, 12⟩ := by decide +kernel
    obtain ⟨_, p, run⟩ := exists_of_succeeds (m := Propagation.toFixpoint
      ((CstnuChecker.ofNetwork linkedNetwork untimed).initialise.1.context 0 ⟨4, 12⟩) .never 100)
      (s := ⟨(CstnuChecker.ofNetwork linkedNetwork untimed).initialise.1.network, .zero, 0, 0⟩)
      (by decide +kernel)
    exact ⟨_, _, _, p, ready, z, horizon, run, linked.2 _ _ _ p ready z horizon run⟩

end TemporalNetwork
