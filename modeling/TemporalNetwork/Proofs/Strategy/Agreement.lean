import TemporalNetwork.Proofs.Network.EdgeMap
import TemporalNetwork.Proofs.Stnu.NodeRefutation
import TemporalNetwork.Proofs.Stnu.NodeSettlement
import TemporalNetwork.Proofs.Stnu.Refutation
import TemporalNetwork.Proofs.Strategy.Decision

/-!
Without propositions and contingent links there is one question to all checks, whether the network has a
schedule, and they give the same answer to it.
-/

namespace TemporalNetwork

/-- A network without contingent links. -/
structure Network.Certain (h : PlainNetwork) : Prop where
  wellFormed : h.WellFormed
  certain : ∀ u v, ¬ h.IsContingent u v
  raw : ∀ u v, h.case? u v = none
  range : ∀ u v, h.bound u v ≤ Value.posInf

namespace StnuChecker

variable {g h : PlainNetwork} {links : List StnuLink} {options : CheckerOptions} {stops : Polls}
  {c : StnuChecker} {status : CheckStatus}

theorem links_eq_nil (certain : g.Certain) (prepared : Prepared g h links) : links = [] := by
  refine List.eq_nil_iff_forall_not_mem.mpr fun link mem => ?_
  exact certain.certain _ _ ((prepared.mem_iff link).mp mem).ahead

/-- Without links, a run that has finished leaves a schedule behind. -/
theorem schedule_of_finishesAll (prepared : Prepared g h []) {k : PlainNetwork}
    (finishes : FinishesAll [] h k) : DurationSchedule g [] (fun _ => 0) k.potential := by
  obtain ⟨first, statuses, finished, runnable, same, reachable, _⟩ := finishes
  have progress := reachable.progress runnable
  have tightened := (same.tightenedInto fun _ => True).trans (reachable.tightened runnable)
  refine prepared.durationSchedule tightened ?_ fun i link listed => by cases listed
  exact fun u v w weight => progress.relaxed.valid.le_of_ordinary weight

/-- A consistent verdict on a network without contingent links comes with a schedule. -/
theorem exists_schedule_of_consistent (certain : g.Certain)
    (checked : (ofNetwork g options).check stops = (c, .ok status))
    (consistent : status.outcome = .consistent) :
    ∃ t, DurationSchedule g [] (fun _ => 0) t := by
  by_cases byNodes : options.algorithm = .morris2014
  · obtain ⟨h, prepared, statistics, answers⟩ := ran_over_nodes certain.wellFormed byNodes checked
    generalize (ofNetwork g options).initialise.1.links = links at prepared answers
    obtain rfl := links_eq_nil certain prepared
    have separated := prepared.separated certain.raw certain.range fun link isLink _ =>
      absurd isLink.ahead (certain.certain _ _)
    exact prepared.exists_durationSchedule separated (fun i link listed => by cases listed) stops
      statistics fun explores => (answers explores).1 consistent
  · obtain ⟨h, prepared, ran⟩ := ran_of_check certain.wellFormed byNodes checked
    have finishes := ran.consistent consistent
    have none := links_eq_nil certain prepared
    rw [none] at prepared finishes
    exact ⟨c.network.potential, schedule_of_finishesAll prepared finishes⟩

theorem not_inconsistent_of_schedule {t : NodeId → ℚ} (certain : g.Certain)
    (first : ∀ n, g.Scheduled n → t g.origin ≤ t n)
    (satisfies : ∀ u v w, g.ordinary? u v = some w → t v ≤ t u + w)
    (checked : (ofNetwork g options).check stops = (c, .ok status)) :
    status.outcome ≠ .inconsistent := by
  intro inconsistent
  have strategy : ControlStrategy g [] (fun _ => t) := by
    refine ⟨fun _ _ => first, fun _ _ u v edge w joined _ stored => satisfies u v w ?_,
      fun _ _ i link listed => ?_, fun _ _ _ _ _ _ _ _ => rfl⟩
    · rw [← Network.bind_value?, joined, Option.bind_some, stored]
    · cases listed
  by_cases byNodes : options.algorithm = .morris2014
  · obtain ⟨h, prepared, statistics, answers⟩ := ran_over_nodes certain.wellFormed byNodes checked
    generalize (ofNetwork g options).initialise.1.links = links at prepared answers
    obtain rfl := links_eq_nil certain prepared
    obtain ⟨_, rejected⟩ := (answers
      (prepared.processAll_sound certain.raw strategy stops statistics)).2 inconsistent
    exact rejected rfl
  · obtain ⟨h, prepared, ran⟩ := ran_of_check certain.wellFormed byNodes checked
    have rejects := ran.inconsistent inconsistent
    have none := links_eq_nil certain prepared
    rw [none] at prepared rejects
    exact prepared.not_rejects certain.raw strategy rejects

end StnuChecker

/-- The network with the given nodes and with edges of the given values, all of them without a label. -/
def Network.buildLabeled (nodes : List Node) (edges : List (String × NodeId × NodeId × Value)) :
    Option LabeledNetwork :=
  build nodes (edges.map fun (name, source, target, x) =>
    (name, source, target, .ofValue .ordinary .empty x))

/-- The same network for the checks that know no labels. -/
def Network.buildPlain (nodes : List Node) (edges : List (String × NodeId × NodeId × Value)) :
    Option PlainNetwork :=
  build nodes (edges.map fun (name, source, target, x) => (name, source, target, ⟨.ordinary, x, none⟩))

/-- A network whose edges carry one finite value each, which does not exclude all times. -/
structure Network.Finite (k : Network Value) : Prop where
  wellFormed : k.WellFormed
  nodes : ∀ node ∈ k.nodes, node.label = .empty
  finite : ∀ e slot, k.slot? e = some slot → Value.negInf < slot.payload ∧ slot.payload < Value.posInf
  loops : ∀ e slot, k.slot? e = some slot → slot.source = slot.target → 0 ≤ slot.payload

namespace Network.Finite

variable {k : Network Value}

abbrev labeled (k : Network Value) : LabeledNetwork := k.mapEdges (.ofValue .ordinary .empty)

abbrev plain (k : Network Value) : PlainNetwork := k.mapEdges (⟨.ordinary, ·, none⟩)

theorem unconditional (finite : k.Finite) : (labeled k).Unconditional := by
  refine ⟨finite.wellFormed.mapEdges, finite.nodes, fun e slot stored same l x mem => ?_,
    fun e slot stored => ⟨?_, fun l x mem => ?_⟩⟩
  all_goals
    rw [slot?_mapEdges] at stored
    obtain ⟨slot, given, rfl⟩ := Option.map_eq_some_iff.mp stored
  · cases List.mem_singleton.mp mem
    exact finite.loops e slot given same
  · rfl
  · cases List.mem_singleton.mp mem
    obtain ⟨low, high⟩ := finite.finite e slot given
    exact ⟨rfl, low.le, high.le⟩

theorem certain (finite : k.Finite) : (plain k).Certain := by
  have edge : ∀ u v e, (plain k).edgeBetween? u v = some e → e.kind = .ordinary ∧ e.case = none ∧
      e.weight ≤ Value.posInf := by
    intro u v e joined
    rw [edgeBetween?_mapEdges] at joined
    obtain ⟨x, given, rfl⟩ := Option.map_eq_some_iff.mp joined
    obtain ⟨i, slot, stored, _, _, rfl⟩ := finite.wellFormed.edgeBetween?_eq_some_iff.mp given
    exact ⟨rfl, rfl, (finite.finite i slot stored).2.le⟩
  refine ⟨finite.wellFormed.mapEdges, ?_, fun u v => ?_, fun u v => ?_⟩
  · rintro u v ⟨e, joined, contingent⟩
    rw [(edge u v e joined).1] at contingent
    cases contingent
  · rw [Network.case?]
    cases joined : (plain k).edgeBetween? u v with
    | none => rfl
    | some e => exact (edge u v e joined).2.1
  · rw [Network.bound]
    cases joined : (plain k).edgeBetween? u v with
    | none => exact le_rfl
    | some e => exact (edge u v e joined).2.2

theorem of_build {nodes : List Node} {edges : List (String × NodeId × NodeId × Value)}
    (built : build nodes edges = some k) (unlabelled : ∀ node ∈ nodes, node.label = .empty)
    (finite : ∀ name u v x, (name, u, v, x) ∈ edges → Value.negInf < x ∧ x < Value.posInf)
    (loops : ∀ name u x, (name, u, u, x) ∈ edges → 0 ≤ x) : k.Finite where
  wellFormed := .build built
  nodes node mem := unlabelled node (mem_of_build built node mem)
  finite e slot stored := finite _ _ _ _ (mem_of_slot?_build built stored)
  loops e slot stored same := by
    have mem := mem_of_slot?_build built stored
    rw [same] at mem
    exact loops _ _ _ mem

/-- A schedule of the network with labels excludes that a check without labels finds no schedule. -/
theorem not_inconsistent_of_isSchedule (finite : k.Finite) {t : NodeId → ℚ}
    (schedule : (labeled k).IsSchedule t) {options : CheckerOptions} {stops : Polls}
    {c : StnuChecker} {status : CheckStatus}
    (checked : (StnuChecker.ofNetwork (plain k) options).check stops = (c, .ok status)) :
    status.outcome ≠ .inconsistent := by
  refine StnuChecker.not_inconsistent_of_schedule finite.certain (t := t) ?_ ?_ checked
  · rintro n (inside | rfl)
    · exact schedule.first n inside
    · exact le_rfl
  · intro u v w weight
    obtain ⟨bound, infinite⟩ := ordinary?_eq_some_iff.mp weight
    rw [Network.bound, edgeBetween?_mapEdges] at bound
    cases given : k.edgeBetween? u v with
    | none =>
      rw [given] at bound
      exact absurd bound.symm infinite
    | some x =>
      rw [given] at bound
      obtain rfl : x = w := bound
      obtain ⟨i, slot, stored, rfl, rfl, rfl⟩ := finite.wellFormed.edgeBetween?_eq_some_iff.mp given
      obtain ⟨_, above | within⟩ := schedule.satisfies i _ (slot?_mapEdges_of_some stored) .empty _
        List.mem_cons_self
      · exact absurd above infinite
      · linarith [show t slot.target - t slot.source ≤ slot.payload from within]

theorem not_inconsistent_of_durationSchedule (finite : k.Finite) {t : NodeId → ℤ}
    (schedule : DurationSchedule (plain k) [] (fun _ => 0) t) {options : CheckerOptions}
    {rules : RuleSet} {stops : Polls} {c : CstnChecker} {status : CheckStatus}
    (checked : (CstnChecker.ofNetwork (labeled k) options rules).check stops = (c, .ok status)) :
    status.outcome ≠ .inconsistent := by
  have unconditional := finite.unconditional
  refine CstnChecker.not_inconsistent_of_schedule unconditional.wellFormed
    (Network.unlabelled_of_forall_mem unconditional.nodes) (t := fun n => t n)
    (fun n inside => ?_) (fun u v e joined case l x mem => ?_) (fun u v e low joined present => ?_)
    checked
  · exact_mod_cast schedule.first n (Or.inl inside)
  all_goals
    rw [edgeBetween?_mapEdges] at joined
    obtain ⟨y, given, rfl⟩ := Option.map_eq_some_iff.mp joined
    obtain ⟨i, slot, stored, _, _, rfl⟩ := finite.wellFormed.edgeBetween?_eq_some_iff.mp given
  · obtain ⟨_, unlabelled, here⟩ :=
      (unconditional.plain i _ (slot?_mapEdges_of_some stored)).mem_allValues mem
    cases List.mem_singleton.mp here
    obtain ⟨low, high⟩ := finite.finite i slot stored
    refine ⟨unlabelled, fun _ => ⟨low, Or.inr ?_⟩⟩
    have within := schedule.constraint u v ⟨.ordinary, slot.payload, none⟩ slot.payload
      (by rw [edgeBetween?_mapEdges, given, Option.map_some]) ConstraintKind.noConfusion
      (if_neg high.ne)
    have distance : t v - t u ≤ slot.payload := by linarith
    exact_mod_cast distance
  · cases present

end Network.Finite

/-- The checks agree on simple temporal networks: for a network that is built once with labels, all of
them empty, and once without, the consistency check and the controllability check, by whatever algorithm,
have the same verdict. That no edge leads from a node to itself with a negative value has to be assumed. -/
theorem checks_agree (nodes : List Node) (edges : List (String × NodeId × NodeId × Value))
    (g : LabeledNetwork) (h : PlainNetwork)
    (built : Network.buildLabeled nodes edges = some g) (built' : Network.buildPlain nodes edges = some h)
    (unlabelled : ∀ node ∈ nodes, node.label = .empty)
    (finite : ∀ name u v x, (name, u, v, x) ∈ edges → Value.negInf < x ∧ x < Value.posInf)
    (loops : ∀ name u x, (name, u, u, x) ∈ edges → 0 ≤ x) (options options' : CheckerOptions)
    (rules : RuleSet) (enabled : Rule.labelPropagation ∈ rules) (stops stops' : Polls)
    (c : CstnChecker) (c' : StnuChecker) (status status' : CheckStatus)
    (checked : (CstnChecker.ofNetwork g options rules).check stops = (c, .ok status))
    (checked' : (StnuChecker.ofNetwork h options').check stops' = (c', .ok status'))
    (decided : status.outcome = .consistent ∨ status.outcome = .inconsistent)
    (decided' : status'.outcome = .consistent ∨ status'.outcome = .inconsistent) :
    status.outcome = status'.outcome := by
  rw [Network.buildLabeled, Network.build_map] at built
  rw [Network.buildPlain, Network.build_map fun x => (⟨.ordinary, x, none⟩ : PlainEdge)] at built'
  obtain ⟨k, given, rfl⟩ := Option.map_eq_some_iff.mp built
  rw [given] at built'
  obtain rfl := Option.some.inj built'
  have finite := Network.Finite.of_build given unlabelled finite loops
  rcases decided with consistent | inconsistent <;> rcases decided' with consistent' | inconsistent'
  · rw [consistent, consistent']
  · obtain ⟨t, schedule⟩ :=
      CstnChecker.exists_schedule_of_unconditional finite.unconditional enabled checked consistent
    exact absurd inconsistent' (finite.not_inconsistent_of_isSchedule schedule checked')
  · obtain ⟨t, schedule⟩ :=
      StnuChecker.exists_schedule_of_consistent finite.certain checked' consistent'
    exact absurd inconsistent (finite.not_inconsistent_of_durationSchedule schedule checked)
  · rw [inconsistent, inconsistent']

/-- The nodes of a network in which `Y` has to be at least two after `X`, and at most one. -/
def hastyNodes : List Node := [.named "Z", .named "X", .named "Y"]

def hastyEdges : List (String × NodeId × NodeId × Value) :=
  [("soon", 1, 2, 1), ("late", 2, 1, -2), ("loop", 1, 1, 3)]

theorem checks_agree_hasty : ∃ g h c c' status status',
    Network.buildLabeled hastyNodes hastyEdges = some g ∧
    Network.buildPlain hastyNodes hastyEdges = some h ∧
    (CstnChecker.ofNetwork g untimed .full).check .never = (c, .ok status) ∧
    (StnuChecker.ofNetwork h ⟨none, false, true, .morris2014⟩).check .never = (c', .ok status') ∧
    status.outcome = .inconsistent ∧ status.outcome = status'.outcome := by
  have answered : (Network.buildLabeled hastyNodes hastyEdges).map (fun g =>
      ((CstnChecker.ofNetwork g untimed .full).check .never).2.toOption.map CheckStatus.outcome) =
        some (some .inconsistent) := by decide +kernel
  have answered' : (Network.buildPlain hastyNodes hastyEdges).map (fun h =>
      ((StnuChecker.ofNetwork h ⟨none, false, true, .morris2014⟩).check .never).2.toOption.map
        CheckStatus.outcome) = some (some .inconsistent) := by decide +kernel
  obtain ⟨g, built, answered⟩ := Option.map_eq_some_iff.mp answered
  obtain ⟨h, built', answered'⟩ := Option.map_eq_some_iff.mp answered'
  cases checked : (CstnChecker.ofNetwork g untimed .full).check .never with
  | mk c answer =>
    cases checked' : (StnuChecker.ofNetwork h ⟨none, false, true, .morris2014⟩).check .never with
    | mk c' answer' =>
      rw [checked] at answered
      rw [checked'] at answered'
      cases answer with
      | error e => cases answered
      | ok status =>
        cases answer' with
        | error e => cases answered'
        | ok status' =>
          have inconsistent : status.outcome = .inconsistent := Option.some.inj answered
          have inconsistent' : status'.outcome = .inconsistent := Option.some.inj answered'
          have values : ∀ edge ∈ hastyEdges, (Value.negInf < edge.2.2.2 ∧ edge.2.2.2 < Value.posInf) ∧
              (edge.2.1 = edge.2.2.1 → 0 ≤ edge.2.2.2) := by decide
          exact ⟨g, h, c, c', status, status', built, built', checked, checked', inconsistent,
            checks_agree hastyNodes hastyEdges g h built built' (by decide)
              (fun _ _ _ _ mem => (values _ mem).1) (fun _ _ _ mem => (values _ mem).2 rfl) untimed
              ⟨none, false, true, .morris2014⟩ .full (by decide) .never .never c c' status status'
              checked checked' (Or.inr inconsistent) (Or.inr inconsistent')⟩

end TemporalNetwork
