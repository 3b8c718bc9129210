import Mathlib.Tactic.Ring
import TemporalNetwork.Proofs.Conditional.TowardsZ
import TemporalNetwork.Proofs.Conditional.Walks
import TemporalNetwork.Proofs.Strategy.Schedule

/-!
The consistency check decides simple temporal networks. A consistent verdict comes with a schedule, an
inconsistent one excludes schedules, and the limit on the number of passes leaves room for all passes
that can be needed: towards Z only, a negative loop that avoids Z is found by going round it until the
sum falls below the horizon.
-/

namespace TemporalNetwork

namespace Network

/-- A simple temporal network: neither labels nor case values nor self-loops. The numbers of nodes
have 32 bits. -/
structure Simple (g : LabeledNetwork) : Prop where
  wellFormed : g.WellFormed
  nodes : ∀ node ∈ g.nodes, node.label = .empty
  loopless : ∀ e slot, g.slot? e = some slot → slot.source ≠ slot.target
  plain : ∀ e slot, g.slot? e = some slot → slot.payload.Plain Value.InRange
  lower : ∀ e slot, g.slot? e = some slot → slot.payload.lower = none
  few : g.nodeCount ≤ 4294967296

/-- A network without labels and upper-case values whose self-loops hold for all times. -/
structure Unconditional (g : LabeledNetwork) : Prop where
  wellFormed : g.WellFormed
  nodes : ∀ node ∈ g.nodes, node.label = .empty
  loops : ∀ e slot, g.slot? e = some slot → slot.source = slot.target →
    ∀ l x, (l, x) ∈ slot.payload.values.entries → 0 ≤ x
  plain : ∀ e slot, g.slot? e = some slot → slot.payload.Plain Value.InRange

/-- Whether the times satisfy all values and put no node before the reference node. -/
structure IsSchedule (g : LabeledNetwork) (t : NodeId → ℚ) : Prop where
  first : ∀ n < g.nodeCount, t g.reference ≤ t n
  satisfies : ∀ e slot, g.slot? e = some slot → ∀ l x, (l, x) ∈ slot.payload.values.entries →
    x.Admits (t slot.target - t slot.source)

variable {g h : LabeledNetwork} {withNodeLabels : Bool} {z : NodeId} {horizon : Value}

theorem Simple.toPlain (simple : g.Simple) : g.Plain fun _ _ x => x.InRange := by
  intro u v e joined
  obtain ⟨i, slot, stored, rfl, rfl, rfl⟩ := simple.wellFormed.edgeBetween?_eq_some_iff.mp joined
  exact ⟨simple.loopless i slot stored, simple.plain i slot stored⟩

theorem Simple.unconditional (simple : g.Simple) : g.Unconditional :=
  ⟨simple.wellFormed, simple.nodes,
    fun e slot stored same => absurd same (simple.loopless e slot stored), simple.plain⟩

theorem Unconditional.labelless (unconditional : g.Unconditional) :
    g.EveryValue fun _ _ _ l _ => l = .empty := by
  intro u v e joined c l x mem
  obtain ⟨i, slot, stored, rfl, rfl, rfl⟩ :=
    unconditional.wellFormed.edgeBetween?_eq_some_iff.mp joined
  exact ((unconditional.plain i slot stored).mem_allValues mem).2.1

theorem Simple.of_slots (wf : g.WellFormed) (nodes : ∀ node ∈ g.nodes, node.label = .empty)
    (few : g.nodeCount ≤ 4294967296)
    (slots : ∀ s ∈ g.slots.toList, ∀ slot, s = some slot → slot.source ≠ slot.target ∧
      slot.payload.upper = .empty ∧ slot.payload.lower = none ∧
        ∀ x ∈ slot.payload.values.entries, x.1 = .empty ∧ Value.InRange x.2) : g.Simple where
  wellFormed := wf
  nodes := nodes
  loopless e slot stored := (slots _ (mem_slots stored) slot rfl).1
  plain e slot stored := by
    obtain ⟨_, upper, _, values⟩ := slots _ (mem_slots stored) slot rfl
    exact ⟨upper, fun l x mem => values (l, x) mem⟩
  lower e slot stored := (slots _ (mem_slots stored) slot rfl).2.2.1
  few := few

theorem Plain.of_edges {Q : NodeId → NodeId → Value → Prop} (plain : g.Plain Q)
    (edges : ∀ u v, h.edgeBetween? u v = g.edgeBetween? u v) : h.Plain Q :=
  fun u v e joined => plain u v e (edges u v ▸ joined)

theorem Plain.addBounds (plain : g.Plain fun _ _ x => x.InRange) (wf : g.WellFormed)
    (hz : z < g.nodeCount) (unlabelled : g.Unlabelled withNodeLabels) (range : horizon.InRange) :
    (g.addBounds z horizon withNodeLabels).Plain fun _ _ x => x.InRange := by
  refine addBounds_induct wf hz (fun h wf' grows kept n hn apart => ?_) plain
  have hn' : n < h.nodeCount := grows.nodeCount ▸ hn
  have hz' : z < h.nodeCount := grows.nodeCount ▸ hz
  rw [unlabelled.boundLabel]
  exact ⟨kept.mergeInto wf' hn' hz' .internal apart (by decide),
    kept.mergeInto wf' hz' hn' .internal (Ne.symm apart) range⟩

/-- The limit on the number of passes is not reached by what is smaller than two of its factors. -/
theorem lt_cycleBound (g : LabeledNetwork) {maxWeight : Int} {m : Nat}
    (representable : m < 18446744073709551615)
    (lt : m < max 1 maxWeight.toNat * (g.nodeCount * g.nodeCount)) : m < g.cycleBound maxWeight := by
  refine lt_min (lt.trans_le ?_) representable
  refine Nat.le_mul_of_pos_right _ ?_
  have some : 0 < max 1 g.observations.propositions.size := lt_of_lt_of_le one_pos (le_max_left _ _)
  positivity

theorem openValues_lt_cycleBound (g : LabeledNetwork) (inside : z < g.nodeCount) {weight : Nat}
    (finite : weight * g.nodeCount < 2147483647) (few : g.nodeCount ≤ 4294967297) :
    (g.nodeCount - 1) * (weight * g.nodeCount + 1) < g.cycleBound weight := by
  obtain ⟨m, count⟩ : ∃ m, g.nodeCount = m + 1 := Nat.exists_eq_succ_of_ne_zero (by lia)
  rw [count] at finite few
  refine lt_cycleBound g ?_ ?_
  · rw [count, Nat.add_sub_cancel]
    calc m * (weight * (m + 1) + 1) ≤ 4294967296 * 2147483647 :=
          Nat.mul_le_mul (by lia) finite
      _ < 18446744073709551615 := by norm_num
  · rw [count, Nat.add_sub_cancel, Int.toNat_natCast]
    rcases Nat.eq_zero_or_pos weight with rfl | positive
    · have square : m + 1 ≤ (m + 1) * (m + 1) := Nat.le_mul_of_pos_left _ (Nat.succ_pos m)
      simp only [Nat.zero_mul, Nat.zero_add, Nat.mul_one, Nat.zero_le, sup_of_le_left, Nat.one_mul]
      lia
    · have larger : m < weight * (m + 1) := Nat.le_mul_of_pos_left _ positive
      rw [max_eq_right positive]
      calc m * (weight * (m + 1) + 1) = weight * (m * (m + 1)) + m := by ring
        _ < weight * (m * (m + 1)) + weight * (m + 1) := Nat.add_lt_add_left larger _
        _ = weight * ((m + 1) * (m + 1)) := by ring

theorem nodeCount_lt_cycleBound (g : LabeledNetwork) (maxWeight : Int) (several : 1 < g.nodeCount)
    (few : g.nodeCount ≤ 4294967297) : g.nodeCount < g.cycleBound maxWeight := by
  refine lt_cycleBound g (few.trans_lt (by norm_num)) ?_
  have square : g.nodeCount < g.nodeCount * g.nodeCount :=
    (Nat.lt_mul_iff_one_lt_left (by lia)).mpr several
  exact square.trans_le (Nat.le_mul_of_pos_left _ (lt_of_lt_of_le one_pos (le_max_left _ _)))

theorem Plain.one_lt_nodeCount {Q : NodeId → NodeId → Value → Prop} (plain : g.Plain Q)
    (wf : g.WellFormed) (some : g.edgeIds ≠ []) : 1 < g.nodeCount := by
  obtain ⟨e, mem⟩ := List.exists_mem_of_ne_nil _ some
  obtain ⟨slot, stored⟩ := Option.isSome_iff_exists.mp (mem_edgeIds.mp mem)
  have joined := wf.edgeBetween?_eq_some_iff.mpr ⟨e, slot, stored, rfl, rfl, rfl⟩
  obtain ⟨hu, hv⟩ := wf.lt_of_edgeBetween? joined
  have apart := (plain _ _ _ joined).1
  lia

end Network

namespace CstnChecker

variable {g : LabeledNetwork} {options : CheckerOptions} {rules : RuleSet} {stops : Polls}
  {c c₀ : CstnChecker} {status : CheckStatus} {z : NodeId} {horizon : Horizon}

theorem nodeCount_of_initialise (wf : g.WellFormed)
    (ready : (ofNetwork g options rules).initialise = (c₀, .ok ())) :
    c₀.network.nodeCount ≤ g.nodeCount + 1 := by
  obtain ⟨z, horizon, d, run, rfl⟩ := prepare_of_initialise ready
  obtain ⟨h, count, wf', inside, _, _, _, known, bounded⟩ :=
    (prepare_ends (WellDefined.kept_nodeCount_le _ g.nodeCount) wf (Or.inl le_rfl)).of_ok run
  obtain ⟨finite, _, _⟩ := Network.horizon?_spec known
  obtain ⟨_, grown, _⟩ := Network.addBounds_spec wf' inside horizon.value (ne_of_lt finite.2)
    options.withNodeLabels
  dsimp only
  rw [bounded, grown.nodeCount]
  rcases count with few | ⟨same, _⟩
  · lia
  · exact same.le

/-- What the check of a simple temporal network starts with. -/
theorem plainProblem (simple : g.Simple) (enabled : Rule.labelPropagation ∈ rules)
    (ready : (ofNetwork g options rules).initialise = (c₀, .ok ())) (hz : c₀.z = some z)
    (hh : c₀.horizon = some horizon) :
    PlainProblem (c₀.context z horizon) c₀.network ∧ 0 ≤ horizon.maxWeight ∧
      horizon.value = horizon.maxWeight * c₀.network.nodeCount := by
  obtain ⟨h, horizon', unaltered, wf, _, inside, known, isReference, hh', options', rules', bounded⟩ :=
    initialise_unaltered simple.wellFormed (Network.unlabelled_of_forall_mem simple.nodes)
      simple.unconditional.labelless ready
  rw [hz] at isReference
  rw [hh] at hh'
  cases hh'
  obtain rfl := Option.some.inj isReference
  obtain ⟨finite, weight, product⟩ := Network.horizon?_spec known
  obtain ⟨wf₀, grown, bounds⟩ := Network.addBounds_spec wf inside horizon.value (ne_of_lt finite.2)
    options.withNodeLabels
  -- Preparation has changed neither edges nor labels, so the bounds are added to a plain network.
  have plain := (simple.toPlain.of_edges unaltered.edgeBetween?).addBounds wf inside
    unaltered.unlabelled ⟨finite.1.le, finite.2.le⟩
  have nonneg : 0 ≤ horizon.maxWeight := weight ▸ h.maxWeight_nonneg
  rw [← bounded] at wf₀ grown bounds plain
  have unlabelled : c₀.network.Unlabelled options.withNodeLabels :=
    unaltered.unlabelled.of_nodes grown.nodes
  have covered : ∀ n < c₀.network.nodeCount, n ≠ g.reference →
      c₀.network.Covers n g.reference .empty .empty 0 ∧
        c₀.network.Covers g.reference n .empty .empty horizon.value := by
    intro n hn apart
    have here := bounds n (grown.nodeCount ▸ hn) apart
    unfold Network.Bounds at here
    rwa [unlabelled.boundLabel] at here
  have enabled' : Rule.labelPropagation ∈ c₀.rules := rules' ▸ enabled
  have after : 0 ≤ horizon.value := product ▸ mul_nonneg nonneg (Int.natCast_nonneg _)
  refine ⟨?_, nonneg, by rw [product, grown.nodeCount]⟩
  exact {
    unlinked := rfl
    enabled := List.contains_iff_mem.mpr enabled'
    inside := grown.nodeCount ▸ inside
    nonneg := after
    finite := finite.2
    wellFormed := wf₀
    plain := plain
    early := fun n hn apart => (covered n hn apart).1
    late := fun n hn apart => (covered n hn apart).2 }

theorem verdict_of_check (simple : g.Simple) (enabled : Rule.labelPropagation ∈ rules)
    (checked : (ofNetwork g options rules).check .never = (c, .ok status)) :
    status.outcome = .consistent ∨ status.outcome = .inconsistent := by
  obtain ⟨c₀, z, horizon, ready, hz, hh, _, _, ending⟩ := ending_of_check checked
  obtain ⟨problem, nonneg, product⟩ := plainProblem simple enabled ready hz hh
  have few : c₀.network.nodeCount ≤ 4294967297 :=
    (nodeCount_of_initialise simple.wellFormed ready).trans (Nat.succ_le_succ simple.few)
  rcases ending with ⟨_, _, _, consistent⟩ | ⟨halt, p, run, outcome, representable⟩
  · exact Or.inl consistent
  -- The limits on the cycles are wide enough, so a halt comes from what the rules derive.
  · have derived : halt.Derived := by
      cases toZ : (c₀.context z horizon).onlyToZ with
      | false =>
        refine (problem.toFixpoint_ends_everywhere (p := ⟨c₀.network, .zero, 0, 0⟩) toZ
          fun some => ?_).of_error run
        exact c₀.network.nodeCount_lt_cycleBound _
          (problem.plain.one_lt_nodeCount problem.wellFormed some) few
      | true =>
        obtain ⟨weight, isWeight⟩ := Int.eq_ofNat_of_zero_le nonneg
        have width : horizon.value = (weight * c₀.network.nodeCount : Nat) := by
          rw [product, isWeight, Nat.cast_mul]
        have finite : horizon.value < 2147483647 := problem.finite
        rw [width] at finite
        refine (problem.toFixpoint_ends_toZ (p := ⟨c₀.network, .zero, 0, 0⟩) toZ ?_).of_error run
        rw [show (c₀.context z horizon).horizon = horizon.value from rfl, width, Int.toNat_natCast,
          isWeight]
        exact c₀.network.openValues_lt_cycleBound problem.inside (by exact_mod_cast finite) few
    obtain ⟨d, stops⟩ := derived
    cases d with
    | value => cases stops
    | negativeLoop loop =>
      cases stops
      exact Or.inr outcome
    | sumOverflow u v =>
      cases stops
      exact absurd rfl (representable u v)

theorem exists_schedule_of_unconditional (unconditional : g.Unconditional) (enabled : Rule.labelPropagation ∈ rules)
    (checked : (ofNetwork g options rules).check stops = (c, .ok status))
    (consistent : status.outcome = .consistent) : ∃ t : NodeId → ℤ, g.IsSchedule fun n => t n := by
  obtain ⟨ctx, hz, closed, _, _, grows, bounded⟩ :=
    closed_of_consistent unconditional.wellFormed enabled checked consistent
  obtain ⟨c₀, z, horizon, ready, hz₀, _, hz', _⟩ := ending_of_check checked
  obtain ⟨h, horizon', unaltered, wf, _, inside, known, isReference, _, _, _, added⟩ :=
    initialise_unaltered unconditional.wellFormed (Network.unlabelled_of_forall_mem unconditional.nodes)
      unconditional.labelless ready
  have origin : ctx.z = g.reference := by
    rw [hz₀] at isReference
    rw [hz] at hz'
    exact Option.some.inj (hz'.trans isReference)
  obtain ⟨finite, _, _⟩ := Network.horizon?_spec known
  obtain ⟨_, grown, _⟩ := Network.addBounds_spec wf inside horizon'.value (ne_of_lt finite.2)
    options.withNodeLabels
  rw [ready] at grows bounded
  dsimp only at grows bounded
  rw [← added] at grown
  have complete := Label.isComplete_allStraight
  -- Any scenario will do, since no label tells two of them apart; nodes beyond the network get no time
  -- from it.
  have latest : ∀ n, ∃ d, n < h.nodeCount → Closed.Latest ctx c.network .allStraight n d := by
    intro n
    by_cases here : n = ctx.z
    · exact ⟨0, fun _ => Or.inl ⟨here, rfl⟩⟩
    · by_cases inside : n < h.nodeCount
      · have occurs : c₀.network.Occurs options.withNodeLabels .allStraight n := by
          refine ⟨grown.nodeCount ▸ inside, ?_⟩
          rw [(unaltered.unlabelled.of_nodes grown.nodes).boundLabel]
          exact Label.subsumes_empty _
        have bounds := bounded .allStraight n here occurs
        obtain ⟨_, _, early⟩ := bounds.early
        obtain ⟨d, least⟩ := early.exists_isLeast
        exact ⟨d, fun _ => Or.inr ⟨here, bounds, least⟩⟩
      · exact ⟨0, fun within => absurd within inside⟩
  choose d latest using latest
  have bounds : ∀ n < h.nodeCount, -ctx.horizon ≤ d n ∧ d n ≤ 0 :=
    fun n hn => (latest n hn).bounds closed complete
  refine ⟨fun n => -d n, fun n hn => ?_, fun e slot stored l x mem => ?_⟩
  · have start : d g.reference = 0 := by
      rcases latest g.reference inside with ⟨_, zero⟩ | ⟨apart, _⟩
      · exact zero
      · exact absurd origin.symm apart
    have before := (bounds n (lt_of_lt_of_le hn unaltered.nodeCount_le)).2
    dsimp only
    rw [start]
    exact_mod_cast neg_le_neg before
  · obtain ⟨rfl, _⟩ := (unconditional.plain e slot stored).values l x mem
    have joined := unconditional.wellFormed.edgeBetween?_eq_some_iff.mpr ⟨e, slot, stored, rfl, rfl, rfl⟩
    rw [← unaltered.edgeBetween?] at joined
    obtain ⟨hu, hv⟩ := wf.lt_of_edgeBetween? joined
    obtain ⟨y, le, held⟩ := Network.HoldsIn.grows (Network.holds_of_mem joined mem)
      (grown.trans grows)
    have low := closed.negInf_lt
    by_cases loop : slot.source = slot.target
    · have nonneg : 0 ≤ x := unconditional.loops e slot stored loop .empty x mem
      refine ⟨(show Value.negInf < 0 by decide).trans_le nonneg, Or.inr ?_⟩
      rw [loop, sub_self]
      exact_mod_cast nonneg
    have fits := closed.constraint complete loop (latest slot.source hu) (latest slot.target hv) held
    have early := (bounds slot.source hu).1
    have late := (bounds slot.target hv).2
    refine ⟨by linarith, Or.inr ?_⟩
    have distance : -d slot.target - -d slot.source ≤ x := by linarith
    exact_mod_cast distance

theorem exists_schedule_of_consistent (simple : g.Simple) (enabled : Rule.labelPropagation ∈ rules)
    (checked : (ofNetwork g options rules).check stops = (c, .ok status))
    (consistent : status.outcome = .consistent) : ∃ t : NodeId → ℤ, g.IsSchedule fun n => t n :=
  exists_schedule_of_unconditional simple.unconditional enabled checked consistent

/-- The check does not reject a network that has a schedule. -/
theorem not_inconsistent_of_isSchedule (unconditional : g.Unconditional)
    (lower : ∀ e slot, g.slot? e = some slot → slot.payload.lower = none) {t : NodeId → ℚ}
    (schedule : g.IsSchedule t) (checked : (ofNetwork g options rules).check stops = (c, .ok status)) :
    status.outcome ≠ .inconsistent := by
  have wf := unconditional.wellFormed
  refine not_inconsistent_of_schedule wf (Network.unlabelled_of_forall_mem unconditional.nodes)
    schedule.first (fun u v e joined case l x mem => ?_) (fun u v e low joined present => ?_) checked
  · obtain ⟨i, slot, stored, rfl, rfl, rfl⟩ := wf.edgeBetween?_eq_some_iff.mp joined
    obtain ⟨_, unlabelled, here⟩ := (unconditional.plain i slot stored).mem_allValues mem
    exact ⟨unlabelled, fun _ => schedule.satisfies i slot stored _ x here⟩
  · obtain ⟨i, slot, stored, rfl, rfl, rfl⟩ := wf.edgeBetween?_eq_some_iff.mp joined
    rw [lower i slot stored] at present
    cases present

end CstnChecker

/-- The consistency check decides simple temporal networks, for every set of rules with labelled
propagation and in both modes of propagation: the verdict is inconsistent exactly when the network has
no schedule, and consistent exactly when it has one, which is then one of integers; the limit on the
number of passes is never reached. -/
theorem outcome_iff_schedule (g : LabeledNetwork) (simple : g.Simple) (options : CheckerOptions)
    (rules : RuleSet) (enabled : Rule.labelPropagation ∈ rules) (c : CstnChecker)
    (status : CheckStatus)
    (checked : (CstnChecker.ofNetwork g options rules).check .never = (c, .ok status)) :
    (status.outcome = .inconsistent ↔ ¬ ∃ t : NodeId → ℚ, g.IsSchedule t) ∧
      (status.outcome = .consistent ↔ ∃ t : NodeId → ℤ, g.IsSchedule fun n => t n) ∧
      status.outcome ≠ .cycleBoundExceeded := by
  have sound : ∀ t : NodeId → ℚ, g.IsSchedule t → status.outcome ≠ .inconsistent :=
    fun t schedule => CstnChecker.not_inconsistent_of_isSchedule simple.unconditional simple.lower
      schedule checked
  rcases CstnChecker.verdict_of_check simple enabled checked with consistent | inconsistent
  · obtain ⟨t, schedule⟩ :=
      CstnChecker.exists_schedule_of_consistent simple enabled checked consistent
    have scheduled : ∃ t : NodeId → ℚ, g.IsSchedule t := ⟨fun n => t n, schedule⟩
    have integral : ∃ t : NodeId → ℤ, g.IsSchedule fun n => t n := ⟨t, schedule⟩
    rw [consistent]
    exact ⟨iff_of_false nofun fun none => none scheduled, iff_of_true rfl integral, nofun⟩
  · have unscheduled : ∀ t : NodeId → ℚ, ¬ g.IsSchedule t :=
      fun t schedule => sound t schedule inconsistent
    rw [inconsistent]
    refine ⟨iff_of_true rfl ?_, iff_of_false nofun ?_, nofun⟩
    · rintro ⟨t, schedule⟩
      exact unscheduled t schedule
    · rintro ⟨t, schedule⟩
      exact unscheduled (fun n => t n) schedule

/-- X and Y form a negative loop that avoids Z. -/
def circularNetwork : LabeledNetwork :=
  (Network.build [.named "Z", .named "X", .named "Y"]
    [("after", 1, 2, .ofValue .ordinary .empty 1),
      ("before", 2, 1, .ofValue .ordinary .empty (-2))]).getD .empty

theorem circularNetwork_simple : circularNetwork.Simple :=
  .of_slots (Network.wellFormed_getD_build _ _) (by decide +kernel) (by decide +kernel)
    (by decide +kernel)

/-- Towards Z only, the loop is gone round until the sum is below the horizon. -/
theorem outcome_iff_schedule_circular :
    ∃ c status, (CstnChecker.ofNetwork circularNetwork { untimed with onlyToZ := true }
        .restricted).check .never = (c, .ok status) ∧ status.outcome = .inconsistent ∧
      ¬ ∃ t : NodeId → ℚ, circularNetwork.IsSchedule t := by
  have answered : ((CstnChecker.ofNetwork circularNetwork { untimed with onlyToZ := true }
      .restricted).check .never).2.toOption.map CheckStatus.outcome = some .inconsistent := by
    decide +kernel
  cases checked : (CstnChecker.ofNetwork circularNetwork { untimed with onlyToZ := true }
      .restricted).check .never with
  | mk c answer =>
    rw [checked] at answered
    cases answer with
    | error e => cases answered
    | ok status =>
      have inconsistent : status.outcome = .inconsistent := Option.some.inj answered
      exact ⟨c, status, rfl, inconsistent, (outcome_iff_schedule circularNetwork
        circularNetwork_simple { untimed with onlyToZ := true } .restricted (by decide) c status
        checked).1.mp inconsistent⟩

end TemporalNetwork
