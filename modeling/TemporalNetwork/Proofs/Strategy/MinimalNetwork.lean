import Mathlib.Data.Rat.Cast.Order
import TemporalNetwork.Proofs.Network.Shifting
import TemporalNetwork.Proofs.Strategy.Decision
import TemporalNetwork.Proofs.Values.Redundancy

/-!
The minimal network. A consistency check of a simple temporal network over all pairs of nodes leaves
one value between any two nodes, which is the least weight of a walk from the one to the other. The
values to and from the reference node are then the earliest and the latest times of the nodes.
-/

namespace TemporalNetwork

/-- Whether `d` is the least weight of a walk from `u` to `v`. -/
def IsDistance {α : Type} (E : α → α → Int → Prop) (u v : α) (d : Int) : Prop :=
  IsLeast {p | Walk E u v p} d

namespace Network

/-- Whether the edge from `u` to `v` has the value `x` without labels; `+∞` is no constraint. -/
def Requires (g : LabeledNetwork) (u v : NodeId) (x : Int) : Prop :=
  ∃ e, g.edgeBetween? u v = some e ∧ (Label.empty, x) ∈ e.values.entries ∧ x ≠ Value.posInf

/-- The times of a node after the reference node in all schedules. -/
def times (g : LabeledNetwork) (n : NodeId) : Set ℚ :=
  {r | ∃ t : NodeId → ℚ, g.IsSchedule t ∧ t n - t g.reference = r}

/-- Whether no value of an edge is made redundant by another one with the same letters. -/
def Grouped (g : LabeledNetwork) : Prop := ∀ u v e, g.edgeBetween? u v = some e → e.Grouped

end Network

section Walks

variable {α : Type} {E : α → α → Int → Prop} {a b c : α} {p q d d' x : Int}

namespace IsDistance

theorem le_add (before : IsDistance E a b d) (edge : E b c x) (whole : IsDistance E a c d') :
    d' ≤ d + x :=
  whole.2 (Walk.step before.1 edge)

theorem le_add' (edge : E a b x) (onward : IsDistance E b c d) (whole : IsDistance E a c d') :
    d' ≤ x + d :=
  whole.2 ((Walk.of_edge edge).trans onward.1)

end IsDistance

end Walks

namespace Network

variable {Q : NodeId → NodeId → Value → Prop} {g h start : LabeledNetwork} {u v n z : NodeId}
  {k : Nat} {c d x : Int} {t : NodeId → ℚ} {horizon : Value} {withNodeLabels : Bool}

theorem Grouped.of_slots (wf : g.WellFormed) (slots : ∀ s ∈ g.slots.toList, ∀ slot, s = some slot →
      slot.payload.upper = .empty ∧
      (slot.payload.values.entries.Pairwise fun x y => compare x.1 y.1 = .lt) ∧
      (∀ x ∈ slot.payload.values.entries, ∀ y ∈ slot.payload.values.entries,
        x.1.subsumes y.1 = true → y.2 ≤ x.2 → x = y) ∧
      ∀ x ∈ slot.payload.values.entries, x.2 ≠ Value.posInf) : g.Grouped := by
  intro u v e joined
  obtain ⟨i, slot, stored, rfl, rfl, rfl⟩ := wf.edgeBetween?_eq_some_iff.mp joined
  obtain ⟨upper, ordered, minimal, bounded⟩ := slots _ (mem_slots stored) slot rfl
  exact ⟨⟨ordered, minimal, bounded⟩, upper ▸ UpperCaseMap.grouped_empty⟩

theorem Grouped.mergeInto (grouped : g.Grouped) (wf : g.WellFormed) (hu : u < g.nodeCount)
    (hv : v < g.nodeCount) (kind : ConstraintKind) (case : CaseLabel) (label : Label)
    (value : Value) : (g.mergeInto kind u v case label value).1.Grouped :=
  forall_edge_mergeInto wf hu hv grouped (LabeledEdge.grouped_ofKind kind)
    fun _ kept => kept.merge case label value

theorem Grouped.addBounds (grouped : g.Grouped) (wf : g.WellFormed) (hz : z < g.nodeCount) :
    (g.addBounds z horizon withNodeLabels).Grouped := by
  refine addBounds_induct wf hz (fun h wf' grows kept n hn apart => ?_) grouped
  have hn' : n < h.nodeCount := grows.nodeCount ▸ hn
  have hz' : z < h.nodeCount := grows.nodeCount ▸ hz
  exact ⟨kept.mergeInto wf' hn' hz' .internal .empty _ 0,
    kept.mergeInto wf' hz' hn' .internal .empty _ horizon⟩

theorem reference_addBounds (wf : g.WellFormed) (hz : z < g.nodeCount) :
    (g.addBounds z horizon withNodeLabels).reference = g.reference := by
  refine addBounds_induct (I := fun h : LabeledNetwork => h.reference = g.reference) wf hz
    (fun h _ _ kept n _ _ => ?_) rfl
  exact ⟨(h.reference_mergeInto _ _ _ _ _ _).trans kept, (h.reference_mergeInto _ _ _ _ _ _).trans kept⟩

/-- What a plain edge holds that has no redundant values is all that it has. -/
theorem Grouped.entries_eq (grouped : g.Grouped) (plain : g.Plain Q) {e : LabeledEdge}
    (joined : g.edgeBetween? u v = some e) (holds : g.Holds u v x) :
    e.values.entries = [(.empty, x)] := by
  obtain ⟨e', l, joined', mem, _⟩ := holds
  rw [joined] at joined'
  cases joined'
  obtain ⟨_, _, values⟩ := plain u v e joined
  have irredundant := (grouped u v e joined).ordinary
  obtain ⟨rfl, _⟩ := values l x mem
  have same : ∀ y ∈ e.values.entries, y = (Label.empty, x) := by
    rintro ⟨l, y⟩ other
    obtain ⟨rfl, _⟩ := values l y other
    rw [irredundant.value_unique other mem]
  have ordered := irredundant.ordered
  cases entries : e.values.entries with
  | nil =>
    rw [entries] at mem
    cases mem
  | cons first others =>
    rw [entries] at same ordered
    cases others with
    | nil => rw [same first List.mem_cons_self]
    | cons second rest =>
      have before := List.rel_of_pairwise_cons ordered List.mem_cons_self
      rw [same first List.mem_cons_self,
        same second (List.mem_cons_of_mem _ List.mem_cons_self)] at before
      simp at before

theorem Requires.holds (edge : g.Requires u v x) : g.Holds u v x := by
  obtain ⟨e, joined, mem, _⟩ := edge
  exact holds_of_mem joined mem

theorem Requires.limits (plain : g.Plain fun _ _ x => x.InRange) (edge : g.Requires u v x) :
    g.Limits u v x := by
  have holds := Requires.holds edge
  obtain ⟨_, _, range⟩ := plain.holds holds
  obtain ⟨_, _, _, finite⟩ := edge
  exact ⟨x, le_rfl, lt_of_le_of_ne range finite, holds⟩

theorem Holds.constrains (plain : g.Plain Q) (holds : g.Holds u v x) (finite : x ≠ Value.posInf) :
    g.Requires u v x := by
  obtain ⟨e, l, joined, mem, _⟩ := holds
  obtain ⟨_, _, values⟩ := plain u v e joined
  obtain ⟨rfl, _⟩ := values l x mem
  exact ⟨e, joined, mem, finite⟩

theorem WalkWithin.exists_walk (plain : start.Plain Q) (within : start.WalkWithin k u v c) :
    ∃ p ≤ c, Walk start.Requires u v p := by
  induction k generalizing u v c with
  | zero =>
    obtain ⟨x, le, finite, holds⟩ := within
    exact ⟨x, le, .of_edge (holds.constrains plain (ne_of_lt finite))⟩
  | succ k ih =>
    rcases within with within | ⟨a, b, first, second, le⟩
    · exact ih within
    · obtain ⟨p, hp, walk⟩ := ih first
      obtain ⟨q, hq, walk'⟩ := ih second
      exact ⟨p + q, (add_le_add hp hq).trans le, walk.trans walk'⟩

theorem IsSchedule.le_of_walk (schedule : g.IsSchedule t) (wf : g.WellFormed)
    (walk : Walk g.Requires u v c) : t v ≤ t u + c := by
  induction walk with
  | here => simp
  | @step w y p x _ edge ih =>
    obtain ⟨e, joined, mem, finite⟩ := edge
    obtain ⟨i, slot, stored, rfl, rfl, rfl⟩ := wf.edgeBetween?_eq_some_iff.mp joined
    have admits := (schedule.satisfies i slot stored _ x mem).2.resolve_left finite
    push_cast
    linarith

end Network

/-- A simple temporal network with the distances between its nodes. -/
structure Measured (g : LabeledNetwork) (D : NodeId → NodeId → Int) : Prop where
  wellFormed : g.WellFormed
  plain : g.Plain fun _ _ x => x.InRange
  inside : g.reference < g.nodeCount
  distance : ∀ u < g.nodeCount, ∀ v < g.nodeCount, IsDistance g.Requires u v (D u v)
  finite : ∀ u v x, g.Holds u v x → x ≠ Value.negInf
  early : ∀ n < g.nodeCount, n ≠ g.reference → ∃ x ≤ 0, g.Requires n g.reference x

namespace Measured

variable {g : LabeledNetwork} {D : NodeId → NodeId → Int} {n u v : NodeId} {x : Int}

theorem distance_self (measured : Measured g D) (inside : u < g.nodeCount) : D u u = 0 := by
  have distance := measured.distance u inside u inside
  have nonpos : D u u ≤ 0 := distance.2 .here
  have twice : D u u ≤ D u u + D u u := distance.2 (distance.1.trans distance.1)
  linarith

theorem distance_reference_nonpos (measured : Measured g D) (inside : n < g.nodeCount) :
    D n g.reference ≤ 0 := by
  by_cases here : n = g.reference
  · rw [here, measured.distance_self measured.inside]
  · obtain ⟨x, le, edge⟩ := measured.early n inside here
    exact ((measured.distance n inside _ measured.inside).2 (.of_edge edge)).trans le

theorem distance_nonneg (measured : Measured g D) (inside : n < g.nodeCount) :
    0 ≤ D g.reference n := by
  have loop : D g.reference g.reference ≤ D g.reference n + D n g.reference :=
    (measured.distance _ measured.inside _ measured.inside).2
      ((measured.distance _ measured.inside n inside).1.trans
        (measured.distance n inside _ measured.inside).1)
  have start := measured.distance_self measured.inside
  have back := measured.distance_reference_nonpos inside
  linarith

theorem isSchedule (measured : Measured g D) {t : NodeId → Int}
    (first : ∀ n < g.nodeCount, t g.reference ≤ t n)
    (fits : ∀ u v x, u < g.nodeCount → v < g.nodeCount → g.Requires u v x → t v ≤ t u + x) :
    g.IsSchedule fun n => t n where
  first n inside := by exact_mod_cast first n inside
  satisfies e slot stored l x mem := by
    have joined := measured.wellFormed.edgeBetween?_eq_some_iff.mpr ⟨e, slot, stored, rfl, rfl, rfl⟩
    obtain ⟨hu, hv⟩ := measured.wellFormed.lt_of_edgeBetween? joined
    obtain ⟨_, _, values⟩ := measured.plain _ _ _ joined
    obtain ⟨rfl, range⟩ := values l x mem
    have low := measured.finite _ _ x (Network.holds_of_mem joined mem)
    refine ⟨lt_of_le_of_ne range.1 (Ne.symm low), or_iff_not_imp_left.mpr fun finite => ?_⟩
    have fits := fits _ _ x hu hv ⟨_, joined, mem, finite⟩
    have distance : t slot.target - t slot.source ≤ x := by linarith
    exact_mod_cast distance

/-- The earliest times: the distances to the reference node, negated. -/
theorem isSchedule_earliest (measured : Measured g D) :
    g.IsSchedule fun n => ((-D n g.reference : Int) : ℚ) := by
  refine measured.isSchedule (fun n inside => ?_) fun u v x hu hv edge => ?_
  · rw [measured.distance_self measured.inside]
    exact neg_le_neg (measured.distance_reference_nonpos inside)
  · have le := (measured.distance v hv _ measured.inside).le_add' edge
      (measured.distance u hu _ measured.inside)
    linarith

/-- The latest times: the distances from the reference node. -/
theorem isSchedule_latest (measured : Measured g D) :
    g.IsSchedule fun n => ((D g.reference n : Int) : ℚ) := by
  refine measured.isSchedule (fun n inside => ?_) fun u v x hu hv edge => ?_
  · rw [measured.distance_self measured.inside]
    exact measured.distance_nonneg inside
  · exact (measured.distance _ measured.inside u hu).le_add edge
      (measured.distance _ measured.inside v hv)

theorem isLeast_times (measured : Measured g D) (inside : n < g.nodeCount) :
    IsLeast (g.times n) ((-D n g.reference : Int) : ℚ) := by
  refine ⟨⟨_, measured.isSchedule_earliest, ?_⟩, ?_⟩
  · simp [measured.distance_self measured.inside]
  · rintro r ⟨t, schedule, rfl⟩
    have le := schedule.le_of_walk measured.wellFormed
      (measured.distance n inside _ measured.inside).1
    push_cast
    linarith

theorem isGreatest_times (measured : Measured g D) (inside : n < g.nodeCount) :
    IsGreatest (g.times n) ((D g.reference n : Int) : ℚ) := by
  refine ⟨⟨_, measured.isSchedule_latest, ?_⟩, ?_⟩
  · simp [measured.distance_self measured.inside]
  · rintro r ⟨t, schedule, rfl⟩
    have le := schedule.le_of_walk measured.wellFormed
      (measured.distance _ measured.inside n inside).1
    linarith

end Measured

/-- What propagation over all pairs of nodes has made of a simple temporal network. -/
structure PlainProblem.Solved (ctx : RuleContext) (start g : LabeledNetwork) : Prop where
  problem : PlainProblem ctx start
  grows : start.Grows g
  wellFormed : g.WellFormed
  plain : g.Plain start.WalkValue
  settled : ∀ x y w, (Application.labelPropagation x y w).Settled ctx g

namespace PlainProblem.Solved

variable {ctx : RuleContext} {start g : LabeledNetwork} {u v w n : NodeId} {a b c p x : Int}

theorem closed (solved : Solved ctx start g) : Closed ctx g where
  enabled := solved.problem.enabled
  settled x y := solved.settled x y ctx.z
  nonneg := solved.problem.nonneg
  finite := solved.problem.finite

theorem exists_latest (solved : Solved ctx start g) (inside : n < start.nodeCount) :
    ∃ d, Closed.Latest ctx g .allStraight n d := by
  by_cases here : n = ctx.z
  · exact ⟨0, Or.inl ⟨here, rfl⟩⟩
  · have sub : Label.allStraight.subsumes .empty = true := Label.subsumes_empty _
    have bounded : Bounded ctx g .allStraight n :=
      ⟨(solved.grows.covers (solved.problem.early n inside here)).holdsIn sub,
        (solved.grows.covers (solved.problem.late n inside here)).holdsIn sub⟩
    obtain ⟨_, _, early⟩ := bounded.early
    obtain ⟨d, least⟩ := early.exists_isLeast
    exact ⟨d, Or.inr ⟨here, bounded, least⟩⟩

/-- The times that the values towards Z give satisfy all constraints, so no loop is negative. -/
theorem loopsNonneg (solved : Solved ctx start g) : start.LoopsNonneg start.nodeCount := by
  have latest : ∀ n, ∃ d, n < start.nodeCount → Closed.Latest ctx g .allStraight n d := by
    intro n
    by_cases inside : n < start.nodeCount
    · obtain ⟨d, latest⟩ := solved.exists_latest inside
      exact ⟨d, fun _ => latest⟩
    · exact ⟨0, fun within => absurd within inside⟩
  choose d latest using latest
  have walks : ∀ k u v c, start.WalkWithin k u v c → d u ≤ c + d v := by
    intro k
    induction k with
    | zero =>
      rintro u v c ⟨x, le, _, holds⟩
      obtain ⟨hu, hv⟩ := holds.lt solved.problem.wellFormed
      obtain ⟨y, le', holds'⟩ := Network.HoldsIn.grows holds solved.grows
      have fits := solved.closed.constraint Label.isComplete_allStraight
        (solved.problem.plain.holds holds).1 (latest u hu) (latest v hv) holds'
      linarith
    | succ k ih =>
      rintro u v c (walk | ⟨a, b, first, second, le⟩)
      · exact ih u v c walk
      · have before := ih u k a first
        have after := ih k v b second
        linarith
  intro u c walk
  have loop := walks _ u u c walk
  linarith

theorem walk_of_holds (solved : Solved ctx start g) (holds : g.Holds u v x)
    (finite : x ≠ Value.posInf) : start.WalkWithin start.nodeCount u v x :=
  ((solved.plain.holds holds).2.2 solved.loopsNonneg).resolve_left finite

theorem neg_horizon_le (solved : Solved ctx start g) (limits : g.Limits u v c) :
    -ctx.horizon ≤ c := by
  obtain ⟨x, le, finite, holds⟩ := limits
  exact (solved.problem.neg_horizon_le solved.loopsNonneg
    (solved.walk_of_holds holds (ne_of_lt finite))).trans le

theorem limits_trans (solved : Solved ctx start g) (first : g.Limits u v a)
    (second : g.Limits v w b) : (u = w → 0 ≤ a + b) ∧ (u ≠ w → g.Limits u w (a + b)) := by
  obtain ⟨loop, other⟩ := solved.problem.limits_of_settledAt solved.plain (solved.settled u v w)
    (first.le (le_max_left _ _)) (second.le (le_max_left _ _))
  refine ⟨loop, fun apart => ?_⟩
  have limits := other apart
  have low := solved.problem.negInf_lt.trans_le (solved.neg_horizon_le limits)
  have above := (lt_max_iff.mp low).resolve_right (lt_irrefl _)
  rwa [max_eq_left above.le] at limits

theorem limits_of_walk (solved : Solved ctx start g) (walk : Walk start.Requires u v p) :
    (u = v → 0 ≤ p) ∧ (u ≠ v → g.Limits u v p) := by
  induction walk with
  | here => exact ⟨fun _ => le_rfl, fun apart => absurd rfl apart⟩
  | @step m w q x _ edge ih =>
    have limits : g.Limits m w x := (edge.limits solved.problem.plain).grows solved.grows
    by_cases here : u = m
    · subst here
      have nonneg := ih.1 rfl
      have onward : g.Limits u w (q + x) := limits.le (by linarith)
      exact ⟨fun same => absurd same (solved.problem.plain.holds edge.holds).1, fun _ => onward⟩
    · exact solved.limits_trans (ih.2 here) limits

theorem exists_limits (solved : Solved ctx start g) (hu : u < start.nodeCount)
    (hv : v < start.nodeCount) (apart : u ≠ v) : ∃ c, g.Limits u v c := by
  have toZ : u ≠ ctx.z → ∃ p, Walk start.Requires u ctx.z p := fun away => by
    obtain ⟨p, _, walk⟩ := (solved.problem.walk_toZ hu away).exists_walk solved.problem.plain
    exact ⟨p, walk⟩
  have fromZ : v ≠ ctx.z → ∃ p, Walk start.Requires ctx.z v p := fun away => by
    obtain ⟨p, _, walk⟩ := (solved.problem.walk_fromZ hv away).exists_walk solved.problem.plain
    exact ⟨p, walk⟩
  have whole : ∃ p, Walk start.Requires u v p := by
    by_cases here : u = ctx.z
    · exact here ▸ fromZ fun same => apart (here.trans same.symm)
    · by_cases there : v = ctx.z
      · exact there ▸ toZ here
      · obtain ⟨p, first⟩ := toZ here
        obtain ⟨q, second⟩ := fromZ there
        exact ⟨p + q, first.trans second⟩
  obtain ⟨p, walk⟩ := whole
  exact ⟨p, (solved.limits_of_walk walk).2 apart⟩

theorem exists_distance (solved : Solved ctx start g) (hu : u < start.nodeCount)
    (hv : v < start.nodeCount) (apart : u ≠ v) :
    ∃ d, g.IsLeast .allStraight u v d ∧ d ≠ Value.posInf ∧ IsDistance start.Requires u v d := by
  obtain ⟨c, x, _, finite, holds⟩ := solved.exists_limits hu hv apart
  obtain ⟨d, least⟩ := Network.HoldsIn.exists_isLeast holds
  have finite' : d ≠ Value.posInf := ne_of_lt ((least.le holds).trans_lt finite)
  have lower : ∀ p, Walk start.Requires u v p → d ≤ p := by
    intro p walk
    obtain ⟨y, le, _, holds'⟩ := (solved.limits_of_walk walk).2 apart
    exact (least.le holds').trans le
  obtain ⟨p, le, walk⟩ :=
    (solved.walk_of_holds least.holdsIn finite').exists_walk solved.problem.plain
  obtain rfl : p = d := le_antisymm le (lower p walk)
  exact ⟨p, least, finite', walk, lower⟩

theorem distance_self (solved : Solved ctx start g) (u : NodeId) : IsDistance start.Requires u u 0 :=
  ⟨.here, fun _ walk => (solved.limits_of_walk walk).1 rfl⟩

theorem exists_measured (solved : Solved ctx start g) (isReference : ctx.z = start.reference) :
    ∃ D : NodeId → NodeId → Int, Measured start D ∧ ∀ u < start.nodeCount, ∀ v < start.nodeCount,
      u ≠ v → g.IsLeast .allStraight u v (D u v) := by
  have distances : ∀ u v, ∃ d, u < start.nodeCount → v < start.nodeCount →
      IsDistance start.Requires u v d ∧ (u ≠ v → g.IsLeast .allStraight u v d) := by
    intro u v
    by_cases inside : u < start.nodeCount ∧ v < start.nodeCount
    · by_cases here : u = v
      · subst here
        exact ⟨0, fun _ _ => ⟨solved.distance_self u, fun apart => absurd rfl apart⟩⟩
      · obtain ⟨d, least, _, distance⟩ := solved.exists_distance inside.1 inside.2 here
        exact ⟨d, fun _ _ => ⟨distance, fun _ => least⟩⟩
    · exact ⟨0, fun hu hv => absurd ⟨hu, hv⟩ inside⟩
  choose D distances using distances
  refine ⟨D, ?_, fun u hu v hv apart => (distances u v hu hv).2 apart⟩
  exact {
    wellFormed := solved.problem.wellFormed
    plain := solved.problem.plain
    inside := isReference ▸ solved.problem.inside
    distance := fun u hu v hv => (distances u v hu hv).1
    finite := by
      rintro u v x holds rfl
      obtain ⟨y, le, holds'⟩ := Network.HoldsIn.grows holds solved.grows
      have small : y < Value.posInf := le.trans_lt (by decide)
      have low := solved.neg_horizon_le ⟨y, le, small, holds'⟩
      exact absurd solved.problem.negInf_lt (not_lt.mpr low)
    early := by
      intro n inside apart
      obtain ⟨x, le, holds⟩ := solved.problem.plain.covers_iff.mp
        (solved.problem.early n inside (isReference ▸ apart))
      rw [isReference] at holds
      exact ⟨x, le, holds.constrains solved.problem.plain (ne_of_lt (le.trans_lt (by decide)))⟩ }

end PlainProblem.Solved

namespace CstnChecker

variable {g : LabeledNetwork} {options : CheckerOptions} {rules : RuleSet} {stops : Polls}
  {c : CstnChecker} {status : CheckStatus}

/-- A consistent verdict over all pairs of nodes comes from a solved network. -/
theorem solved_of_consistent (simple : g.Simple) (grouped : g.Grouped)
    (enabled : Rule.labelPropagation ∈ rules) (everywhere : options.onlyToZ = false)
    (checked : (ofNetwork g options rules).check stops = (c, .ok status))
    (consistent : status.outcome = .consistent) :
    ∃ ctx : RuleContext, c.z = some ctx.z ∧
      ctx.z = (ofNetwork g options rules).initialise.1.network.reference ∧
      PlainProblem.Solved ctx (ofNetwork g options rules).initialise.1.network c.network ∧
      c.network.Grouped := by
  obtain ⟨c₀, z, horizon, ready, hz, hh, hz', _, fixpoint, _⟩ := propagation_of_check checked
  obtain ⟨p, run, same⟩ := fixpoint consistent
  obtain ⟨problem, _, _⟩ := plainProblem simple enabled ready hz hh
  obtain ⟨h, horizon', unaltered, wf, sameReference, inside, known, isReference, _, options', _,
    bounded⟩ := initialise_unaltered simple.wellFormed
      (Network.unlabelled_of_forall_mem simple.nodes) simple.unconditional.labelless ready
  have grouped₀ : c₀.network.Grouped := by
    rw [bounded]
    refine Network.Grouped.addBounds (fun u v e joined => ?_) wf inside
    exact grouped u v e (unaltered.edgeBetween? u v ▸ joined)
  have performs : Propagation.Performs (c₀.context z horizon) c₀.network Network.Grouped
      Halt.Derived :=
    Propagation.performs_values (P := fun _ _ _ _ _ => True)
      (fun g u v wf hu hv kept case label w _ => kept.mergeInto wf hu hv .derived case label w)
      fun _ _ _ _ _ _ _ _ _ _ => trivial
  have functional : Propagation.LinksFunctional (c₀.context z horizon) :=
    Propagation.linksFunctional_of_no_links rfl
  obtain ⟨wf', grows, plain, settled⟩ := (Propagation.toFixpoint_ends
    problem.performs_walkValue.keeps functional stops _ problem.wellFormed
      problem.plain_walkValue).of_ok run
  obtain ⟨_, _, grouped', _⟩ := (Propagation.toFixpoint_ends performs.keeps functional stops _
    problem.wellFormed grouped₀).of_ok run
  have everywhere' : (c₀.context z horizon).onlyToZ = false := by
    dsimp only [context]
    rw [options', everywhere]
  rw [ready, same]
  refine ⟨c₀.context z horizon, hz', ?_, ?_, grouped'⟩
  · rw [hz] at isReference
    dsimp only
    rw [bounded, Network.reference_addBounds wf inside, sameReference]
    exact Option.some.inj isReference
  · refine ⟨problem, grows, wf', plain, fun x y w => settled (.labelPropagation x y w) fun toZ => ?_⟩
    rw [everywhere'] at toZ
    cases toZ

end CstnChecker

/-- The consistency check over all pairs of nodes makes a consistent simple temporal network minimal:
between any two nodes one value is left, which is the distance from the one to the other in the
initialised network; and the window of each node but the reference node spans from its least to its
greatest time over all schedules of that network. -/
theorem minimal_of_consistent (g : LabeledNetwork) (simple : g.Simple) (grouped : g.Grouped)
    (options : CheckerOptions) (everywhere : options.onlyToZ = false) (rules : RuleSet)
    (enabled : Rule.labelPropagation ∈ rules) (stops : Polls) (c : CstnChecker) (status : CheckStatus)
    (checked : (CstnChecker.ofNetwork g options rules).check stops = (c, .ok status))
    (consistent : status.outcome = .consistent) :
    let start := (CstnChecker.ofNetwork g options rules).initialise.1.network
    c.network.nodeCount = start.nodeCount ∧
    (∀ x < start.nodeCount, ∀ y < start.nodeCount, x ≠ y → ∃ e d,
      c.network.edgeBetween? x y = some e ∧ e.allValues = [(.empty, .empty, d)] ∧
        IsDistance start.Requires x y d) ∧
    (∀ x < start.nodeCount, x ≠ start.reference → ∃ earliest latest : Int,
      c.timeWindow? x .empty = some (earliest, latest) ∧
        IsLeast (start.times x) (earliest : ℚ) ∧ IsGreatest (start.times x) (latest : ℚ)) := by
  obtain ⟨ctx, hz, isReference, solved, grouped'⟩ :=
    CstnChecker.solved_of_consistent simple grouped enabled everywhere checked consistent
  dsimp only
  generalize (CstnChecker.ofNetwork g options rules).initialise.1.network = start at *
  obtain ⟨D, measured, least⟩ := solved.exists_measured isReference
  have edges : ∀ x < start.nodeCount, ∀ y < start.nodeCount, x ≠ y → ∃ e,
      c.network.edgeBetween? x y = some e ∧ e.upper = .empty ∧
        e.values.entries = [(.empty, D x y)] := by
    intro x hx y hy apart
    have holds := (least x hx y hy apart).holdsIn
    have ⟨e, _, joined, _⟩ := holds
    exact ⟨e, joined, (solved.plain x y e joined).2.upper,
      grouped'.entries_eq solved.plain joined holds⟩
  refine ⟨solved.grows.nodeCount, fun x hx y hy apart => ?_, fun x hx apart => ?_⟩
  · obtain ⟨e, joined, upper, entries⟩ := edges x hx y hy apart
    refine ⟨e, D x y, joined, ?_, measured.distance x hx y hy⟩
    simp [LabeledEdge.allValues, entries, upper, UpperCaseMap.empty, UpperCaseMap.entries]
  · obtain ⟨e, joined, _, entries⟩ := edges x hx _ measured.inside apart
    obtain ⟨e', joined', _, entries'⟩ := edges _ measured.inside x hx (Ne.symm apart)
    have nonpos := measured.distance_reference_nonpos hx
    have low : D x start.reference ≠ Value.negInf := by
      intro same
      have limits : c.network.Limits x start.reference (D x start.reference) :=
        ⟨_, le_rfl, nonpos.trans_lt (by decide), (least x hx _ measured.inside apart).holdsIn⟩
      have above := solved.neg_horizon_le limits
      exact absurd solved.problem.negInf_lt (not_lt.mpr (same ▸ above))
    refine ⟨-D x start.reference, D start.reference x, ?_, measured.isLeast_times hx,
      measured.isGreatest_times hx⟩
    rw [isReference] at hz
    simp [CstnChecker.timeWindow?, hz, joined, joined', ValueMap.minSubsumed?, entries, entries',
      Label.subsumes_refl, Value.neg?, low]

/-- A network of which the least and the greatest time of X are derived over Y. -/
def windowNetwork : LabeledNetwork :=
  (Network.build [.named "Z", .named "X", .named "Y"]
    [("latest", 0, 2, .ofValue .ordinary .empty 9),
      ("before", 1, 2, .ofValue .ordinary .empty 5),
      ("after", 2, 1, .ofValue .ordinary .empty (-2)),
      ("earliest", 2, 0, .ofValue .ordinary .empty (-7))]).getD .empty

theorem windowNetwork_simple : windowNetwork.Simple :=
  .of_slots (Network.wellFormed_getD_build _ _) (by decide +kernel) (by decide +kernel)
    (by decide +kernel)

/-- X is between the times 2 and 7. -/
theorem minimal_of_consistent_window :
    ∃ c status, (CstnChecker.ofNetwork windowNetwork untimed .full).check .never =
      (c, .ok status) ∧ status.outcome = .consistent ∧ c.timeWindow? 1 .empty = some (2, 7) ∧
      IsLeast ((CstnChecker.ofNetwork windowNetwork untimed .full).initialise.1.network.times 1) 2 ∧
      IsGreatest ((CstnChecker.ofNetwork windowNetwork untimed
        .full).initialise.1.network.times 1) 7 := by
  have grouped : windowNetwork.Grouped :=
    .of_slots (Network.wellFormed_getD_build _ _) (by decide +kernel)
  have answered : ((CstnChecker.ofNetwork windowNetwork untimed .full).check
      .never).2.toOption.map CheckStatus.outcome = some .consistent := by decide +kernel
  have window : ((CstnChecker.ofNetwork windowNetwork untimed .full).check
      .never).1.timeWindow? 1 .empty = some (2, 7) := by decide +kernel
  cases checked : (CstnChecker.ofNetwork windowNetwork untimed .full).check .never with
  | mk c answer =>
    rw [checked] at answered window
    cases answer with
    | error e => cases answered
    | ok status =>
      have consistent : status.outcome = .consistent := Option.some.inj answered
      obtain ⟨_, _, windows⟩ := minimal_of_consistent windowNetwork windowNetwork_simple grouped
        untimed rfl .full (by decide) .never c status checked consistent
      obtain ⟨earliest, latest, window', least, greatest⟩ :=
        windows 1 (by decide +kernel) (by decide +kernel)
      rw [window] at window'
      obtain ⟨rfl, rfl⟩ : 2 = earliest ∧ 7 = latest := by simpa using window'
      exact ⟨c, status, rfl, consistent, window, by exact_mod_cast least, by exact_mod_cast greatest⟩

end TemporalNetwork
