import TemporalNetwork.Proofs.Strategy.Schedule

/-!
The network of maximal durations of a network whose values a strategy keeps. When every link takes as
long as it can, the strategy keeps the upper-case values too, so its times are a schedule for that
network, which is not found inconsistent.
-/

namespace TemporalNetwork

namespace LabeledEdge

variable {P : CaseLabel → Label → Value → Prop} {e : LabeledEdge}

theorem EveryValue.dropUnknown (every : e.EveryValue P) : e.dropUnknown.EveryValue P := by
  obtain ⟨ordinary, lettered⟩ := everyValue_iff.mp every
  refine everyValue_iff.mpr ⟨fun l w mem => ordinary l w (ValueMap.mem_dropUnknown.mp mem).1, ?_⟩
  intro c m group l w mem
  obtain ⟨m', group', rfl, _⟩ := UpperCaseMap.mem_mapGroups.mp group
  exact lettered c m' group' l w (ValueMap.mem_dropUnknown.mp mem).1

theorem EveryValue.withOrdinary (joins : Joins P) (every : e.EveryValue P)
    (vs : List (CaseLabel × Label × Value)) (new : ∀ v ∈ vs, P .empty v.2.1 v.2.2) :
    (e.withOrdinary vs).EveryValue P := by
  induction vs generalizing e with
  | nil => exact every
  | cons first rest ih =>
    exact ih (every.mergeOrdinary joins (new first List.mem_cons_self))
      fun v mem => new v (List.mem_cons_of_mem _ mem)

theorem EveryValue.allMax {P : Label → Value → Prop} (joins : Joins fun _ => P)
    (every : e.EveryValue fun _ => P) : e.allMax.EveryValue fun _ => P := by
  have known := every.dropUnknown
  have merged := known.withOrdinary joins e.dropUnknown.upper.entries fun v mem =>
    known v.1 v.2.1 v.2.2 (List.mem_append_right _ mem)
  refine everyValue_iff.mpr ⟨fun l w mem => ?_, fun c m group => ?_⟩
  · rw [allMax_values] at mem
    exact (everyValue_iff.mp merged).1 l w mem
  · rw [allMax_upper] at group
    cases group

theorem allMax_lower (e : LabeledEdge) : e.allMax.lower = none := by
  unfold allMax
  dsimp only
  split <;> rfl

end LabeledEdge

namespace Network

variable {g : LabeledNetwork}

theorem EveryValue.allMaxProjection {P : NodeId → NodeId → Label → Value → Prop}
    (joins : ∀ u v, Joins fun _ => P u v) (every : g.EveryValue fun u v _ => P u v) :
    g.allMaxProjection.EveryValue fun u v _ => P u v := by
  intro u v f joined
  rw [edgeBetween?_allMaxProjection] at joined
  obtain ⟨e, joined', rfl⟩ := Option.map_eq_some_iff.mp joined
  exact (every u v e joined').allMax (joins u v)

theorem everyLower_allMaxProjection (g : LabeledNetwork) (P : NodeId → NodeId → LowerCaseValue → Prop) :
    g.allMaxProjection.EveryLower P := by
  intro u v f low joined stored
  rw [edgeBetween?_allMaxProjection] at joined
  obtain ⟨e, _, rfl⟩ := Option.map_eq_some_iff.mp joined
  rw [LabeledEdge.allMax_lower] at stored
  cases stored

end Network

namespace RuleContext

variable {ctx : RuleContext} {σ : (Nat → ℚ) → NodeId → ℚ} {n : Nat} {g : LabeledNetwork}

/-- With maximal durations no upper-case value is suspended. -/
theorem slow_longest (links : List ContingentLink) (case : CaseLabel) :
    Slow links case (longestDurations ℚ (links.map ContingentLink.plain)) := by
  intro i link listed _
  have listed' : (links.map ContingentLink.plain)[i]? = some link.plain := by
    rw [List.getElem?_map, listed, Option.map_some]
  exact longestDurations_eq ℚ listed'

/-- The network of maximal durations is not found inconsistent if a strategy keeps the values. -/
theorem Controlled.projection (controlled : ctx.Controlled σ n) (keeps : ctx.KeepsAll σ n g)
    (origin : ∀ ω, Admissible (ctx.links.map ContingentLink.plain) ω → σ ω ctx.z = 0)
    (wf : g.WellFormed) {options : CheckerOptions} (unlabelled : g.Unlabelled options.withNodeLabels)
    {rules : RuleSet} {stops : Polls} {c : CstnChecker} {status : CheckStatus}
    (checked : (CstnChecker.ofNetwork g.allMaxProjection options rules).check stops =
      (c, .ok status)) : status.outcome ≠ .inconsistent := by
  let ω := longestDurations ℚ (ctx.links.map ContingentLink.plain)
  have admissible : Admissible _ ω := controlled.admissible_longest
  -- Every value bounds the distance of its nodes from above.
  have kept : g.EveryValue fun u v _ l w => l = .empty ∧ (u ≠ v → w.Admits (σ ω v - σ ω u)) := by
    intro u v e joined case l w mem
    obtain ⟨labelless, within⟩ := keeps.values u v e joined case l w mem
    obtain ⟨hu, hv⟩ := wf.lt_of_edgeBetween? joined
    rw [keeps.nodeCount] at hu hv
    refine ⟨labelless, fun apart => ?_⟩
    have le := within apart ω admissible (slow_longest _ case)
    exact ⟨negInf_lt_of_le controlled.finite (controlled.distance admissible hu hv).1 le, Or.inr le⟩
  refine CstnChecker.not_inconsistent_of_schedule (t := σ ω) wf.allMaxProjection
    (unlabelled.of_nodes rfl) (fun m hm => ?_) (kept.allMaxProjection fun _ _ => joins_labelless _)
    (g.everyLower_allMaxProjection _) checked
  have same : g.allMaxProjection.reference = ctx.z := keeps.reference
  rw [same, origin ω admissible]
  exact controlled.early ω admissible m (keeps.nodeCount ▸ hm)

end RuleContext

end TemporalNetwork
