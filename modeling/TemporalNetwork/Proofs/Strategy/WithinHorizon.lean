import TemporalNetwork.Proofs.Strategy.Hastening
import TemporalNetwork.Proofs.Strategy.Refutation
import TemporalNetwork.Proofs.Strategy.UpperCase

/-!
A strategy that obeys the values of a network can be hastened so that it stays within the horizon, and
it goes on obeying them.
-/

namespace TemporalNetwork

namespace RuleContext

/-- Whether the strategy obeys a value without label; the value need not be within the horizon. -/
def Obeys (ctx : RuleContext) (σ : (Nat → ℚ) → NodeId → ℚ) : ValueProperty :=
  fun u v case label w => label = .empty ∧ (u ≠ v → ∀ ω,
    Admissible (ctx.links.map ContingentLink.plain) ω → Slow ctx.links case ω →
      w.Admits (σ ω v - σ ω u))

/-- A strategy for a network whose horizon is known. -/
structure Obeyed (ctx : RuleContext) (σ : (Nat → ℚ) → NodeId → ℚ) (h : LabeledNetwork)
    (horizon : Horizon) : Prop where
  wellFormed : h.WellFormed
  reference : h.reference = ctx.z
  known : h.horizon? = .ok horizon
  within : ctx.horizon = horizon.value
  strategy : Unforeseeing (Finset.range h.nodeCount) (ctx.links.map ContingentLink.plain) σ
  positive : ∀ link ∈ ctx.links, 0 < link.lower
  range : ∀ link ∈ ctx.links, link.lower < link.upper
  wide : ∀ link ∈ ctx.links, link.upper ≤ h.maxWeight
  letters : (ctx.links.map ContingentLink.letter).Nodup
  first : ∀ ω, Admissible (ctx.links.map ContingentLink.plain) ω → ∀ n < h.nodeCount,
    σ ω ctx.z ≤ σ ω n
  values : h.EveryValue (ctx.Obeys σ)
  lower : h.EveryLower fun u v low => ∃ link ∈ ctx.links, link.activation = u ∧
    link.contingent = v ∧ low = ⟨link.letter, .empty, link.lower⟩

namespace Obeyed

variable {ctx : RuleContext} {σ : (Nat → ℚ) → NodeId → ℚ} {h : LabeledNetwork} {horizon : Horizon}
  {ω : Nat → ℚ}

theorem nonneg (h : LabeledNetwork) : (0 : ℚ) ≤ h.maxWeight := by exact_mod_cast h.maxWeight_nonneg

theorem controlled (obeyed : ctx.Obeyed σ h horizon) :
    ctx.Controlled (hasten σ h.nodeCount h.maxWeight) h.nodeCount where
  strategy := by
    refine obeyed.strategy.hasten (fun link mem => ?_) (fun link mem => ?_) (nonneg h)
    · obtain ⟨other, listed, rfl⟩ := List.mem_map.mp mem
      exact_mod_cast obeyed.positive other listed
    · obtain ⟨other, listed, rfl⟩ := List.mem_map.mp mem
      exact_mod_cast obeyed.wide other listed
  positive := obeyed.positive
  range := obeyed.range
  letters := obeyed.letters
  early _ _ _ _ := hasten_nonneg (nonneg h)
  late ω _ x _ := by
    obtain ⟨_, weight, product⟩ := Network.horizon?_spec obeyed.known
    rw [obeyed.within, product, weight, Int.cast_mul, Int.cast_natCast]
    exact hasten_le (nonneg h)
  finite := obeyed.within ▸ (Network.horizon?_spec obeyed.known).1.2

theorem origin (obeyed : ctx.Obeyed σ h horizon)
    (admissible : Admissible (ctx.links.map ContingentLink.plain) ω) :
    hasten σ h.nodeCount h.maxWeight ω ctx.z = 0 :=
  hasten_of_first (obeyed.first ω admissible)

theorem keepsAll (obeyed : ctx.Obeyed σ h horizon) :
    ctx.KeepsAll (hasten σ h.nodeCount h.maxWeight) h.nodeCount h where
  nodeCount := rfl
  reference := obeyed.reference
  values u v e joined case label w mem := by
    obtain ⟨labelless, obeys⟩ := obeyed.values u v e joined case label w mem
    refine ⟨labelless, fun apart ω admissible slow => ?_⟩
    obtain ⟨hu, hv⟩ := obeyed.wellFormed.lt_of_edgeBetween? joined
    obtain ⟨low, infinite | le⟩ := obeys apart ω admissible slow
    · have finite : (ctx.horizon : ℚ) < (Value.posInf : Value) := by
        exact_mod_cast obeyed.controlled.finite
      rw [infinite]
      exact (obeyed.controlled.distance admissible hu hv).2.trans finite.le
    · refine hasten_le_of_le (nonneg h) hu hv ?_ le
      rcases le_or_gt 0 w with positive | negative
      · have positive' : (0 : ℚ) ≤ w := by exact_mod_cast positive
        linarith [nonneg h]
      · have finite : Value.IsFinite w := ⟨low, lt_trans negative (by decide)⟩
        exact_mod_cast Network.neg_le_maxWeight_of_mem (x := (case, label, w)) joined mem negative
          finite
  lower := obeyed.lower

/-- No negative loop is found in a network whose values a strategy obeys; if a fixpoint is found, the
hastened strategy keeps all its values. -/
theorem propagation (obeyed : ctx.Obeyed σ h horizon) {withNodeLabels : Bool}
    (unlabelled : h.Unlabelled withNodeLabels) (hz : ctx.z < h.nodeCount)
    (functional : Propagation.LinksFunctional ctx) (stops : Polls) (cycleBound : Nat) {p : Progress}
    (bounded : p.network = h.addBounds ctx.z horizon.value withNodeLabels) :
    Ends (Propagation.toFixpoint ctx stops cycleBound) p
      (fun _ q => q.network.WellFormed ∧ p.network.Grows q.network ∧
        ctx.KeepsAll (hasten σ h.nodeCount h.maxWeight) h.nodeCount q.network)
      (fun halt _ => ∀ loop, halt ≠ .negativeLoop loop) := by
  have controlled := obeyed.controlled
  have start := controlled.keepsAll_addBounds (fun ω admissible => obeyed.origin admissible)
    obeyed.wellFormed hz unlabelled obeyed.keepsAll
  have finite := (Network.horizon?_spec obeyed.known).1.2
  obtain ⟨wf, _, _⟩ := Network.addBounds_spec obeyed.wellFormed hz horizon.value (ne_of_lt finite)
    withNodeLabels
  rw [obeyed.within, ← bounded] at start
  rw [← bounded] at wf
  exact (Propagation.toFixpoint_ends (controlled.keeps p.network) functional stops cycleBound wf
    start).mono (fun _ _ ⟨wf', grows, kept, _⟩ => ⟨wf', grows, kept⟩) fun _ _ => id

end Obeyed

end RuleContext

end TemporalNetwork
