import TemporalNetwork.Proofs.Strategy.WithinHorizon

/-!
A network without labels and links that has a schedule. The schedule is a strategy that has nothing to
wait for, so the consistency check does not find the network inconsistent.
-/

namespace TemporalNetwork

/-- The node, or the reference node in place of one that is not in the network. -/
def Network.orReference (g : LabeledNetwork) (n : NodeId) : NodeId :=
  if n < g.nodeCount then n else g.reference

namespace Network

variable {g : LabeledNetwork} {n : NodeId}

theorem orReference_of_lt (inside : n < g.nodeCount) : g.orReference n = n := if_pos inside

@[simp] theorem orReference_reference (g : LabeledNetwork) : g.orReference g.reference = g.reference := by
  unfold orReference
  split <;> rfl

theorem orReference_cases (g : LabeledNetwork) (n : NodeId) :
    g.orReference n < g.nodeCount ∨ g.orReference n = g.reference := by
  unfold orReference
  split
  · rename_i inside
    exact Or.inl inside
  · exact Or.inr rfl

end Network

namespace CstnChecker

variable {g : LabeledNetwork} {options : CheckerOptions} {rules : RuleSet} {stops : Polls}
  {c : CstnChecker} {status : CheckStatus} {t : NodeId → ℚ}

theorem obeyed_of_schedule {ctx : RuleContext} {h : LabeledNetwork} {horizon : Horizon}
    (wf : g.WellFormed) (first : ∀ n < g.nodeCount, t g.reference ≤ t n)
    (values : g.EveryValue fun u v _ l w => l = .empty ∧ (u ≠ v → w.Admits (t v - t u)))
    (lower : g.EveryLower fun _ _ _ => False) (unlinked : ctx.links = [])
    (isReference : ctx.z = g.reference) (within : ctx.horizon = horizon.value)
    (unaltered : g.Unaltered options.withNodeLabels h) (wf' : h.WellFormed)
    (same : h.reference = g.reference) (known : h.horizon? = .ok horizon) :
    ctx.Obeyed (fun _ n => t (g.orReference n)) h horizon where
  wellFormed := wf'
  reference := same.trans isReference.symm
  known := known
  within := within
  strategy := by
    rw [unlinked]
    exact ⟨nofun, fun _ _ _ _ listed => by simp at listed, fun _ _ _ _ _ _ _ _ => rfl⟩
  positive link mem := by
    rw [unlinked] at mem
    cases mem
  range link mem := by
    rw [unlinked] at mem
    cases mem
  wide link mem := by
    rw [unlinked] at mem
    cases mem
  letters := by
    rw [unlinked]
    exact List.nodup_nil
  first _ _ n _ := by
    rw [isReference, g.orReference_reference]
    rcases g.orReference_cases n with inside | same
    · exact first _ inside
    · rw [same]
  values u v e joined case l w mem := by
    rw [unaltered.edgeBetween?] at joined
    obtain ⟨hu, hv⟩ := wf.lt_of_edgeBetween? joined
    obtain ⟨labelless, admits⟩ := values u v e joined case l w mem
    refine ⟨labelless, fun apart _ _ _ => ?_⟩
    dsimp only
    rw [Network.orReference_of_lt hu, Network.orReference_of_lt hv]
    exact admits apart
  lower u v e low joined stored := by
    rw [unaltered.edgeBetween?] at joined
    exact (lower u v e low joined stored).elim

/-- The check of a network that has a schedule does not answer that it is inconsistent. -/
theorem not_inconsistent_of_schedule (wf : g.WellFormed)
    (unlabelled : g.Unlabelled options.withNodeLabels)
    (first : ∀ n < g.nodeCount, t g.reference ≤ t n)
    (values : g.EveryValue fun u v _ l w => l = .empty ∧ (u ≠ v → w.Admits (t v - t u)))
    (lower : g.EveryLower fun _ _ _ => False)
    (checked : (ofNetwork g options rules).check stops = (c, .ok status)) :
    status.outcome ≠ .inconsistent := by
  intro inconsistent
  obtain ⟨c₀, z, horizon, ready, hz, hh, _, _, _, negative⟩ := propagation_of_check checked
  obtain ⟨loop, p, run⟩ := negative inconsistent
  obtain ⟨h, horizon', unaltered, wf', same, inside, known, isReference, hh', options', _, bounded⟩ :=
    initialise_unaltered wf unlabelled (values.mono fun _ _ _ _ _ kept => kept.1) ready
  rw [hz] at isReference
  rw [hh] at hh'
  cases hh'
  obtain rfl := Option.some.inj isReference
  have obeyed : (c₀.context g.reference horizon).Obeyed (fun _ n => t (g.orReference n)) h horizon :=
    obeyed_of_schedule wf first values lower rfl rfl rfl unaltered wf' same known
  exact (obeyed.propagation unaltered.unlabelled inside (fun _ mem => by cases mem) stops _
    bounded).of_error run loop rfl

end CstnChecker

end TemporalNetwork
