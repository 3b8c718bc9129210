import TemporalNetwork.Proofs.Conditional.Projection
import TemporalNetwork.Proofs.Conditional.Remainder
import TemporalNetwork.Proofs.Conditional.Unlinked

/-!
The controllability check extends the consistency check. Of a fixpoint of the full rules on a network
without case values, the network of maximal durations keeps the values that have no unknown literal. It
needs no repair, its horizon is no earlier, and the fixpoint still has answers to all it can derive, so
its check meets no negative loop. It may be left without an answer, though: the horizon is computed from
derived values now, and may be too large.
-/

namespace TemporalNetwork

namespace Label

variable {a : Label}

/-- A scenario over all propositions that satisfies the label. -/
def completed (a : Label) : Label := (allStraight.eraseAll a.propositions).blend a

theorem state_completed (a : Label) (p : Proposition) :
    a.completed.state p = some ((a.state p).getD .straight) := by
  rw [completed, state_blend, state_eraseAll, contains_propositions]
  cases here : a.state p with
  | none =>
    have straight : ∀ p, allStraight.state p = some .straight := by decide
    rw [straight]
    rfl
  | some s => rfl

theorem subsumes_completed (a : Label) : a.completed.subsumes a = true :=
  subsumes_iff.mpr fun p s stated => by rw [state_completed, stated]; rfl

theorem isComplete_completed (known : a.hasUnknown = false) : a.completed.IsComplete := by
  intro p
  rw [state_completed]
  cases here : a.state p with
  | none => exact Or.inl rfl
  | some s =>
    cases s with
    | straight => exact Or.inl rfl
    | negated => exact Or.inr rfl
    | unknown => exact absurd here (state_ne_unknown known p)

end Label

namespace LabeledEdge

variable {e : LabeledEdge} {c : CaseLabel} {l : Label} {w : Value}

theorem mem_allMax_iff (plain : e.EveryValue fun c _ _ => c = .empty) (lettered : e.upper.Lettered) :
    (c, l, w) ∈ e.allMax.allValues ↔
      c = .empty ∧ (l, w) ∈ e.values.entries ∧ l.hasUnknown = false := by
  have none : e.dropUnknown.upper.entries = [] := by
    refine List.eq_nil_iff_forall_not_mem.mpr fun ⟨c, l, w⟩ mem => ?_
    obtain ⟨⟨c, m⟩, group, mapped⟩ := List.mem_flatMap.mp mem
    obtain ⟨⟨l, w⟩, stored, same⟩ := List.mem_map.mp mapped
    obtain ⟨m', group', rfl, _⟩ := UpperCaseMap.mem_mapGroups.mp group
    have stored' := (ValueMap.mem_dropUnknown.mp stored).1
    have letters := lettered c m' group'
    rw [plain c l w (mem_allValues.mpr (Or.inr ⟨m', group', stored'⟩))] at letters
    cases letters
  rw [mem_allValues, allMax_values, none, allMax_upper]
  simp only [withOrdinary, List.foldl_nil, dropUnknown, ValueMap.mem_dropUnknown]
  constructor
  · rintro (ordinary | ⟨_, group, _⟩)
    · exact ordinary
    · cases group
  · exact Or.inl

end LabeledEdge

/-- What a consistent check with the full rules leaves of a network without case values: `h` is the
repaired network, and `q` the fixpoint. -/
structure RuleContext.Accepts (ctx : RuleContext) (h q : LabeledNetwork) (horizon : Horizon) : Prop where
  repaired : h.Repaired (fun c w => c = .empty ∧ w.InRange) ctx.withNodeLabels ctx.z
  known : h.horizon? = .ok horizon
  late : ctx.horizon = horizon.value
  table : ctx.observations = q.observations
  fixpoint : ctx.Fixpoint q
  remains : ctx.Remains h q
  grows : (h.addBounds ctx.z horizon.value ctx.withNodeLabels).Grows q
  bounded : ∀ u v e l w, q.edgeBetween? u v = some e → (l, w) ∈ e.values.entries → u ≠ v →
    l.hasUnknown = false → Value.negInf < w

namespace CstnChecker

variable {g : LabeledNetwork} {options : CheckerOptions} {stops : Polls} {c : CstnChecker}
  {status : CheckStatus}

end CstnChecker

namespace RuleContext.Accepts

variable {ctx : RuleContext} {h q : LabeledNetwork} {horizon horizon' : Horizon} {u v : NodeId}
  {f : LabeledEdge} {c : CaseLabel} {l : Label} {w : Value}

theorem grown (accepts : ctx.Accepts h q horizon) : h.Grows q := by
  obtain ⟨finite, _, _⟩ := Network.horizon?_spec accepts.known
  obtain ⟨_, grows, _⟩ := Network.addBounds_spec accepts.repaired.wellFormed accepts.repaired.inside
    horizon.value (ne_of_lt finite.2) ctx.withNodeLabels
  exact grows.trans accepts.grows

theorem nodes (accepts : ctx.Accepts h q horizon) : q.nodes = h.nodes := accepts.grown.nodes

theorem mem_allMax_iff (accepts : ctx.Accepts h q horizon) {e : LabeledEdge}
    (joined : q.edgeBetween? u v = some e) :
    (c, l, w) ∈ e.allMax.allValues ↔ c = .empty ∧ (l, w) ∈ e.values.entries ∧ l.hasUnknown = false :=
  LabeledEdge.mem_allMax_iff (fun c l w mem => (accepts.remains.fitted u v e joined c l w mem).1)
    (accepts.remains.lettered u v e joined)

/-- The network of maximal durations holds ordinary values of the fixpoint. -/
theorem exists_mem_of_projection (accepts : ctx.Accepts h q horizon)
    (joined : q.allMaxProjection.edgeBetween? u v = some f) (mem : (c, l, w) ∈ f.allValues) :
    ∃ e, q.edgeBetween? u v = some e ∧ (c, l, w) ∈ e.allValues ∧ l.hasUnknown = false := by
  rw [Network.edgeBetween?_allMaxProjection] at joined
  obtain ⟨e, joined', rfl⟩ := Option.map_eq_some_iff.mp joined
  obtain ⟨rfl, stored, known⟩ := (accepts.mem_allMax_iff joined').mp mem
  exact ⟨e, joined', LabeledEdge.mem_allValues.mpr (Or.inl ⟨rfl, stored⟩), known⟩

theorem labelRepair_projection (accepts : ctx.Accepts h q horizon)
    (joined : q.allMaxProjection.edgeBetween? u v = some f) (mem : (c, l, w) ∈ f.allValues) :
    q.allMaxProjection.labelRepair ctx.withNodeLabels u v l = .keep := by
  obtain ⟨e, joined', stored, known⟩ := accepts.exists_mem_of_projection joined mem
  have same : q.allMaxProjection.labelRepair = q.labelRepair := Network.labelRepair_of_nodes rfl
  rw [same]
  have fitted := accepts.remains.fitted u v e joined' c l w stored
  rw [← fittedValue_congr accepts.nodes] at fitted
  exact labelRepair_of_fitted (accepts.fixpoint.regular u v e joined' c l w stored).2 fitted known

theorem prepare_projection (accepts : ctx.Accepts h q horizon) (fixes : List String) :
    (WellDefined.prepare ctx.withNodeLabels).run ⟨q.allMaxProjection, fixes⟩ =
      .ok ctx.z ⟨q.allMaxProjection, fixes⟩ := by
  have same : q.allMaxProjection.nodes = h.nodes := accepts.nodes
  have nodeD : ∀ n, q.allMaxProjection.nodeD n = h.nodeD n := fun n => by
    rw [Network.nodeD, Network.node?, same, Network.nodeD, Network.node?]
  have repaired := accepts.repaired
  have wf := accepts.fixpoint.wellFormed.allMaxProjection
  refine WellDefined.prepare_idle ?_ ?_ (fun m n p => ?_) ?_ (fun on => ?_) fun i slot stored c l w mem => ?_
  · exact accepts.remains.reference.trans repaired.prepared.reference
  · have inside := repaired.inside
    rwa [Network.nodeCount, ← same] at inside
  · rw [nodeD, nodeD]
    exact repaired.unique m n p
  · rw [nodeD]
    exact repaired.prepared.origin
  · exact Network.wellDefinedNodes_of_nodes same (repaired.nodes on).1
  · exact accepts.labelRepair_projection (wf.edgeBetween?_eq_some_iff.mpr ⟨i, slot, stored, rfl, rfl, rfl⟩)
      mem

/-- A value that the checked network starts from is left, or a smaller one. -/
theorem maxWeight_le (accepts : ctx.Accepts h q horizon) :
    h.maxWeight ≤ q.allMaxProjection.maxWeight := by
  have kept : ∀ u v e l w, q.edgeBetween? u v = some e → (l, w) ∈ e.values.entries →
      l.hasUnknown = false → w < 0 → Value.negInf < w → -w ≤ q.allMaxProjection.maxWeight := by
    intro u v e l w joined stored known negative finite
    refine Network.neg_le_maxWeight_of_mem (u := u) (v := v) (e := e.allMax) (x := (.empty, l, w)) ?_
      ((accepts.mem_allMax_iff joined).mpr ⟨rfl, stored, known⟩) negative
      ⟨finite, lt_trans negative (by decide)⟩
    rw [Network.edgeBetween?_allMaxProjection, joined, Option.map_some]
  refine Network.maxWeight_le (Network.maxWeight_nonneg _) fun i e here ⟨c, l, w⟩ mem negative finite => ?_
  obtain ⟨slot, stored, rfl⟩ := Option.map_eq_some_iff.mp here
  obtain ⟨⟨rfl, _⟩, grounded⟩ := accepts.repaired.prepared.values i slot stored c l w mem
  have joined := accepts.repaired.wellFormed.edgeBetween?_eq_some_iff.mpr
    ⟨i, slot, stored, rfl, rfl, rfl⟩
  by_cases loop : slot.source = slot.target
  · -- Nothing without unknown literals is derived on a loop, so its own value is still there.
    rw [← loop] at joined
    have ordinary := ((LabeledEdge.mem_allValues.mp mem).resolve_right fun ⟨m, group, _⟩ => by
      have letters := accepts.repaired.prepared.lettered i slot stored _ m group
      cases letters).2
    obtain ⟨f, joined', stored'⟩ := accepts.remains.loops _ _ joined l w ordinary grounded.known
    exact kept _ _ f l w joined' stored' grounded.known negative finite.1
  -- Elsewhere the value may have been replaced, but only by one at most as large and at least as
  -- general.
  · have lettered : ∀ u v e, h.edgeBetween? u v = some e → e.upper.Lettered := by
      intro u v e joined
      obtain ⟨i, slot, stored, _, _, rfl⟩ :=
        accepts.repaired.wellFormed.edgeBetween?_eq_some_iff.mp joined
      exact accepts.repaired.prepared.lettered i slot stored
    obtain ⟨f, joined', covers⟩ := accepts.grown.covers
      (Network.covers_of_mem joined (lettered _ _ _ joined) mem)
    have dominated := covers.resolve_right fun upper => absurd upper.1 (by decide)
    obtain ⟨⟨l', w'⟩, stored', general, le⟩ := ValueMap.dominates_iff.mp dominated
    have known' := Label.hasUnknown_of_subsumes general grounded.known
    have satisfiable := accepts.bounded _ _ f l' w' joined' stored' loop known'
    exact le_trans (neg_le_neg le) (kept _ _ f l' w' joined' stored' known' (lt_of_le_of_lt le negative)
      satisfiable)

/-- The fixpoint has answers to all that the second propagation starts from. -/
theorem answered (accepts : ctx.Accepts h q horizon) {latest : Value} (later : ctx.horizon ≤ latest)
    (finite : Value.IsFinite latest) :
    (q.allMaxProjection.addBounds ctx.z latest ctx.withNodeLabels).EveryValue
      (ctx.AnsweredValue q) := by
  have wf := accepts.fixpoint.wellFormed
  have count : q.nodeCount = h.nodeCount := accepts.grown.nodeCount
  have inside : ctx.z < q.allMaxProjection.nodeCount := count.symm ▸ accepts.repaired.inside
  obtain ⟨finite', _, _⟩ := Network.horizon?_spec accepts.known
  obtain ⟨_, _, bounds⟩ := Network.addBounds_spec accepts.repaired.wellFormed accepts.repaired.inside
    horizon.value (ne_of_lt finite'.2) ctx.withNodeLabels
  have covered : ∀ n < q.nodeCount, n ≠ ctx.z →
      q.Covers n ctx.z .empty (ctx.nodeLabel q n) 0 ∧
        q.Covers ctx.z n .empty (ctx.nodeLabel q n) latest := by
    intro n here apart
    obtain ⟨early, late⟩ := accepts.grows.bounds (bounds n (count ▸ here) apart)
    exact ⟨early, late.mono (CaseLabel.subset_refl _) (Label.subsumes_refl _) (accepts.late ▸ later)⟩
  refine Network.EveryValue.addBounds ?_ (joinsTwins_answeredValue ctx q) wf.allMaxProjection inside
    (fun n here apart => ?_) fun n here apart => ?_
  · intro u v f joined c l w mem
    obtain ⟨e, joined', stored, _⟩ := accepts.exists_mem_of_projection joined mem
    exact Fixpoint.answeredValue_of_covers (accepts.fixpoint.regular u v e joined' c l w stored)
      (Network.covers_of_mem joined' (accepts.remains.lettered u v e joined') stored)
  · exact Fixpoint.answeredValue_of_covers ⟨by decide, accepts.fixpoint.nested.closed n⟩
      (covered n here apart).1
  · exact Fixpoint.answeredValue_of_covers
      ⟨⟨finite.1.le, finite.2.le⟩, accepts.fixpoint.nested.closed n⟩ (covered n here apart).2

theorem prepare_ends (accepts : ctx.Accepts h q horizon) (fixes : List String) :
    Ends (CstnChecker.prepare ctx.withNodeLabels) ⟨q.allMaxProjection, fixes⟩
      (fun r d => r.1 = ctx.z ∧ q.allMaxProjection.horizon? = .ok r.2 ∧
        d.network = q.allMaxProjection.addBounds ctx.z r.2.value ctx.withNodeLabels)
      fun e _ => ∃ r, e = .range r := by
  have uncontingent : q.allMaxProjection.contingentEdges = [] := by
    refine Network.contingentEdges_eq_nil_iff.mpr fun e slot stored => ?_
    rw [Network.slot?_allMaxProjection] at stored
    obtain ⟨slot', _, rfl⟩ := Option.map_eq_some_iff.mp stored
    exact slot'.payload.allMax_kind
  have idle : Ends (WellDefined.prepare ctx.withNodeLabels) ⟨q.allMaxProjection, fixes⟩
      (fun z d => z = ctx.z ∧ d = ⟨q.allMaxProjection, fixes⟩) fun _ _ => False := by
    rw [Ends, accepts.prepare_projection fixes]
    exact ⟨rfl, rfl⟩
  unfold CstnChecker.prepare
  refine Ends.bind (idle.mono (fun _ _ => id) fun _ _ => False.elim) fun z d same => ?_
  obtain ⟨rfl, rfl⟩ := same
  rw [ends_bind, Preparation.ends_network, uncontingent]
  dsimp only [List.head?_nil]
  cases known : q.allMaxProjection.horizon? with
  | error e => exact ⟨e, rfl⟩
  | ok horizon' => exact ⟨rfl, rfl, rfl⟩

end RuleContext.Accepts

namespace CstnChecker

variable {g h q : LabeledNetwork} {options : CheckerOptions} {rules : RuleSet} {stops : Polls}
  {c : CstnChecker} {ctx : RuleContext} {horizon : Horizon}

end CstnChecker

end TemporalNetwork
