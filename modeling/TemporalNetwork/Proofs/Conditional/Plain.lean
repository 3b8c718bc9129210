import TemporalNetwork.Proofs.Conditional.Passes
import TemporalNetwork.Proofs.Conditional.Schedule

/-!
Plain networks: simple temporal networks, which have neither labels nor case values. Only labelled
propagation derives anything from them, and they stay plain.
-/

namespace TemporalNetwork

/-- Whether the edge has no labels and no letters, and its values have the property `Q`. -/
structure LabeledEdge.Plain (Q : Value → Prop) (e : LabeledEdge) : Prop where
  upper : e.upper = .empty
  values : ∀ l w, (l, w) ∈ e.values.entries → l = .empty ∧ Q w

/-- Whether the network has neither self-loops nor labels and letters, and its values have the property
`Q`. -/
def Network.Plain (Q : NodeId → NodeId → Value → Prop) (g : LabeledNetwork) : Prop :=
  ∀ u v e, g.edgeBetween? u v = some e → u ≠ v ∧ e.Plain (Q u v)

/-- Whether the edge from `u` to `v` holds the value `x`; a plain network only has one scenario. -/
def Network.Holds (g : LabeledNetwork) (u v : NodeId) (x : Value) : Prop :=
  g.HoldsIn .allStraight u v x

/-- Whether the path `x → y → w` has values with the sum `t`. -/
def Network.Sums (g : LabeledNetwork) (x y w : NodeId) (t : Value) : Prop :=
  ∃ u v, g.Holds x y u ∧ g.Holds y w v ∧ Value.sum? u v = some t

namespace LabeledEdge.Plain

variable {Q : Value → Prop} {e : LabeledEdge} {c : CaseLabel} {l : Label} {w : Value}

theorem mem_allValues (plain : e.Plain Q) (mem : (c, l, w) ∈ e.allValues) :
    c = .empty ∧ l = .empty ∧ (Label.empty, w) ∈ e.values.entries := by
  rcases LabeledEdge.mem_allValues.mp mem with ⟨rfl, here⟩ | ⟨m, group, _⟩
  · obtain ⟨rfl, _⟩ := plain.values l w here
    exact ⟨rfl, rfl, here⟩
  · rw [plain.upper] at group
    cases group

theorem ofKind (kind : ConstraintKind) : (LabeledEdge.ofKind kind).Plain Q :=
  ⟨rfl, fun _ _ mem => by cases mem⟩

theorem merge (plain : e.Plain Q) (new : Q w) : (e.merge .empty .empty w).1.Plain Q := by
  have kept := ValueMap.every_merge (joins_labelless fun _ w => Q w).joinsTwins (c := .empty)
    plain.values (⟨rfl, new⟩ : Label.empty = .empty ∧ Q w)
  have ordinary : CaseLabel.empty.isEmpty = true := rfl
  rw [LabeledEdge.merge, if_pos ordinary, mergeOrdinary]
  split
  · rename_i values merged
    rw [merged] at kept
    refine ⟨?_, kept⟩
    dsimp only
    rw [plain.upper]
    rfl
  · exact plain

end LabeledEdge.Plain

namespace Network

variable {Q : NodeId → NodeId → Value → Prop} {g h : LabeledNetwork} {ctx : RuleContext}
  {u v x y w : NodeId} {a b t : Value}

theorem Plain.mergeInto (plain : g.Plain Q) (wf : g.WellFormed) (hu : u < g.nodeCount)
    (hv : v < g.nodeCount) (kind : ConstraintKind) (apart : u ≠ v) (new : Q u v a) :
    (g.mergeInto kind u v .empty .empty a).1.Plain Q :=
  forall_edge_mergeInto (P := fun u v e => u ≠ v ∧ e.Plain (Q u v)) wf hu hv plain
    ⟨apart, .ofKind kind⟩ fun _ kept => ⟨kept.1, kept.2.merge new⟩

theorem Plain.mono {Q' : NodeId → NodeId → Value → Prop} (plain : g.Plain Q)
    (weaker : ∀ u v x, Q u v x → Q' u v x) : g.Plain Q' := by
  intro u v e joined
  obtain ⟨apart, upper, values⟩ := plain u v e joined
  exact ⟨apart, upper, fun l w mem => ⟨(values l w mem).1, weaker u v w (values l w mem).2⟩⟩

theorem Plain.holds (plain : g.Plain Q) (holds : g.Holds u v a) : u ≠ v ∧ Q u v a := by
  obtain ⟨e, l, joined, mem, _⟩ := holds
  exact ⟨(plain u v e joined).1, ((plain u v e joined).2.values l a mem).2⟩

theorem Holds.lt (holds : g.Holds u v a) (wf : g.WellFormed) : u < g.nodeCount ∧ v < g.nodeCount := by
  obtain ⟨e, _, joined, _⟩ := holds
  exact wf.lt_of_edgeBetween? joined

theorem holds_of_mem {e : LabeledEdge} (joined : g.edgeBetween? u v = some e)
    (mem : (Label.empty, a) ∈ e.values.entries) : g.Holds u v a :=
  ⟨e, .empty, joined, mem, Label.subsumes_empty _⟩

theorem Plain.covers_iff (plain : g.Plain Q) :
    g.Covers u v .empty .empty t ↔ ∃ x ≤ t, g.Holds u v x := by
  constructor
  · intro covered
    exact covered.holdsIn (Label.subsumes_empty _)
  · rintro ⟨x, le, e, l, joined, mem, _⟩
    obtain ⟨rfl, _⟩ := (plain u v e joined).2.values l x mem
    exact ⟨e, joined, Or.inl (ValueMap.dominates_iff.mpr ⟨(.empty, x), mem, Label.subsumes_refl _, le⟩)⟩

theorem propagateValues?_plain {d : Derivation}
    (made : ctx.propagateValues? g x w (.empty, .empty, a) (.empty, .empty, b) = some d)
    {case : CaseLabel} {label : Label} {s : Value} (value : d = .value case label s) :
    x ≠ w ∧ case = .empty ∧ label = .empty ∧ ∃ t, Value.sum? a b = some t ∧ s = ctx.clamp t := by
  have holds : Label.allStraight.subsumes .empty = true := Label.subsumes_empty _
  subst value
  unfold RuleContext.propagateValues? at made
  dsimp only at made
  rw [if_neg (by simp [CaseLabel.empty, CaseLabel.isEmpty, CaseLabel.intersects])] at made
  cases sum : Value.sum? a b with
  | none =>
    rw [sum] at made
    cases made
  | some t =>
    rw [sum] at made
    dsimp only at made
    rw [RuleContext.combine?_of_subsumes Label.isComplete_allStraight _ holds holds] at made
    dsimp only at made
    split at made
    · unfold RuleContext.closeLoop? at made
      split at made
      · cases made
      · rw [if_neg (by decide)] at made
        cases made
    · rename_i apart
      cases made
      exact ⟨apart, by decide, by decide, t, rfl, rfl⟩

/-- What is derived from a plain network comes from labelled propagation. -/
theorem Plain.exists_sum (plain : g.Plain Q) (unlinked : ctx.links = []) {a : Application}
    (possible : a.Possible ctx) {case : CaseLabel} {label : Label} {s : Value}
    (mem : .value case label s ∈ a.derivations ctx g) :
    ∃ x y w t, a = .labelPropagation x y w ∧ (ctx.onlyToZ = true → w = ctx.z) ∧ x ≠ w ∧
      g.Sums x y w t ∧ case = .empty ∧ label = .empty ∧ s = ctx.clamp t := by
  -- The other rules need labels or links.
  cases a with
  | r0 observer target =>
    simp only [Application.derivations, RuleContext.r0] at mem
    split at mem
    · cases mem
    · split at mem
      · rename_i p e _ joined
        obtain ⟨⟨c, l, w⟩, stored, made⟩ := List.mem_filterMap.mp mem
        obtain ⟨_, rfl, _⟩ := (plain observer target e joined).2.mem_allValues stored
        have silent : Label.empty.mentions p = false := by simp [Label.mentions_eq]
        simp [RuleContext.stripObserved?, silent] at made
      · cases mem
  | r3 source target =>
    obtain ⟨_, _, e, joined, _, _, _, v, stored, labelled, _⟩ := RuleContext.mem_r3.mp mem
    obtain ⟨_, unlabelled, _⟩ := (plain source target e joined).2.mem_allValues stored
    rw [unlabelled] at labelled
    cases labelled
  | crossLowerCase activation contingent w => exact absurd unlinked possible
  | letterRemoval x activation =>
    rw [Application.derivations, Propagation.letterRemoval_of_no_links unlinked] at mem
    cases mem
  | labelPropagation x y w =>
    simp only [Application.derivations, RuleContext.labelPropagation] at mem
    split at mem
    · cases mem
    · split at mem
      · rename_i e f joined joined'
        obtain ⟨⟨c, l, a⟩, stored, mem⟩ := List.mem_flatMap.mp mem
        obtain ⟨⟨c', l', b⟩, stored', made⟩ := List.mem_filterMap.mp mem
        obtain ⟨rfl, rfl, here⟩ := (plain x y e joined).2.mem_allValues stored
        obtain ⟨rfl, rfl, here'⟩ := (plain y w f joined').2.mem_allValues stored'
        obtain ⟨apart, ordinary, unlabelled, t, sum, clamped⟩ := propagateValues?_plain made rfl
        exact ⟨x, y, w, t, rfl, possible, apart,
          ⟨a, b, holds_of_mem joined here, holds_of_mem joined' here', sum⟩, ordinary, unlabelled,
          clamped⟩
      · cases mem

end Network

/-- Propagation keeps a network plain, with a property of its values that the sums along paths have. -/
theorem Propagation.performs_plain {Q : NodeId → NodeId → Value → Prop} {ctx : RuleContext}
    {start : LabeledNetwork} (unlinked : ctx.links = [])
    (sums : ∀ (g : LabeledNetwork) x y w t, g.WellFormed → start.Grows g → g.Plain Q → x ≠ w →
      g.Sums x y w t → Q x w (ctx.clamp t)) :
    Performs ctx start (Network.Plain Q) Halt.Derived := by
  refine performs_values (P := fun u v case label x => case = .empty ∧ label = .empty ∧ u ≠ v ∧ Q u v x)
    ?_ ?_
  · rintro g u v wf hu hv plain _ _ x ⟨rfl, rfl, apart, new⟩
    exact plain.mergeInto wf hu hv .derived apart new
  · intro a g possible wf grows plain case label s mem
    obtain ⟨x, y, w, t, rfl, _, apart, sum, ordinary, unlabelled, rfl⟩ :=
      plain.exists_sum unlinked possible mem
    exact ⟨ordinary, unlabelled, apart, sums g x y w t wf grows plain apart sum⟩

/-- A plain network whose nodes have been bounded by the horizon, and rules for it. -/
structure PlainProblem (ctx : RuleContext) (start : LabeledNetwork) : Prop where
  unlinked : ctx.links = []
  enabled : ctx.isEnabled .labelPropagation = true
  inside : ctx.z < start.nodeCount
  nonneg : 0 ≤ ctx.horizon
  finite : ctx.horizon < Value.posInf
  wellFormed : start.WellFormed
  plain : start.Plain fun _ _ x => Value.InRange x
  early : ∀ n < start.nodeCount, n ≠ ctx.z → start.Covers n ctx.z .empty .empty 0
  late : ∀ n < start.nodeCount, n ≠ ctx.z → start.Covers ctx.z n .empty .empty ctx.horizon

end TemporalNetwork
