import TemporalNetwork.Proofs.Conditional.Initialised
import TemporalNetwork.Proofs.Conditional.Schedule

/-!
What a propagation leaves of the values whose labels have no unknown literal. The values that are derived
fit the ends of their edges again, and the edge from a node to itself keeps the values that it has.
-/

namespace TemporalNetwork

namespace Label

variable {a b : Label}

theorem hasUnknown_erase_flippable {l : Literal} (flips : l ∈ ValueMap.flippable a)
    (unknown : a.hasUnknown = true) : (a.erase l.proposition).hasUnknown = true := by
  obtain ⟨stated, known⟩ := mem_flippable.mp flips
  obtain ⟨p, here⟩ := hasUnknown_iff.mp unknown
  refine hasUnknown_iff.mpr ⟨p, ?_⟩
  rw [state_erase, if_neg, here]
  rintro rfl
  rw [stated] at here
  exact known (Option.some.inj here)

end Label

/-- Merging values with unknown literals takes no others away. -/
theorem ValueMap.mem_merge_of_unknown {m : ValueMap} {label l : Label} {v : Value} (value : Value)
    (unknown : label.hasUnknown = true) (known : l.hasUnknown = false) (mem : (l, v) ∈ m.entries) :
    (l, v) ∈ (m.merge label value).1.entries := by
  refine mergeWithin_induct (P := fun m => (l, v) ∈ m.entries)
    (Q := fun label _ => label.hasUnknown = true) ?_ ?_ _ m label value mem unknown
  · intro m label value mem unknown _
    have other : l ≠ label := by
      rintro rfl
      rw [known] at unknown
      cases unknown
    refine (mem_insertEntry_of_ne _ other).mpr (mem_dropDominated.mpr ⟨mem, fun general => ?_⟩)
    rw [Label.hasUnknown_of_subsumes general known] at unknown
    cases unknown
  · exact fun _ _ _ _ _ _ unknown flips _ => Label.hasUnknown_erase_flippable flips unknown

theorem LabeledEdge.mem_merge_of_unknown {e : LabeledEdge} {label l : Label} {v : Value}
    (value : Value) (unknown : label.hasUnknown = true) (known : l.hasUnknown = false)
    (mem : (l, v) ∈ e.values.entries) : (l, v) ∈ (e.merge .empty label value).1.values.entries := by
  have merged := ValueMap.mem_merge_of_unknown value unknown known mem
  rw [merge, if_pos (by decide), mergeOrdinary]
  split
  · rename_i changed
    rwa [changed] at merged
  · exact mem

namespace Network

variable {g h k : LabeledNetwork} {u v : NodeId} {label : Label} {value : Value}

/-- Whether the edges of `g` from a node to itself have their values without unknown literals in `h`. -/
def KeepsLoops (g h : LabeledNetwork) : Prop :=
  ∀ u e, g.edgeBetween? u u = some e → ∀ l w, (l, w) ∈ e.values.entries → l.hasUnknown = false →
    ∃ f, h.edgeBetween? u u = some f ∧ (l, w) ∈ f.values.entries

theorem KeepsLoops.refl (g : LabeledNetwork) : g.KeepsLoops g :=
  fun _ e joined _ _ mem _ => ⟨e, joined, mem⟩

theorem KeepsLoops.mergeInto (keeps : g.KeepsLoops h) (wf : h.WellFormed) (hu : u < h.nodeCount)
    (hv : v < h.nodeCount) (kind : ConstraintKind) (value : Value)
    (unknown : u = v → label.hasUnknown = true) :
    g.KeepsLoops (h.mergeInto kind u v .empty label value).1 := by
  obtain ⟨grows, merged, _⟩ := mergeInto_spec wf hu hv kind .empty label value
  intro n e joined l w mem known
  obtain ⟨f, joined', mem'⟩ := keeps n e joined l w mem known
  by_cases here : u = n ∧ v = n
  · obtain ⟨rfl, rfl⟩ := here
    refine ⟨_, merged, ?_⟩
    rw [edgeD, joined', Option.getD_some]
    exact LabeledEdge.mem_merge_of_unknown value (unknown rfl) known mem'
  · exact ⟨f, (grows.elsewhere n n here).trans joined', mem'⟩

end Network

namespace RuleContext

variable {ctx : RuleContext} {g h : LabeledNetwork} {x y : NodeId} {case : CaseLabel} {l m : Label}
  {t : Value}

/-- Whether the value is ordinary, its propositions are observed, and its label has the literals of the
ends of its edge unless it has an unknown one. -/
def FittedValue (ctx : RuleContext) (g : LabeledNetwork) : ValueProperty := fun x y case label _ =>
  case = .empty ∧ (∀ p, label.mentions p = true → (g.observerLabel? p).isSome = true) ∧
    (label.hasUnknown = false → label.subsumes (ctx.nodeLabel g x) = true ∧
      label.subsumes (ctx.nodeLabel g y) = true)

/-- Whether what the nodes need can be observed. -/
def ObservedNodes (ctx : RuleContext) (g : LabeledNetwork) : Prop :=
  ∀ n p, (ctx.nodeLabel g n).mentions p = true → (g.observerLabel? p).isSome = true

theorem fittedValue_congr (nodes : h.nodes = g.nodes) : ctx.FittedValue h = ctx.FittedValue g := by
  cases g
  cases h
  cases nodes
  rfl

theorem joinsTwins_fittedValue (ctx : RuleContext) (g : LabeledNetwork) (x y : NodeId) :
    JoinsTwins (ctx.FittedValue g x y) (ctx.FittedValue g x y) where
  stored _ _ _ := id
  joined case label u literal v new flips twin := by
    obtain ⟨plain, observed, fits⟩ := new
    refine ⟨plain, fun p mentioned => observed p (Label.mentions_of_subsumes
      (label.subsumes_erase literal.proposition) mentioned), fun known => ?_⟩
    have known' : label.hasUnknown = false := by
      rw [← Bool.not_eq_true] at known ⊢
      exact fun unknown => known (Label.hasUnknown_erase_flippable flips unknown)
    obtain ⟨source, target⟩ := fits known'
    obtain ⟨source', target'⟩ := twin.2.2 (Label.hasUnknown_replace flips known')
    exact ⟨Label.erase_subsumes_of_twin flips source (Label.subsumes_refl _) source',
      Label.erase_subsumes_of_twin flips target (Label.subsumes_refl _) target'⟩

/-- What is left of a network when fitted values have been merged into it, on loops only such with
unknown literals. -/
structure Remains (ctx : RuleContext) (g h : LabeledNetwork) : Prop where
  reference : h.z = g.z
  fitted : h.EveryValue (ctx.FittedValue g)
  lettered : ∀ u v e, h.edgeBetween? u v = some e → e.upper.Lettered
  loops : g.KeepsLoops h

theorem Remains.mergeInto (remains : ctx.Remains g h) (wf : h.WellFormed) (hx : x < h.nodeCount)
    (hy : y < h.nodeCount) (kind : ConstraintKind) (fitted : ctx.FittedValue g x y case l t)
    (loop : x = y → l.hasUnknown = true) : ctx.Remains g (h.mergeInto kind x y case l t).1 where
  reference := (Network.mergeInto_frame h kind x y case l t).1.trans remains.reference
  fitted := remains.fitted.mergeInto_twins (joinsTwins_fittedValue ctx g) wf hx hy kind fitted
  lettered := Network.forall_edge_mergeInto (P := fun _ _ e => e.upper.Lettered) wf hx hy
    remains.lettered nofun fun _ letters => LabeledEdge.lettered_merge letters _ _ _
  loops := fitted.1 ▸ remains.loops.mergeInto wf hx hy kind t loop

theorem labelRepair_of_fitted {case : CaseLabel} {v : Value} (closed : ctx.ClosedLabel g l)
    (fitted : ctx.FittedValue g x y case l v) (known : l.hasUnknown = false) :
    g.labelRepair ctx.withNodeLabels x y l = .keep := by
  obtain ⟨_, observed, ends⟩ := fitted
  by_cases on : ctx.withNodeLabels = true
  · obtain ⟨source, target⟩ := ends known
    rw [nodeLabel, if_pos on] at source target
    rw [on, Network.labelRepair_eq_keep_iff]
    refine ⟨known, source, target, fun p mentioned => ?_⟩
    obtain ⟨k, observer⟩ := Option.isSome_iff_exists.mp (observed p mentioned)
    obtain ⟨n, first, rfl⟩ := Option.map_eq_some_iff.mp observer
    have general := closed n p (Network.observed_of_observerAmong? first) mentioned
    rw [nodeLabel, if_pos on] at general
    exact ⟨_, observer, general⟩
  · rw [Bool.not_eq_true] at on
    rw [on]
    exact Network.labelRepair_of_grounded ⟨known, observed⟩

end RuleContext

namespace Network

variable {g : LabeledNetwork} {z : NodeId} {ctx : RuleContext} {allowed : CaseLabel → Value → Prop}

theorem Repaired.observedNodes (repaired : g.Repaired allowed ctx.withNodeLabels z) :
    ctx.ObservedNodes g := by
  intro n p needed
  rw [RuleContext.nodeLabel] at needed
  split at needed
  · rename_i on
    obtain ⟨k, observer, _⟩ := (repaired.nodes on).1.closed n p needed
    rw [observer]
    rfl
  · rw [Label.mentions_eq, Label.state_empty] at needed
    cases needed

theorem Repaired.remains (repaired : g.Repaired allowed ctx.withNodeLabels z)
    (plain : ∀ c w, allowed c w → c = .empty)
    (fits : ctx.withNodeLabels = true → g.FittingValues) (horizon : Value) :
    ctx.Remains g (g.addBounds z horizon ctx.withNodeLabels) := by
  have observed := repaired.observedNodes
  have origin : ∀ l : Label, l.subsumes (ctx.nodeLabel g z) = true := by
    intro l
    rw [RuleContext.nodeLabel, repaired.prepared.origin, ite_self]
    exact Label.subsumes_empty l
  refine addBounds_induct repaired.wellFormed repaired.inside
    (fun h wf grows remains n inside apart => ?_) ⟨rfl, ?_, ?_, .refl g⟩
  · have hn : n < h.nodeCount := grows.nodeCount ▸ inside
    have hz : z < h.nodeCount := grows.nodeCount ▸ repaired.inside
    exact ⟨remains.mergeInto wf hn hz .internal
        ⟨rfl, observed n, fun _ => ⟨Label.subsumes_refl _, origin _⟩⟩ fun same => absurd same apart,
      remains.mergeInto wf hz hn .internal
        ⟨rfl, observed n, fun _ => ⟨origin _, Label.subsumes_refl _⟩⟩
        fun same => absurd same.symm apart⟩
  · intro u v e joined c l w mem
    obtain ⟨i, slot, stored, rfl, rfl, rfl⟩ := repaired.wellFormed.edgeBetween?_eq_some_iff.mp joined
    obtain ⟨here, grounded⟩ := repaired.prepared.values i slot stored c l w mem
    refine ⟨plain c w here, grounded.observed, fun _ => ?_⟩
    rw [RuleContext.nodeLabel, RuleContext.nodeLabel]
    by_cases on : ctx.withNodeLabels = true
    · have fits := fits on i slot stored c l w mem
      rw [if_pos on, if_pos on]
      exact ⟨fits.source, fits.target⟩
    · rw [if_neg on, if_neg on]
      exact ⟨Label.subsumes_empty l, Label.subsumes_empty l⟩
  · intro u v e joined
    obtain ⟨i, slot, stored, rfl, rfl, rfl⟩ := repaired.wellFormed.edgeBetween?_eq_some_iff.mp joined
    exact repaired.prepared.lettered i slot stored

end Network

end TemporalNetwork
