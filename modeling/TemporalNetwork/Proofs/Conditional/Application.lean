import TemporalNetwork.Conditional.Propagation
import TemporalNetwork.Proofs.Conditional.Merging
import TemporalNetwork.Proofs.Runs

/-!
Rule applications. An application of a rule reads a few edges and writes one. It is settled if
everything it derives is covered by the edge it writes; a settled application changes nothing, and it
stays settled as long as the edges it reads do not change.
-/

namespace TemporalNetwork

/-- One rule at one place of the network. -/
inductive Application where
  | r0 (observer target : NodeId)
  | r3 (source target : NodeId)
  | labelPropagation (x y w : NodeId)
  | crossLowerCase (activation contingent w : NodeId)
  | letterRemoval (x activation : NodeId)

namespace Application

def rule (ctx : RuleContext) : Application → Rule
  | r0 _ target => ctx.r0Name target
  | r3 _ target => ctx.r3Name target
  | labelPropagation .. => .labelPropagation
  | crossLowerCase .. => .crossLowerCase
  | letterRemoval .. => .letterRemoval

/-- The ends of the edge that the application writes. -/
def source : Application → NodeId
  | r0 observer _ => observer
  | r3 source _ => source
  | labelPropagation x _ _ => x
  | crossLowerCase activation _ _ => activation
  | letterRemoval x _ => x

def target : Application → NodeId
  | r0 _ target => target
  | r3 _ target => target
  | labelPropagation _ _ w => w
  | crossLowerCase _ _ w => w
  | letterRemoval _ activation => activation

def derivations (ctx : RuleContext) (g : LabeledNetwork) : Application → List Derivation
  | r0 observer target => ctx.r0 g observer target
  | r3 source target => ctx.r3 g source target
  | labelPropagation x y w => ctx.labelPropagation g x y w
  | crossLowerCase activation contingent w => ctx.crossLowerCase g activation contingent w
  | letterRemoval x activation => ctx.letterRemoval g x activation

/-- Whether the application reads the edge from `u` to `v`. -/
def Reads (g : LabeledNetwork) : Application → NodeId → NodeId → Prop
  | r0 observer target, u, v => u = observer ∧ v = target
  | r3 source target, u, v =>
    v = target ∧ (u = source ∨ u ≠ source ∧ u ≠ target ∧ (g.nodeD u).isObserver = true)
  | labelPropagation x y w, u, v => u = x ∧ v = y ∨ u = y ∧ v = w
  | crossLowerCase activation contingent w, u, v =>
    u = activation ∧ v = contingent ∨ u = contingent ∧ v = w
  | letterRemoval x activation, u, v => u = x ∧ v = activation

/-- Whether the propagation is meant to make the application at all. -/
def Relevant (ctx : RuleContext) : Application → Prop
  | labelPropagation _ _ w => ctx.onlyToZ = true → w = ctx.z
  | crossLowerCase activation contingent _ =>
    ∃ link ∈ ctx.links, link.activation = activation ∧ link.contingent = contingent
  | _ => True

/-- Whether the propagation can make the application: without contingent links no lower-case value is
ever used, and propagation may be towards Z only. -/
def Possible (ctx : RuleContext) : Application → Prop
  | labelPropagation _ _ w => ctx.onlyToZ = true → w = ctx.z
  | crossLowerCase .. => ctx.links ≠ []
  | _ => True

def perform (ctx : RuleContext) : Application → Propagation Bool
  | r0 observer target => Propagation.applyR0 ctx observer target
  | r3 source target => Propagation.applyR3 ctx source target
  | labelPropagation x y w => Propagation.applyLabelPropagation ctx x y w
  | crossLowerCase activation contingent w =>
    Propagation.applyCrossLowerCase ctx activation contingent w
  | letterRemoval x activation => Propagation.applyLetterRemoval ctx x activation

end Application

namespace Derivation

/-- Whether adding the derivation to the edge from `u` to `v` changes nothing. -/
def SettledAt (g : LabeledNetwork) (u v : NodeId) : Derivation → Prop
  | value case label x => x = Value.posInf ∨ g.Covers u v case label x
  | negativeLoop _ => False
  | sumOverflow _ _ => False

/-- How the propagation ends at the derivation. -/
def halt? : Derivation → Option Halt
  | value .. => none
  | negativeLoop loop => some (.negativeLoop loop)
  | sumOverflow lhs rhs => some (.sumOverflow lhs rhs)

theorem SettledAt.grows {g h : LabeledNetwork} {u v : NodeId} {d : Derivation}
    (settled : d.SettledAt g u v) (grows : g.Grows h) : d.SettledAt h u v := by
  cases d with
  | value case label x => exact settled.imp_right grows.covers
  | negativeLoop loop => exact settled
  | sumOverflow lhs rhs => exact settled

end Derivation

def Application.Settled (ctx : RuleContext) (g : LabeledNetwork) (a : Application) : Prop :=
  ∀ d ∈ a.derivations ctx g, d.SettledAt g a.source a.target

namespace RuleContext

variable {ctx : RuleContext} {g h : LabeledNetwork} {d : Derivation}

theorem mem_observationsInto (wf : g.WellFormed) {source target : NodeId}
    (ht : target < g.nodeCount) {p : Proposition} {m : ValueMap} :
    (p, m) ∈ observationsInto g source target ↔
      ∃ observer edge, observer ≠ source ∧ observer ≠ target ∧
        (g.nodeD observer).observed = some p ∧ g.edgeBetween? observer target = some edge ∧
        edge.min?.any (· ≤ 0) = true ∧ edge.values = m := by
  simp only [observationsInto, List.mem_filterMap, Prod.exists]
  constructor
  · rintro ⟨observer, e, mem, read⟩
    have found := (wf.mem_inEdges ht).mp mem
    obtain ⟨edge, stored, joined⟩ := Network.edge?_of_findEdge? wf found
    rw [stored] at read
    split at read
    · cases read
    · rename_i apart
      rw [not_or] at apart
      split at read
      · rename_i q edge' observes same
        cases same
        split at read
        · rename_i early
          cases read
          exact ⟨observer, edge, apart.1, apart.2, observes, joined, early, rfl⟩
        · cases read
      · cases read
  · rintro ⟨observer, edge, apart, apart', observes, joined, early, rfl⟩
    obtain ⟨e, found, stored⟩ := Option.bind_eq_some_iff.mp joined
    refine ⟨observer, e, (wf.mem_inEdges ht).mpr found, ?_⟩
    simp only [apart, apart', or_self, if_false, observes, stored, early, if_true]

/-- What `r3` derives: a value of its edge meets an observation of a proposition in its label. -/
theorem mem_r3 {source target : NodeId} :
    d ∈ ctx.r3 g source target ↔
      source ≠ target ∧ ctx.isEnabled (ctx.r3Name target) = true ∧
      ∃ edge, g.edgeBetween? source target = some edge ∧
      ∃ p m, (p, m) ∈ observationsInto g source target ∧
      ∃ v ∈ edge.allValues, v.2.1.isEmpty = false ∧ ctx.isObservable target p m v.2.1 = true ∧
      ∃ o ∈ m.entries, ctx.observeValue? g source target p v o = some d := by
  unfold r3
  split
  · rename_i off
    rcases off with same | off
    · simp [same]
    · simp only [List.not_mem_nil, false_iff]
      simp_all
  · rename_i on
    rw [not_or, Bool.not_eq_true', Bool.not_eq_false] at on
    split
    · rename_i unjoined
      simp [unjoined]
    · rename_i edge joined
      dsimp only
      split
      · rename_i none
        simp only [List.not_mem_nil, joined, Option.some.injEq, false_iff]
        rintro ⟨_, _, _, rfl, p, m, _, v, mem, labelled, _⟩
        rw [List.isEmpty_iff, List.filter_eq_nil_iff] at none
        simpa [labelled] using none v mem
      · simp only [List.mem_flatMap, List.mem_filter, List.mem_filterMap, Prod.exists, joined,
          Option.some.injEq, exists_eq_left', on, ne_eq, not_false_eq_true, true_and,
          Bool.not_eq_true', and_assoc]

theorem observeValue?_congr (nodes : ∀ n, h.nodeD n = g.nodeD n) :
    ctx.observeValue? h = ctx.observeValue? g := by
  funext source target p value observation
  simp only [observeValue?, withEndpoints?, nodeLabel, nodes]

theorem stripObserved?_congr (nodes : ∀ n, h.nodeD n = g.nodeD n) :
    ctx.stripObserved? h = ctx.stripObserved? g := by
  funext observer target p value
  simp only [stripObserved?, withEndpoints?, nodeLabel, nodes]

theorem propagateValues?_congr (nodes : ∀ n, h.nodeD n = g.nodeD n) :
    ctx.propagateValues? h = ctx.propagateValues? g := by
  funext x w first second
  simp only [propagateValues?, Network.nodeName, nodes]

theorem crossValue?_congr (nodes : ∀ n, h.nodeD n = g.nodeD n) :
    ctx.crossValue? h = ctx.crossValue? g := by
  funext activation w lower value
  simp only [crossValue?, Network.nodeName, nodes]

end RuleContext

namespace Application

variable {ctx : RuleContext} {g h : LabeledNetwork} {a : Application}

theorem inRange (wf : g.WellFormed) (some : a.derivations ctx g ≠ []) :
    a.source < g.nodeCount ∧ a.target < g.nodeCount := by
  obtain ⟨d, mem⟩ := List.exists_mem_of_ne_nil _ some
  -- Every rule that derives something has looked up an edge from the source and one into the target.
  cases a with
  | r0 observer target =>
    simp only [derivations, RuleContext.r0] at mem
    split at mem
    · cases mem
    · split at mem
      · rename_i joined
        exact wf.lt_of_edgeBetween? joined
      · cases mem
  | r3 source target =>
    obtain ⟨_, _, edge, joined, _⟩ := RuleContext.mem_r3.mp mem
    exact wf.lt_of_edgeBetween? joined
  | labelPropagation x y w =>
    simp only [derivations, RuleContext.labelPropagation] at mem
    split at mem
    · cases mem
    · split at mem
      · rename_i first second
        exact ⟨(wf.lt_of_edgeBetween? first).1, (wf.lt_of_edgeBetween? second).2⟩
      · cases mem
  | crossLowerCase activation contingent w =>
    simp only [derivations, RuleContext.crossLowerCase] at mem
    split at mem
    · cases mem
    · split at mem
      · rename_i first second
        obtain ⟨edge, joined, _⟩ := Option.bind_eq_some_iff.mp first
        exact ⟨(wf.lt_of_edgeBetween? joined).1, (wf.lt_of_edgeBetween? second).2⟩
      · cases mem
  | letterRemoval x activation =>
    simp only [derivations, RuleContext.letterRemoval] at mem
    split at mem
    · cases mem
    · split at mem
      · cases mem
      · rename_i joined
        exact wf.lt_of_edgeBetween? joined

theorem Reads.congr (nodes : ∀ n, h.nodeD n = g.nodeD n) {u v : NodeId} :
    a.Reads h u v ↔ a.Reads g u v := by
  cases a <;> simp only [Reads, nodes]

/-- An application derives the same from networks that agree on what it reads. -/
theorem mem_derivations_congr (wf : g.WellFormed) (wf' : h.WellFormed) (nodes : h.nodes = g.nodes)
    (same : ∀ u v, a.Reads g u v → h.edgeBetween? u v = g.edgeBetween? u v) {d : Derivation}
    (mem : d ∈ a.derivations ctx h) : d ∈ a.derivations ctx g := by
  have nodeD : ∀ n, h.nodeD n = g.nodeD n := fun n => by
    rw [Network.nodeD, Network.node?, nodes, Network.nodeD, Network.node?]
  cases a with
  | r0 observer target =>
    have edge := same observer target ⟨rfl, rfl⟩
    simpa only [derivations, RuleContext.r0, nodeD, edge,
      RuleContext.stripObserved?_congr nodeD] using mem
  | r3 source target =>
    obtain ⟨apart, enabled, edge, joined, p, m, observed, rest⟩ := RuleContext.mem_r3.mp mem
    rw [RuleContext.observeValue?_congr nodeD] at rest
    have ht := (wf'.lt_of_edgeBetween? joined).2
    have ht' : target < g.nodeCount := by rwa [Network.nodeCount, ← nodes]
    refine RuleContext.mem_r3.mpr ⟨apart, enabled, edge, ?_, p, m, ?_, rest⟩
    · rwa [← same source target ⟨rfl, Or.inl rfl⟩]
    -- R3 also reads the edges from other observers to the target.
    · obtain ⟨observer, e, other, other', observes, into, early⟩ :=
        (RuleContext.mem_observationsInto wf' ht).mp observed
      have isObserver : (g.nodeD observer).isObserver = true := by
        rw [← nodeD, Node.isObserver, observes]
        rfl
      rw [same observer target ⟨rfl, Or.inr ⟨other, other', isObserver⟩⟩] at into
      rw [nodeD] at observes
      exact (RuleContext.mem_observationsInto wf ht').mpr
        ⟨observer, e, other, other', observes, into, early⟩
  | labelPropagation x y w =>
    have first := same x y (Or.inl ⟨rfl, rfl⟩)
    have second := same y w (Or.inr ⟨rfl, rfl⟩)
    simpa only [derivations, RuleContext.labelPropagation, first, second,
      RuleContext.propagateValues?_congr nodeD] using mem
  | crossLowerCase activation contingent w =>
    have first := same activation contingent (Or.inl ⟨rfl, rfl⟩)
    have second := same contingent w (Or.inr ⟨rfl, rfl⟩)
    simpa only [derivations, RuleContext.crossLowerCase, first, second,
      RuleContext.crossValue?_congr nodeD] using mem
  | letterRemoval x activation =>
    have edge := same x activation ⟨rfl, rfl⟩
    simpa only [derivations, RuleContext.letterRemoval, edge] using mem

theorem perform_eq (ctx : RuleContext) (a : Application) (p : Progress) :
    (a.perform ctx).run p =
      (Propagation.apply (a.rule ctx) a.source a.target (a.derivations ctx p.network)).run p := by
  cases a with
  | r0 => rw [perform, Propagation.applyR0, run_get_bind, rule, source, target, derivations]
  | r3 => rw [perform, Propagation.applyR3, run_get_bind, rule, source, target, derivations]
  | labelPropagation =>
    rw [perform, Propagation.applyLabelPropagation, run_get_bind, rule, source, target, derivations]
  | crossLowerCase =>
    rw [perform, Propagation.applyCrossLowerCase, run_get_bind, rule, source, target, derivations]
  | letterRemoval =>
    rw [perform, Propagation.applyLetterRemoval, run_get_bind, rule, source, target, derivations]

end Application

namespace Progress

variable {p : Progress} {u v : NodeId} {case : CaseLabel} {label : Label} {value : Value}

theorem merge_of_settled (rule : Rule) (wf : p.network.WellFormed)
    (settled : (Derivation.value case label value).SettledAt p.network u v) :
    p.merge rule u v case label value = (p, false) := by
  obtain ⟨g, applied, cycles, polls⟩ := p
  change value = Value.posInf ∨ g.Covers u v case label value at settled
  by_cases absent : value = Value.posInf ∧ (g.findEdge? u v).isNone = true
  · rw [merge, if_pos absent]
  · obtain ⟨e, found⟩ : ∃ e, g.findEdge? u v = some e := by
      rw [← Option.ne_none_iff_exists']
      intro unjoined
      rcases settled with infinite | ⟨e, joined, _⟩
      · exact absent ⟨infinite, by simp [unjoined]⟩
      · rw [Network.edgeBetween?, unjoined] at joined
        cases joined
    obtain ⟨payload, stored, joined⟩ := Network.edge?_of_findEdge? wf found
    have skip : value = Value.posInf ∨ payload.Covers case label value := by
      refine settled.imp_right ?_
      rintro ⟨e, joined', covers⟩
      rw [joined] at joined'
      cases joined'
      exact covers
    rw [merge, if_neg absent, Network.mergeInto_of_some wf found joined,
      LabeledEdge.merge_of_covers skip, Network.modifyEdge_self stored]
    rfl

theorem merge_spec (rule : Rule) (wf : p.network.WellFormed) (hu : u < p.network.nodeCount)
    (hv : v < p.network.nodeCount) (case : CaseLabel) (label : Label) (value : Value) :
    p.network.GrowsAt (p.merge rule u v case label value).1.network u v ∧
      (Derivation.value case label value).SettledAt
        (p.merge rule u v case label value).1.network u v ∧
      ((p.merge rule u v case label value).2 = false →
        (p.merge rule u v case label value).1 = p) := by
  by_cases settled : (Derivation.value case label value).SettledAt p.network u v
  · rw [merge_of_settled rule wf settled]
    exact ⟨.refl wf u v, settled, fun _ => rfl⟩
  · obtain ⟨g, applied, cycles, polls⟩ := p
    change ¬ (value = Value.posInf ∨ g.Covers u v case label value) at settled
    rw [not_or] at settled
    obtain ⟨grows, joined, changed⟩ := Network.mergeInto_spec wf hu hv .derived case label value
    have here : (g.mergeInto .derived u v case label value).2 = true := by
      rw [changed, LabeledEdge.merge_changed]
      refine ⟨settled.1, fun covers => ?_⟩
      -- An edge without values covers nothing, so the edge is there.
      unfold Network.edgeD at covers
      cases present : g.edgeBetween? u v with
      | some e =>
        rw [present] at covers
        exact settled.2 ⟨e, present, covers⟩
      | none =>
        rw [present] at covers
        rcases covers with covers | ⟨_, covers⟩ <;> cases covers
    have skip : ¬ (value = Value.posInf ∧ (g.findEdge? u v).isNone) := fun h => settled.1 h.1
    have merged : (Progress.mk g applied cycles polls).merge rule u v case label value =
        (⟨(g.mergeInto .derived u v case label value).1, applied.record rule, cycles, polls⟩,
          true) := by
      rw [merge, if_neg skip]
      simp only [here, if_true]
    rw [merged]
    exact ⟨grows, Or.inr ⟨_, joined, LabeledEdge.merge_covers_self _ _ _ settled.1⟩, nofun⟩

end Progress

namespace Propagation

variable {rule : Rule} {u v : NodeId}

theorem apply_of_settled {ds : List Derivation} {p : Progress} (wf : p.network.WellFormed)
    (settled : ∀ d ∈ ds, d.SettledAt p.network u v) :
    (apply rule u v ds).run p = .ok false p := by
  induction ds with
  | nil => rfl
  | cons d rest ih =>
    have first := settled d List.mem_cons_self
    have others := ih fun d mem => settled d (List.mem_cons_of_mem _ mem)
    cases d with
    | value case label x =>
      rw [apply]
      simp only [EStateM.run_bind, EStateM.run_modifyGet, Progress.merge_of_settled rule wf first,
        Prod.swap_prod_mk, others]
      rfl
    | negativeLoop loop => exact first.elim
    | sumOverflow lhs rhs => exact first.elim

/-- Adding derivations to an edge settles all of them, or ends the propagation at one of them. -/
theorem apply_ends (ds : List Derivation) (p : Progress) (wf : p.network.WellFormed)
    (inRange : ds ≠ [] → u < p.network.nodeCount ∧ v < p.network.nodeCount) :
    Ends (apply rule u v ds) p
      (fun changed q => p.network.GrowsAt q.network u v ∧
        (∀ d ∈ ds, d.SettledAt q.network u v) ∧ (changed = false → q = p))
      (fun halt _ => ∃ d ∈ ds, d.halt? = some halt) := by
  induction ds generalizing p with
  | nil => exact ⟨.refl wf u v, nofun, fun _ => rfl⟩
  | cons d rest ih =>
    obtain ⟨hu, hv⟩ := inRange (List.cons_ne_nil d rest)
    cases d with
    | value case label x =>
      obtain ⟨grows, settled, same⟩ := Progress.merge_spec rule wf hu hv case label x
      rw [apply, ends_bind, ends_modifyGet, ends_bind]
      refine (ih _ grows.wellFormed ?_).mono ?_ ?_
      · intro _
        exact grows.nodeCount ▸ ⟨hu, hv⟩
      · rintro others q ⟨grows', settled', same'⟩
        refine ⟨grows.trans grows', ?_, ?_⟩
        · intro d mem
          rcases List.mem_cons.mp mem with rfl | mem
          · exact settled.grows grows'.toGrows
          · exact settled' d mem
        · intro unchanged
          rw [Bool.or_eq_false_iff] at unchanged
          rw [same' unchanged.2]
          exact same unchanged.1
      · rintro halt _ ⟨d, mem, stops⟩
        exact ⟨d, List.mem_cons_of_mem _ mem, stops⟩
    | negativeLoop loop => exact ⟨_, List.mem_cons_self, rfl⟩
    | sumOverflow lhs rhs => exact ⟨_, List.mem_cons_self, rfl⟩

end Propagation

namespace Application

variable {ctx : RuleContext} {a : Application}

theorem perform_of_settled {p : Progress} (wf : p.network.WellFormed)
    (settled : a.Settled ctx p.network) : (a.perform ctx).run p = .ok false p := by
  rw [perform_eq]
  exact Propagation.apply_of_settled wf settled

theorem perform_ends (ctx : RuleContext) (a : Application) (p : Progress)
    (wf : p.network.WellFormed) :
    Ends (a.perform ctx) p
      (fun changed q => p.network.GrowsAt q.network a.source a.target ∧
        (∀ d ∈ a.derivations ctx p.network, d.SettledAt q.network a.source a.target) ∧
        (changed = false → q = p))
      (fun halt _ => ∃ d ∈ a.derivations ctx p.network, d.halt? = some halt) := by
  unfold Ends
  rw [perform_eq]
  exact Propagation.apply_ends _ p wf (inRange wf)

/-- Only an application that is not settled changes anything. -/
theorem perform_changed (ctx : RuleContext) (a : Application) (p : Progress)
    (wf : p.network.WellFormed) :
    Ends (a.perform ctx) p (fun changed _ => changed = true → ¬ a.Settled ctx p.network)
      fun _ _ => True := by
  by_cases settled : a.Settled ctx p.network
  · unfold Ends
    rw [perform_of_settled wf settled]
    exact fun changed => absurd changed Bool.false_ne_true
  · exact (a.perform_ends ctx p wf).mono (fun _ _ _ _ => settled) fun _ _ _ => trivial

end Application

end TemporalNetwork
