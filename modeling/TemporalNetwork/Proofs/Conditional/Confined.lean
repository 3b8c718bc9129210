import TemporalNetwork.Proofs.Conditional.Monotone
import TemporalNetwork.Proofs.Conditional.Screening

/-!
Where unknown literals and loops can be. Every rule that conjoins contradicting labels asks for an edge
into Z, and a path that closes gives a value only if its label is unknown, so unknown literals stay on
the edges into Z, and there is no loop but the one at Z.
-/

namespace TemporalNetwork

/-- Whether a value may stand on the edge from `u` to `v`: unknown literals occur towards Z only, and a
loop holds nothing but ordinary values `−∞` with unknown literals. -/
def ConfinedValue (z : NodeId) : ValueProperty := fun u v case label value =>
  (label.hasUnknown = true → v = z) ∧
    (u = v → case = .empty ∧ label.hasUnknown = true ∧ value = Value.negInf)

/-- Whether the values of the network are confined, and Z has the only loop, without a lower-case
value. -/
structure Network.Confined (g : LabeledNetwork) (z : NodeId) : Prop where
  values : g.EveryValue (ConfinedValue z)
  loops : ∀ n e, g.edgeBetween? n n = some e → n = z ∧ e.lower = none

variable {z u v w x : NodeId} {case : CaseLabel} {label a b c : Label} {value : Value}

theorem confinedValue_of_known (apart : u ≠ v) (known : label.hasUnknown = false) :
    ConfinedValue z u v case label value :=
  ⟨fun unknown => absurd (known.symm.trans unknown) Bool.false_ne_true, fun same => absurd same apart⟩

theorem ConfinedValue.known (confined : ConfinedValue z u v case label value) (away : v ≠ z) :
    label.hasUnknown = false :=
  Bool.eq_false_iff.mpr fun unknown => away (confined.1 unknown)

theorem ConfinedValue.relabel (confined : ConfinedValue z u v case label value) (apart : u ≠ v)
    {case' : CaseLabel} {label' : Label} {value' : Value}
    (known : label.hasUnknown = false → label'.hasUnknown = false) :
    ConfinedValue z u v case' label' value' := by
  refine ⟨fun unknown => confined.1 ?_, fun same => absurd same apart⟩
  by_contra away
  rw [known (Bool.eq_false_iff.mpr away)] at unknown
  cases unknown

theorem joinsTwins_confinedValue (z u v : NodeId) :
    JoinsTwins (ConfinedValue z u v) (ConfinedValue z u v) where
  stored _ _ _ := id
  joined case label value x value' merged flips twin := by
    -- The proposition that is dropped is not an unknown one.
    have kept : label.hasUnknown = true → (label.erase x.proposition).hasUnknown = true := by
      rw [Label.hasUnknown_iff, Label.hasUnknown_iff]
      rintro ⟨p, unknown⟩
      obtain ⟨stated, known⟩ := Label.mem_flippable.mp flips
      refine ⟨p, ?_⟩
      rw [Label.state_erase, if_neg, unknown]
      rintro rfl
      rw [stated] at unknown
      exact known (Option.some.inj unknown)
    refine ⟨fun unknown => merged.1 ?_, fun same => ?_⟩
    · by_contra known
      rw [Label.hasUnknown_erase (Bool.eq_false_iff.mpr known)] at unknown
      cases unknown
    · obtain ⟨plain, unknown, infinite⟩ := merged.2 same
      exact ⟨plain, kept unknown, by rw [infinite, (twin.2 same).2.2, max_self]⟩

namespace Network

variable {g : LabeledNetwork}

theorem Confined.mergeInto (confined : g.Confined z) (wf : g.WellFormed) (hu : u < g.nodeCount)
    (hv : v < g.nodeCount) (kind : ConstraintKind) (new : ConfinedValue z u v case label value) :
    (g.mergeInto kind u v case label value).1.Confined z where
  values := confined.values.mergeInto_twins (joinsTwins_confinedValue z) wf hu hv kind new
  loops n e joined := forall_edge_mergeInto (P := fun a b e => a = b → a = z ∧ e.lower = none) wf hu hv
    (fun a b e joined same => confined.loops a e (by rwa [same] at joined ⊢))
    (fun same => ⟨same.trans (new.1 (new.2 same).2.1), rfl⟩)
    (fun e kept same => ⟨(kept same).1,
      (e.growsTo_merge case label value).lower.trans (kept same).2⟩) n n e joined rfl

theorem KnownNodes.of_nodes {h : LabeledNetwork} (nodes : g.KnownNodes) (same : h.nodes = g.nodes) :
    h.KnownNodes := by
  intro n
  rw [nodeD, node?, same]
  exact nodes n

end Network

/-- Whether a derived value is confined. -/
def Derivation.Confined (z u v : NodeId) : Derivation → Prop
  | .value case label value => ConfinedValue z u v case label value
  | _ => True

namespace RuleContext

variable {ctx : RuleContext} {g : LabeledNetwork} {d : Derivation}

theorem hasUnknown_dropChildrenOfUnknown (known : a.hasUnknown = false) :
    (ctx.dropChildrenOfUnknown a).hasUnknown = false := by
  unfold dropChildrenOfUnknown
  split
  · exact Label.hasUnknown_eraseAll known _
  · exact known

/-- Labels may only differ where that is permitted. -/
theorem hasUnknown_of_combine? {mayDiffer : Bool} (combined : ctx.combine? mayDiffer a b = some c)
    (strict : mayDiffer = false) : c.hasUnknown = false := by
  unfold combine? at combined
  rw [if_neg (by simp [strict])] at combined
  split at combined
  · cases combined
  · rename_i known
    rw [not_or, Bool.not_eq_true, Bool.not_eq_true] at known
    obtain ⟨both, agree, rfl⟩ := Option.map_eq_some_iff.mp combined
    exact hasUnknown_dropChildrenOfUnknown (Label.hasUnknown_and? agree known.1 known.2)

theorem closeLoop?_confined {name : String} {sum : Value}
    (closes : closeLoop? name case label sum = some d) (toZ : label.hasUnknown = true → x = z) :
    d.Confined z x x := by
  unfold closeLoop? at closes
  split at closes
  · cases closes
  · split at closes
    · rename_i unknown
      cases closes
      exact ⟨fun _ => toZ unknown, fun _ => ⟨rfl, unknown, rfl⟩⟩
    · cases closes
      trivial

theorem propagateValues?_confined {first second : CaseLabel × Label × Value}
    (made : ctx.propagateValues? g x w first second = some d) : d.Confined ctx.z x w := by
  obtain ⟨firstCase, firstLabel, u⟩ := first
  obtain ⟨secondCase, secondLabel, v⟩ := second
  unfold propagateValues? at made
  dsimp only at made
  split at made
  · cases made
  · split at made
    · cases made
      trivial
    · split at made
      · cases made
      · rename_i label combined
        have toZ : label.hasUnknown = true → w = ctx.z := by
          intro unknown
          by_contra away
          rw [hasUnknown_of_combine? combined (by simp [away])] at unknown
          cases unknown
        split at made
        · rename_i loop
          subst loop
          exact closeLoop?_confined made toZ
        · rename_i apart
          cases made
          exact ⟨toZ, fun same => absurd same apart⟩

theorem crossValue?_confined {activation : NodeId} {lower : LowerCaseValue}
    {x : CaseLabel × Label × Value} (made : ctx.crossValue? g activation w lower x = some d) :
    d.Confined ctx.z activation w := by
  obtain ⟨case, label, v⟩ := x
  unfold crossValue? at made
  dsimp only at made
  split at made
  · cases made
  · split at made
    · cases made
      trivial
    · split at made
      · cases made
      · rename_i label combined
        have toZ : label.hasUnknown = true → w = ctx.z := by
          intro unknown
          by_contra away
          rw [hasUnknown_of_combine? combined (by simp [away])] at unknown
          cases unknown
        split at made
        · rename_i loop
          subst loop
          exact closeLoop?_confined made toZ
        · rename_i apart
          cases made
          exact ⟨toZ, fun same => absurd same.symm apart⟩

theorem hasUnknown_nodeLabel (nodes : g.KnownNodes) (n : NodeId) :
    (ctx.nodeLabel g n).hasUnknown = false := by
  unfold nodeLabel
  split
  · exact nodes n
  · rfl

theorem hasUnknown_withEndpoints? (nodes : ∀ n, (ctx.nodeLabel g n).hasUnknown = false)
    (conjoined : ctx.withEndpoints? g u v label = some c) (known : label.hasUnknown = false) :
    c.hasUnknown = false := by
  obtain ⟨middle, first, second⟩ := Option.bind_eq_some_iff.mp conjoined
  exact Label.hasUnknown_and? second (Label.hasUnknown_and? first known (nodes u)) (nodes v)

theorem stripObserved?_confined {p : Proposition} (nodes : g.KnownNodes) (apart : u ≠ v)
    (confined : ConfinedValue ctx.z u v case label value)
    (made : ctx.stripObserved? g u v p (case, label, value) = some d) : d.Confined ctx.z u v := by
  unfold stripObserved? at made
  dsimp only at made
  split at made
  · cases made
  · split at made
    · cases made
    · rename_i stripped conjoined
      split at made
      · cases made
      · cases made
        exact confined.relabel apart fun known => hasUnknown_withEndpoints? (hasUnknown_nodeLabel nodes) conjoined
          (Label.hasUnknown_eraseAll (Label.hasUnknown_erase known p) _)

theorem observeValue?_confined {p : Proposition} {observed : Label} {t : Value}
    (nodes : g.KnownNodes) (apart : u ≠ v) (confined : ConfinedValue ctx.z u v case label value)
    (made : ctx.observeValue? g u v p (case, label, value) (observed, t) = some d) :
    d.Confined ctx.z u v := by
  unfold observeValue? at made
  dsimp only at made
  split at made
  · cases made
  · split at made
    · cases made
    · rename_i l combined
      split at made
      · cases made
      · cases made
        by_cases toZ : v = ctx.z
        · exact ⟨fun _ => toZ, fun same => absurd same apart⟩
        · have known := confined.known toZ
          rw [if_neg toZ] at combined
          obtain ⟨both, agree, conjoined⟩ := Option.bind_eq_some_iff.mp combined
          split at agree
          · cases agree
          · rename_i observedKnown
            refine confinedValue_of_known apart (hasUnknown_withEndpoints? (hasUnknown_nodeLabel nodes) conjoined ?_)
            refine hasUnknown_dropChildrenOfUnknown (Label.hasUnknown_eraseAll ?_ _)
            exact Label.hasUnknown_and? agree (Label.hasUnknown_erase known p)
              (Bool.eq_false_iff.mpr observedKnown)

end RuleContext

/-- Every rule derives confined values from a confined network. -/
theorem Application.confined {ctx : RuleContext} {g : LabeledNetwork} (nodes : g.KnownNodes)
    (confined : g.Confined ctx.z) (a : Application) :
    ∀ d ∈ a.derivations ctx g, d.Confined ctx.z a.source a.target := by
  intro d mem
  cases a with
  | r0 observer target =>
    simp only [derivations, RuleContext.r0] at mem
    split at mem
    · cases mem
    · rename_i on
      rw [not_or] at on
      split at mem
      · rename_i p edge _ joined
        obtain ⟨⟨case, label, value⟩, stored, made⟩ := List.mem_filterMap.mp mem
        exact RuleContext.stripObserved?_confined nodes on.1
          (confined.values observer target edge joined case label value stored) made
      · cases mem
  | r3 source target =>
    obtain ⟨apart, _, edge, joined, p, m, _, ⟨case, label, value⟩, stored, _, _, ⟨observed, t⟩, _,
      made⟩ := RuleContext.mem_r3.mp mem
    exact RuleContext.observeValue?_confined nodes apart
      (confined.values source target edge joined case label value stored) made
  | labelPropagation x y w =>
    simp only [derivations, RuleContext.labelPropagation] at mem
    split at mem
    · cases mem
    · split at mem
      · obtain ⟨first, _, mem⟩ := List.mem_flatMap.mp mem
        obtain ⟨second, _, made⟩ := List.mem_filterMap.mp mem
        exact RuleContext.propagateValues?_confined made
      · cases mem
  | crossLowerCase activation contingent w =>
    simp only [derivations, RuleContext.crossLowerCase] at mem
    split at mem
    · cases mem
    · split at mem
      · obtain ⟨x, _, made⟩ := List.mem_filterMap.mp mem
        exact RuleContext.crossValue?_confined made
      · cases mem
  | letterRemoval x activation =>
    simp only [derivations, RuleContext.letterRemoval] at mem
    split at mem
    · cases mem
    · split at mem
      · cases mem
      · rename_i edge joined
        split at mem
        · cases mem
        · obtain ⟨⟨case, label, value⟩, stored, made⟩ := List.mem_flatMap.mp mem
          obtain ⟨link, able, rfl⟩ := List.mem_map.mp made
          have value := confined.values x activation edge joined case label value
            (List.mem_append_right _ stored)
          refine ⟨value.1, fun same => ?_⟩
          -- The letter that is removed is not one of a loop.
          obtain ⟨plain, _⟩ := value.2 same
          have lettered := (List.mem_filter.mp able).2
          rw [plain, RuleContext.letterIsRemovable, CaseLabel.contains_empty] at lettered
          cases lettered

theorem Trace.confined {ctx : RuleContext} {start q : Progress} {states : List Progress}
    {merges : List Merge} (wf : start.network.WellFormed) (nodes : start.network.KnownNodes)
    (confined : start.network.Confined ctx.z) (trace : Trace ctx start states merges q) :
    ∀ p ∈ q :: states, p.network.Confined ctx.z := by
  induction trace with
  | start => exact List.forall_mem_cons.mpr ⟨confined, nofun⟩
  | @count states merges p q before network applied ih =>
    exact List.forall_mem_cons.mpr ⟨network ▸ ih p List.mem_cons_self, ih⟩
  | @merge states merges p k case label value a before possible earlier derived ih =>
    refine List.forall_mem_cons.mpr ⟨?_, ih⟩
    have along := before.accumulates wf
    have inRange := along.inRange earlier derived
    have earlierNodes : k.network.KnownNodes := by
      have same := (along.evolves_of_mem along.mem_start).nodes
      rw [(along.evolves_of_mem earlier).nodes] at same
      exact nodes.of_nodes same
    have new := a.confined earlierNodes (ih k earlier) _ derived
    have present := ih p List.mem_cons_self
    rcases p.network_merge (a.rule ctx) a.source a.target case label value with same | merged
    · rwa [same]
    · rw [merged]
      exact present.mergeInto (along.wellFormed p List.mem_cons_self) inRange.1 inRange.2 .derived new

/-- No label has an unknown literal, and there is no loop. -/
structure Network.Clear (g : LabeledNetwork) : Prop where
  nodes : g.KnownNodes
  values : ∀ e slot, g.slot? e = some slot →
    slot.payload.EveryValue fun _ label _ => label.hasUnknown = false
  loopless : ∀ e slot, g.slot? e = some slot → slot.source ≠ slot.target

section Start

variable {g : LabeledNetwork} {withNodeLabels : Bool} {d : Draft LabeledEdge}

/-- Without unknown literals and loops a network is confined. -/
theorem Network.Clear.confined (clear : g.Clear) (wf : g.WellFormed) : g.Confined z where
  values u v e joined case label value mem := by
    obtain ⟨i, slot, stored, rfl, rfl, rfl⟩ := wf.edgeBetween?_eq_some_iff.mp joined
    exact confinedValue_of_known (clear.loopless i slot stored)
      (clear.values i slot stored case label value mem)
  loops n e joined := by
    obtain ⟨i, slot, stored, here, there, _⟩ := wf.edgeBetween?_eq_some_iff.mp joined
    exact absurd (here.trans there.symm) (clear.loopless i slot stored)

theorem Network.Confined.addBounds (confined : g.Confined z) (nodes : g.KnownNodes)
    (wf : g.WellFormed) (hz : z < g.nodeCount) (horizon : Value) (withNodeLabels : Bool) :
    (g.addBounds z horizon withNodeLabels).Confined z := by
  have known : ∀ n, (g.boundLabel withNodeLabels n).hasUnknown = false := by
    intro n
    unfold Network.boundLabel
    split
    · exact nodes n
    · rfl
  refine Network.addBounds_induct (I := fun h => h.Confined z) wf hz
    (fun h wf' grows kept n hn apart => ?_) confined
  have hn' : n < h.nodeCount := grows.nodeCount ▸ hn
  have hz' : z < h.nodeCount := grows.nodeCount ▸ hz
  exact ⟨kept.mergeInto wf' hn' hz' .internal (confinedValue_of_known apart (known n)),
    kept.mergeInto wf' hz' hn' .internal (confinedValue_of_known apart.symm (known n))⟩

/-- What the propagation of either checker starts from. -/
structure Network.Initial (g : LabeledNetwork) (z : NodeId) : Prop where
  wellFormed : g.WellFormed
  nodes : g.KnownNodes
  confined : g.Confined z

theorem Network.Clear.initial (clear : g.Clear) (wf : g.WellFormed) (hz : z < g.nodeCount)
    {horizon : Horizon} (known : g.horizon? = .ok horizon) :
    (g.addBounds z horizon.value withNodeLabels).Initial z := by
  have finite : horizon.value ≠ Value.posInf := ne_of_lt (Network.horizon?_spec known).1.2
  obtain ⟨wf', grows, _⟩ := Network.addBounds_spec wf hz horizon.value finite withNodeLabels
  exact ⟨wf', clear.nodes.of_nodes grows.nodes,
    (clear.confined wf).addBounds clear.nodes wf hz horizon.value withNodeLabels⟩

theorem Network.Clear.modifyEdge (clear : g.Clear) (e : EdgeId) {f : LabeledEdge → LabeledEdge}
    (known : ∀ edge : LabeledEdge, (edge.EveryValue fun _ label _ => label.hasUnknown = false) →
      (f edge).EveryValue fun _ label _ => label.hasUnknown = false) : (g.modifyEdge e f).Clear where
  nodes := clear.nodes
  values i slot stored := by
    obtain ⟨old, stored', rfl⟩ := Network.slot?_of_modifyEdge stored
    have values := clear.values i old stored'
    dsimp only
    split
    · exact known old.payload values
    · exact values
  loopless i slot stored := by
    obtain ⟨old, stored', rfl⟩ := Network.slot?_of_modifyEdge stored
    exact clear.loopless i old stored'

end Start

end TemporalNetwork
