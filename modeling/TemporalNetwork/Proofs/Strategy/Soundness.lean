import TemporalNetwork.Proofs.Conditional.Saturation
import TemporalNetwork.Proofs.Strategy.Support

/-!
Soundness of the rules. If a strategy keeps every node within the horizon and justifies the values of
a network, it justifies what the rules derive; a negative loop would exclude it.
-/

namespace TemporalNetwork

/-- A strategy within the horizon of a check that knows neither node labels nor contingent links. -/
structure RuleContext.Fits (ctx : RuleContext) (T : Timing)
    (observed : NodeId → Option Proposition) (n : Nat) : Prop where
  strategic : T.Strategic observed n ctx.z
  early : ∀ s x, x < n → 0 ≤ T s x
  late : ∀ s x, x < n → T s x ≤ ctx.horizon
  finite : ctx.horizon < Value.posInf
  labelless : ctx.withNodeLabels = false
  unlinked : ctx.links = []

namespace RuleContext

variable {ctx : RuleContext} {T : Timing} {observed : NodeId → Option Proposition} {n : Nat}
  {g : LabeledNetwork} {x y w : NodeId} {s : Scenario} {a b c l : Label} {u v t : Value}
  {d e : ℚ}

theorem dropChildrenOfUnknown_of_labelless (labelless : ctx.withNodeLabels = false) (l : Label) :
    ctx.dropChildrenOfUnknown l = l := by
  rw [dropChildrenOfUnknown, labelless]
  rfl

theorem eraseAll_children_of_labelless (labelless : ctx.withNodeLabels = false) (l : Label)
    (p : Proposition) : l.eraseAll (ctx.children p) = l := by
  rw [children, labelless]
  exact l.eraseAll_empty

theorem withEndpoints?_of_labelless (labelless : ctx.withNodeLabels = false) (g : LabeledNetwork)
    (x y : NodeId) (l : Label) : ctx.withEndpoints? g x y l = some l := by
  simp only [withEndpoints?, nodeLabel, labelless, Bool.false_eq_true, if_false,
    Label.and?_empty, Option.bind_some]

/-- The clamp only changes sums that no distance within the horizon keeps. -/
theorem le_clamp (low : -(ctx.horizon : ℚ) ≤ d) (le : d ≤ t) : d ≤ ctx.clamp t := by
  unfold clamp
  split
  · rename_i below
    have below' : (t : ℚ) < -(ctx.horizon : ℚ) := by exact_mod_cast below
    linarith
  · exact le

theorem negInf_lt_of_le (finite : ctx.horizon < Value.posInf) (low : -(ctx.horizon : ℚ) ≤ d)
    (le : d ≤ u) : Value.negInf < u := by
  have finite' : (ctx.horizon : ℚ) < 2147483647 := by exact_mod_cast finite
  have value : ((Value.negInf : Value) : ℚ) = -2147483648 := by
    rw [show (Value.negInf : Value) = -2147483648 from rfl]
    norm_num
  have above : ((Value.negInf : Value) : ℚ) < u := by linarith
  exact_mod_cast above

theorem ne_negInf_of_le (finite : ctx.horizon < Value.posInf) (low : -(ctx.horizon : ℚ) ≤ d)
    (le : d ≤ u) : u ≠ Value.negInf := (negInf_lt_of_le finite low le).ne'

theorem le_sum (finite : ctx.horizon < Value.posInf) (sum : Value.sum? u v = some t)
    (first : d ≤ u) (second : e ≤ v) (lowFirst : -(ctx.horizon : ℚ) ≤ d)
    (lowSecond : -(ctx.horizon : ℚ) ≤ e) (high : d + e ≤ ctx.horizon) : d + e ≤ t := by
  have finite' : (ctx.horizon : ℚ) < (Value.posInf : Value) := by exact_mod_cast finite
  rcases Value.sum?_cases sum with ⟨_, rfl⟩ | ⟨low | low, _⟩ | ⟨rfl, _⟩
  · linarith
  · exact absurd low (ne_negInf_of_le finite lowFirst first)
  · exact absurd low (ne_negInf_of_le finite lowSecond second)
  · rw [Int.cast_add]
    linarith

namespace Fits

theorem distance (fits : ctx.Fits T observed n) (hx : x < n) (hy : y < n) :
    -(ctx.horizon : ℚ) ≤ T s y - T s x ∧ T s y - T s x ≤ ctx.horizon := by
  have := fits.early s x hx
  have := fits.early s y hy
  have := fits.late s x hx
  have := fits.late s y hy
  constructor
  · linarith
  · linarith

/-- What a path says under the label of the value derived from it. -/
theorem combine (fits : ctx.Fits T observed n) {negative : Prop} [Decidable negative] (hx : x < n)
    (hy : y < n) (apart : y ≠ w) (first : T.Supports observed ctx.z x y a u)
    (second : T.Supports observed ctx.z y w b v)
    (combined : ctx.combine? (w = ctx.z ∧ negative ∧ u < 0) a b = some c) :
    (w ≠ ctx.z → c.hasUnknown = false) ∧ ∀ s, c.HoldsIn s →
      T s y - T s x ≤ u ∧ T s w - T s y ≤ v ∨ T.Resolved observed c s x := by
  unfold combine? at combined
  split at combined
  · rename_i star
    obtain ⟨rfl, _, below⟩ := of_decide_eq_true star
    cases combined
    rw [dropChildrenOfUnknown_of_labelless fits.labelless]
    refine ⟨fun other => absurd rfl other, fun s holds => ?_⟩
    exact fits.strategic.path_toZ hx hy first.2 second.2 (first.1 apart) below holds
  · split at combined
    · cases combined
    · rename_i known
      rw [not_or, Bool.not_eq_true, Bool.not_eq_true] at known
      obtain ⟨both, conj, same⟩ := Option.map_eq_some_iff.mp combined
      rw [dropChildrenOfUnknown_of_labelless fits.labelless] at same
      subst same
      refine ⟨fun _ => Label.hasUnknown_and? conj known.1 known.2, fun s holds => ?_⟩
      exact Or.inl (first.2.path second.2 known.1 known.2 conj holds)

theorem propagateValues (fits : ctx.Fits T observed n) (hx : x < n) (hy : y < n) (hw : w < n)
    (apart : y ≠ w) {α β : CaseLabel} {der : Derivation}
    (first : α.isEmpty = true → T.Supports observed ctx.z x y a u)
    (second : β.isEmpty = true → T.Supports observed ctx.z y w b v)
    (made : ctx.propagateValues? g x w (α, a, u) (β, b, v) = some der) :
    der.Supported T observed ctx.z x w := by
  simp only [propagateValues?] at made
  split at made
  · cases made
  · cases sum : Value.sum? u v with
    | none =>
      rw [sum] at made
      cases made
      trivial
    | some t =>
      rw [sum] at made
      dsimp only at made
      split at made
      · cases made
      · rename_i c combined
        have derived : (α ∪ β).isEmpty = true → (w ≠ ctx.z → c.hasUnknown = false) ∧ ∀ s,
            c.HoldsIn s → T s w - T s x ≤ ctx.clamp t ∨ T.Resolved observed c s x := by
          intro plain
          obtain ⟨plain₁, plain₂⟩ := CaseLabel.isEmpty_union plain
          obtain ⟨known, path⟩ := fits.combine hx hy apart (first plain₁) (second plain₂) combined
          refine ⟨known, fun s holds => (path s holds).imp_left ?_⟩
          rintro ⟨kept, kept'⟩
          have whole := fits.distance (s := s) hx hw
          have total : T s y - T s x + (T s w - T s y) = T s w - T s x := by linarith
          have le := le_sum fits.finite sum kept kept' (fits.distance hx hy).1 (fits.distance hy hw).1
            (by linarith [whole.2])
          rw [total] at le
          exact le_clamp whole.1 le
        split at made
        · rename_i loop
          unfold closeLoop? at made
          split at made
          · cases made
          · rename_i closes
            rw [not_or, not_le, Bool.not_eq_true, Bool.not_eq_false'] at closes
            split at made
            · cases made
              exact fun _ other => absurd loop other
            · rename_i known
              rw [Bool.not_eq_true] at known
              -- A scenario of the label would have the node before itself.
              rcases (derived closes.2).2 _ (Label.holdsIn_adapt c fun _ => true) with kept | early
              · rw [loop, sub_self] at kept
                have negative : ((ctx.clamp t : Value) : ℚ) < 0 := by exact_mod_cast closes.1
                linarith
              · exact absurd early (Timing.not_resolved known)
        · cases made
          exact fun plain _ => derived plain

theorem labelPropagation (fits : ctx.Fits T observed n) (wf : g.WellFormed)
    (supported : g.Supported T observed n ctx.z) :
    ∀ der ∈ ctx.labelPropagation g x y w, der.Supported T observed ctx.z x w := by
  intro der mem
  unfold RuleContext.labelPropagation at mem
  split at mem
  · cases mem
  · rename_i on
    rw [not_or, not_or] at on
    split at mem
    · rename_i e e' joined joined'
      obtain ⟨⟨α, a, u⟩, stored, mem⟩ := List.mem_flatMap.mp mem
      obtain ⟨⟨β, b, v⟩, stored', made⟩ := List.mem_filterMap.mp mem
      have edge := supported.edge x y e joined
      have edge' := supported.edge y w e' joined'
      obtain ⟨hx, hy⟩ := wf.lt_of_edgeBetween? joined
      obtain ⟨_, hw⟩ := wf.lt_of_edgeBetween? joined'
      rw [supported.nodeCount] at hx hy hw
      exact fits.propagateValues hx hy hw on.2.2
        (fun plain => edge.supports on.2.1 a u (edge.mem_values stored plain))
        (fun plain => edge'.supports on.2.2 b v (edge'.mem_values stored' plain)) made
    · cases mem

theorem r0 (fits : ctx.Fits T observed n) (wf : g.WellFormed)
    (supported : g.Supported T observed n ctx.z) :
    ∀ der ∈ ctx.r0 g x w, der.Supported T observed ctx.z x w := by
  intro der mem
  unfold RuleContext.r0 at mem
  split at mem
  · cases mem
  · rename_i on
    rw [not_or] at on
    split at mem
    · rename_i p e observes joined
      obtain ⟨⟨case, l, v⟩, stored, made⟩ := List.mem_filterMap.mp mem
      rw [supported.observes] at observes
      have edge := supported.edge x w e joined
      obtain ⟨_, hw⟩ := wf.lt_of_edgeBetween? joined
      rw [supported.nodeCount] at hw
      simp only [stripObserved?, eraseAll_children_of_labelless fits.labelless,
        withEndpoints?_of_labelless fits.labelless] at made
      split at made
      · cases made
      · rename_i applies
        rw [not_or, not_lt] at applies
        split at made
        · cases made
        · cases made
          intro plain apart
          obtain ⟨known, justified⟩ := edge.supports apart l v (edge.mem_values stored plain)
          exact ⟨fun other => Label.hasUnknown_erase (known other) p,
            fits.strategic.strip hw observes justified applies.1⟩
    · cases mem

theorem r3 (fits : ctx.Fits T observed n) (wf : g.WellFormed)
    (supported : g.Supported T observed n ctx.z) :
    ∀ der ∈ ctx.r3 g x w, der.Supported T observed ctx.z x w := by
  intro der mem
  obtain ⟨apart, _, e, joined, p, m, observations, ⟨case, l, v⟩, stored, _, _, ⟨o, t⟩, stored',
    made⟩ := mem_r3.mp mem
  obtain ⟨hx, hw⟩ := wf.lt_of_edgeBetween? joined
  obtain ⟨observer, e', _, other, observes, joined', _, rfl⟩ :=
    (mem_observationsInto wf hw).mp observations
  rw [supported.observes] at observes
  rw [supported.nodeCount] at hx hw
  obtain ⟨observedKnown, observation⟩ :=
    (supported.edge observer w e' joined').supports other o t stored'
  have edge := supported.edge x w e joined
  simp only [observeValue?, eraseAll_children_of_labelless fits.labelless,
    dropChildrenOfUnknown_of_labelless fits.labelless,
    withEndpoints?_of_labelless fits.labelless, Option.bind_fun_some] at made
  split at made
  · cases made
  · rename_i applies
    rw [not_or, not_lt] at applies
    split at made
    · cases made
    · rename_i c combined
      split at made
      · cases made
      · cases made
        intro plain _
        obtain ⟨known, justified⟩ := edge.supports apart l v (edge.mem_values stored plain)
        -- Towards Z the labels are only blended; elsewhere they have no unknown literals and are joined.
        split at combined
        · rename_i toZ
          subst toZ
          cases combined
          exact ⟨fun away => absurd rfl away,
            fits.strategic.observe_toZ hx observes justified observation⟩
        · rename_i away
          split at combined
          · cases combined
          · refine ⟨fun _ => ?_, ?_⟩
            · exact Label.hasUnknown_and? combined (Label.hasUnknown_erase (known away) p)
                (observedKnown away)
            · exact fits.strategic.observe hx hw observes justified observation applies.1
                (known away) (observedKnown away) combined

end Fits

end RuleContext

namespace Application

variable {ctx : RuleContext} {T : Timing} {observed : NodeId → Option Proposition} {n : Nat}
  {g : LabeledNetwork}

theorem supported (fits : ctx.Fits T observed n) (wf : g.WellFormed)
    (supported : g.Supported T observed n ctx.z) (a : Application) (possible : a.Possible ctx) :
    ∀ der ∈ a.derivations ctx g, der.Supported T observed ctx.z a.source a.target := by
  cases a with
  | r0 observer target => exact fits.r0 wf supported
  | r3 source target => exact fits.r3 wf supported
  | labelPropagation x y w => exact fits.labelPropagation wf supported
  | crossLowerCase activation contingent w => exact absurd fits.unlinked possible
  | letterRemoval x activation =>
    intro der mem
    rw [derivations, Propagation.letterRemoval_of_no_links fits.unlinked] at mem
    cases mem

end Application

end TemporalNetwork
