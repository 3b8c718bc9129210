import TemporalNetwork.Proofs.Conditional.Unaltered
import TemporalNetwork.Proofs.Strategy.Soundness
import TemporalNetwork.Proofs.Strategy.Unforeseeing

/-!
Soundness of the rules for contingent links, in networks without labels. An upper-case value need not
hold for all durations, only for those with which the links of its letters take as long as they can. If
a strategy within the horizon keeps the values of a network in this sense, it keeps what the rules
derive; a negative loop would exclude it.
-/

namespace TemporalNetwork

/-- The link apart from its letter and its label. -/
def ContingentLink.plain (link : ContingentLink) : StnuLink :=
  ⟨link.activation, link.contingent, link.lower, link.upper⟩

/-- Whether the links whose letters are in `case` take as long as they can. -/
def Slow (links : List ContingentLink) (case : CaseLabel) (ω : Nat → ℚ) : Prop :=
  ∀ (i : Nat) (link : ContingentLink), links[i]? = some link → case.contains link.letter = true →
    ω i = link.upper

namespace RuleContext

/-- A strategy within the horizon that does not know the durations of the links in advance. -/
structure Controlled (ctx : RuleContext) (σ : (Nat → ℚ) → NodeId → ℚ) (n : Nat) : Prop where
  strategy : Unforeseeing (Finset.range n) (ctx.links.map ContingentLink.plain) σ
  positive : ∀ link ∈ ctx.links, 0 < link.lower
  range : ∀ link ∈ ctx.links, link.lower < link.upper
  letters : (ctx.links.map ContingentLink.letter).Nodup
  early : ∀ ω, Admissible (ctx.links.map ContingentLink.plain) ω → ∀ x < n, 0 ≤ σ ω x
  late : ∀ ω, Admissible (ctx.links.map ContingentLink.plain) ω → ∀ x < n, σ ω x ≤ ctx.horizon
  finite : ctx.horizon < Value.posInf

/-- Whether the strategy keeps a value without label. Self-loops are read by no rule and may hold
anything. -/
def Keeps (ctx : RuleContext) (σ : (Nat → ℚ) → NodeId → ℚ) : ValueProperty :=
  fun u v case label w => label = .empty ∧ (u ≠ v → ∀ ω,
    Admissible (ctx.links.map ContingentLink.plain) ω → Slow ctx.links case ω →
      σ ω v - σ ω u ≤ w)

/-- Whether the strategy keeps the values of the network, whose lower-case values are those of the
links. -/
structure KeepsAll (ctx : RuleContext) (σ : (Nat → ℚ) → NodeId → ℚ) (n : Nat) (g : LabeledNetwork) :
    Prop where
  nodeCount : g.nodeCount = n
  reference : g.reference = ctx.z
  values : g.EveryValue (ctx.Keeps σ)
  lower : g.EveryLower fun u v low => ∃ link ∈ ctx.links, link.activation = u ∧
    link.contingent = v ∧ low = ⟨link.letter, .empty, link.lower⟩

variable {ctx : RuleContext} {σ : (Nat → ℚ) → NodeId → ℚ} {n : Nat} {g : LabeledNetwork}
  {x y w : NodeId} {ω : Nat → ℚ} {case α β : CaseLabel} {u v : Value}

theorem joins_keeps (ctx : RuleContext) (σ : (Nat → ℚ) → NodeId → ℚ) (x y : NodeId) :
    Joins (ctx.Keeps σ x y) := joins_labelless _

theorem KeepsAll.mergeInto (keeps : ctx.KeepsAll σ n g) (wf : g.WellFormed) (hx : x < g.nodeCount)
    (hy : y < g.nodeCount) (kind : ConstraintKind) {label : Label}
    (new : ctx.Keeps σ x y case label v) :
    ctx.KeepsAll σ n (g.mergeInto kind x y case label v).1 where
  nodeCount := (Network.mergeInto_spec wf hx hy kind case label v).1.nodeCount.trans keeps.nodeCount
  reference := (g.reference_mergeInto kind x y case label v).trans keeps.reference
  values := keeps.values.mergeInto (ctx.joins_keeps σ) wf hx hy kind new
  lower := keeps.lower.mergeInto wf hx hy kind case label v

theorem combine?_empty {mayDiffer : Bool} {l : Label}
    (combined : ctx.combine? mayDiffer .empty .empty = some l) : l = .empty := by
  have dropped : ctx.dropChildrenOfUnknown .empty = .empty := by
    unfold dropChildrenOfUnknown
    split
    · refine Label.ext_state fun p => ?_
      rw [Label.state_eraseAll, Label.state_empty]
      split <;> rfl
    · rfl
  unfold combine? at combined
  split at combined
  · cases combined
    exact dropped
  · split at combined
    · cases combined
    · rw [Label.and?_empty, Option.map_some, dropped] at combined
      exact (Option.some.inj combined).symm

theorem closeLoop?_empty {name : String} {sum : Value} {d : Derivation}
    (closed : closeLoop? name case .empty sum = some d) :
    case.isEmpty = true ∧ sum < 0 ∧ d = .negativeLoop ⟨name, .empty, sum⟩ := by
  unfold closeLoop? at closed
  split at closed
  · cases closed
  · rename_i closes
    rw [not_or, not_le, Bool.not_eq_true, Bool.not_eq_false'] at closes
    exact ⟨closes.2, closes.1, (Option.some.inj closed).symm⟩

end RuleContext

theorem Slow.mono {links : List ContingentLink} {case case' : CaseLabel} {ω : Nat → ℚ}
    (slow : Slow links case ω)
    (fewer : ∀ c, case'.contains c = true → case.contains c = true) : Slow links case' ω :=
  fun i link listed inside => slow i link listed (fewer _ inside)

theorem index_eq_of_letter {links : List ContingentLink}
    (letters : (links.map ContingentLink.letter).Nodup) {i k : Nat} {link other : ContingentLink}
    (listed : links[i]? = some link) (listed' : links[k]? = some other)
    (same : other.letter = link.letter) : k = i := by
  have hk : k < (links.map ContingentLink.letter).length := by
    rw [List.length_map]
    exact (List.getElem?_eq_some_iff.mp listed').1
  refine (List.getElem?_inj hk letters).mp ?_
  rw [List.getElem?_map, List.getElem?_map, listed, listed', Option.map_some, Option.map_some, same]

namespace RuleContext.Controlled

variable {ctx : RuleContext} {σ : (Nat → ℚ) → NodeId → ℚ} {n : Nat} {g : LabeledNetwork}
  {x y w : NodeId} {ω : Nat → ℚ} {case α β : CaseLabel} {u v t : Value} {der : Derivation}
  {link : ContingentLink}

theorem distance (controlled : ctx.Controlled σ n)
    (admissible : Admissible (ctx.links.map ContingentLink.plain) ω) (hx : x < n) (hy : y < n) :
    -(ctx.horizon : ℚ) ≤ σ ω y - σ ω x ∧ σ ω y - σ ω x ≤ ctx.horizon := by
  have := controlled.early ω admissible x hx
  have := controlled.early ω admissible y hy
  have := controlled.late ω admissible x hx
  have := controlled.late ω admissible y hy
  constructor
  · linarith
  · linarith

theorem proper (controlled : ctx.Controlled σ n)
    (admissible : Admissible (ctx.links.map ContingentLink.plain) ω) :
    Proper (ctx.links.map ContingentLink.plain) ω := by
  refine ⟨admissible, fun i link listed => ?_⟩
  obtain ⟨link, mem, rfl⟩ := List.mem_map.mp (List.mem_of_getElem? listed)
  refine lt_of_lt_of_le ?_ (admissible i _ listed).1
  exact_mod_cast controlled.positive link mem

theorem admissible_longest (controlled : ctx.Controlled σ n) :
    Admissible (ctx.links.map ContingentLink.plain)
      (longestDurations ℚ (ctx.links.map ContingentLink.plain)) := by
  refine (proper_longestDurations (fun link mem => ?_) fun link mem => ?_).admissible
  · obtain ⟨other, listed, rfl⟩ := List.mem_map.mp mem
    exact (controlled.positive other listed).le
  · obtain ⟨other, listed, rfl⟩ := List.mem_map.mp mem
    exact controlled.range other listed

/-- A derived value on a loop is not negative, unless it has letters. -/
theorem nonneg_of_loop (controlled : ctx.Controlled σ n) (plain : case.isEmpty = true) {s : Value}
    (kept : ∀ ω, Admissible (ctx.links.map ContingentLink.plain) ω → Slow ctx.links case ω →
      σ ω x - σ ω x ≤ s) : 0 ≤ s := by
  have slow : Slow ctx.links case (longestDurations ℚ (ctx.links.map ContingentLink.plain)) := by
    intro i link _ inside
    rw [(CaseLabel.isEmpty_iff).mp plain, CaseLabel.contains_empty] at inside
    cases inside
  have := kept _ controlled.admissible_longest slow
  rw [sub_self] at this
  exact_mod_cast this

theorem propagateValues (controlled : ctx.Controlled σ n) (hx : x < n) (hy : y < n) (hw : w < n)
    (apart : x ≠ y) (apart' : y ≠ w) {a b : Label} (first : ctx.Keeps σ x y α a u)
    (second : ctx.Keeps σ y w β b v)
    (made : ctx.propagateValues? g x w (α, a, u) (β, b, v) = some der) :
    der.Allowed (ctx.Keeps σ) x w := by
  obtain ⟨rfl, first⟩ := first
  obtain ⟨rfl, second⟩ := second
  simp only [propagateValues?] at made
  split at made
  · cases made
  · cases sum : Value.sum? u v with
    | none =>
      rw [sum] at made
      cases made
      trivial
    | some t =>
      rw [sum] at made
      dsimp only at made
      split at made
      · cases made
      · rename_i c combined
        cases combine?_empty combined
        -- The two distances add up; clamping at the horizon loses nothing, since the strategy stays
        -- within it.
        have derived : ∀ ω, Admissible (ctx.links.map ContingentLink.plain) ω →
            Slow ctx.links (α ∪ β) ω → σ ω w - σ ω x ≤ ctx.clamp t := by
          intro ω admissible slow
          have kept := first apart ω admissible (slow.mono fun c inside => by simp [inside])
          have kept' := second apart' ω admissible (slow.mono fun c inside => by simp [inside])
          have whole := controlled.distance admissible hx hw
          have total : σ ω y - σ ω x + (σ ω w - σ ω y) = σ ω w - σ ω x := by linarith
          have le := le_sum controlled.finite sum kept kept'
            (controlled.distance admissible hx hy).1 (controlled.distance admissible hy hw).1
            (total ▸ whole.2)
          rw [total] at le
          exact le_clamp whole.1 le
        split at made
        · rename_i loop
          subst loop
          obtain ⟨plain, negative, _⟩ := closeLoop?_empty made
          have := controlled.nonneg_of_loop plain derived
          exact absurd negative (not_lt.mpr this)
        · cases made
          exact ⟨rfl, fun _ => derived⟩

/-- A negative value that leaves the end of a link holds from its start on: a node that is before the
end whatever the duration cannot wait for it. -/
theorem crossed (controlled : ctx.Controlled σ n) (mem : link ∈ ctx.links) (hw : w < n)
    (apart : link.contingent ≠ w) (negative : v < 0) (other : case.contains link.letter = false)
    {a : Label} (keeps : ctx.Keeps σ link.contingent w case a v)
    (admissible : Admissible (ctx.links.map ContingentLink.plain) ω) (slow : Slow ctx.links case ω) :
    σ ω w - σ ω link.activation ≤ link.lower + v := by
  obtain ⟨i, listed⟩ := List.getElem?_of_mem mem
  have listed' : (ctx.links.map ContingentLink.plain)[i]? = some link.plain := by
    rw [List.getElem?_map, listed, Option.map_some]
  have below : (v : ℚ) < 0 := by exact_mod_cast negative
  have le := controlled.strategy.le_of_before listed' (controlled.positive link mem).le
    (Finset.mem_range.mpr hw) below (controlled.proper admissible) fun z proper => ?_
  · change σ ω w ≤ σ ω link.activation + (link.lower + v) at le
    linarith
  · -- The letter of the link is not among those of the value.
    have slow' : Slow ctx.links case (Function.update ω i z) := by
      intro k link' listed'' inside
      have unequal : k ≠ i := by
        rintro rfl
        rw [listed] at listed''
        cases listed''
        rw [other] at inside
        cases inside
      rw [Function.update_of_ne unequal]
      exact slow k link' listed'' inside
    have kept := keeps.2 apart _ proper.admissible slow'
    change σ _ w ≤ σ _ link.contingent + v
    linarith

/-- A value towards the start of a link that is not less than the negated lower bound does not depend
on the duration of the link: what comes after its end is late enough. -/
theorem removed (controlled : ctx.Controlled σ n) (mem : link ∈ ctx.links) (hx : x < n)
    (apart : x ≠ link.activation) (short : -link.lower ≤ v) {a : Label}
    (keeps : ctx.Keeps σ x link.activation case a v)
    (admissible : Admissible (ctx.links.map ContingentLink.plain) ω)
    (slow : Slow ctx.links (case.erase link.letter) ω) : σ ω link.activation - σ ω x ≤ v := by
  obtain ⟨i, listed⟩ := List.getElem?_of_mem mem
  have listed' : (ctx.links.map ContingentLink.plain)[i]? = some link.plain := by
    rw [List.getElem?_map, listed, Option.map_some]
  have proper := controlled.proper admissible
  have upper : (0 : ℚ) < link.upper := by
    exact_mod_cast (controlled.positive link mem).trans (controlled.range link mem)
  have proper' : Proper (ctx.links.map ContingentLink.plain)
      (Function.update ω i (link.upper : ℚ)) := by
    refine proper.update listed' ⟨?_, le_rfl⟩ upper
    exact_mod_cast (controlled.range link mem).le
  have same : ∀ k, k ≠ i → Function.update ω i (link.upper : ℚ) k = ω k :=
    fun k unequal => Function.update_of_ne unequal _ _
  -- The same durations but for the link, which now takes its longest time.
  have slow' : Slow ctx.links case (Function.update ω i (link.upper : ℚ)) := by
    intro k link' listed'' inside
    by_cases here : k = i
    · subst here
      rw [listed] at listed''
      cases listed''
      exact Function.update_self ..
    · rw [same k here]
      refine slow k link' listed'' ?_
      rw [CaseLabel.contains_erase, inside, Bool.true_and]
      exact decide_eq_true fun shared =>
        here (index_eq_of_letter controlled.letters listed listed'' shared.symm)
  have kept := keeps.2 apart _ proper'.admissible slow'
  have activation : σ (Function.update ω i (link.upper : ℚ)) link.activation = σ ω link.activation :=
    controlled.strategy.activation_eq proper proper' listed' same
  rw [activation] at kept
  -- If `x` is at another time then it has waited for the end of the link, which is at least the lower
  -- bound after its start.
  by_cases alike : σ (Function.update ω i (link.upper : ℚ)) x = σ ω x
  · rwa [alike] at kept
  · have late := (controlled.strategy.first_difference proper proper' listed' same
      (Finset.mem_range.mpr hx) alike).2
    change σ ω link.activation + _ ≤ _ at late
    have duration : (link.lower : ℚ) ≤ min (ω i) (Function.update ω i (link.upper : ℚ) i) := by
      refine le_min (admissible i _ listed').1 ?_
      rw [Function.update_self]
      exact_mod_cast (controlled.range link mem).le
    have before := min_le_left (σ ω x) (σ (Function.update ω i (link.upper : ℚ)) x)
    have short' : -(link.lower : ℚ) ≤ v := by exact_mod_cast short
    linarith

theorem crossValue (controlled : ctx.Controlled σ n) (mem : link ∈ ctx.links)
    (ends : link.activation < n ∧ link.contingent < n) (hw : w < n) (apart : link.contingent ≠ w)
    {a : Label} (keeps : ctx.Keeps σ link.contingent w case a v)
    (made : ctx.crossValue? g link.activation w ⟨link.letter, .empty, link.lower⟩ (case, a, v) =
      some der) : der.Allowed (ctx.Keeps σ) link.activation w := by
  simp only [crossValue?] at made
  split at made
  · cases made
  · rename_i applies
    rw [not_or, not_le, Bool.not_eq_true] at applies
    cases sum : Value.sum? link.lower v with
    | none =>
      rw [sum] at made
      cases made
      trivial
    | some t =>
      rw [sum, keeps.1] at made
      dsimp only at made
      split at made
      · cases made
      · rename_i c combined
        cases combine?_empty combined
        have derived : ∀ ω, Admissible (ctx.links.map ContingentLink.plain) ω →
            Slow ctx.links case ω → σ ω w - σ ω link.activation ≤ t := by
          intro ω admissible slow
          have le := controlled.crossed mem hw apart applies.1 applies.2 keeps admissible slow
          have whole := (controlled.distance admissible ends.1 hw).2
          have kept := keeps.2 apart ω admissible slow
          have low := (controlled.distance admissible ends.2 hw).1
          have finite : (ctx.horizon : ℚ) < (Value.posInf : Value) := by
            exact_mod_cast controlled.finite
          -- The sum is finite: the lower bound is, and an infinite value would not bound the strategy.
          rcases Value.sum?_cases sum with ⟨_, rfl⟩ | ⟨infinite | infinite, _⟩ | ⟨rfl, _⟩
          · linarith
          · have := controlled.positive link mem
            rw [infinite] at this
            cases this
          · exact absurd infinite (ne_negInf_of_le controlled.finite low kept)
          · rw [Int.cast_add]
            exact le
        split at made
        · rename_i loop
          subst loop
          obtain ⟨plain, negative, _⟩ := closeLoop?_empty made
          have := controlled.nonneg_of_loop plain derived
          exact absurd negative (not_lt.mpr this)
        · cases made
          exact ⟨rfl, fun _ => derived⟩

theorem labelPropagation (controlled : ctx.Controlled σ n) (wf : g.WellFormed)
    (keeps : ctx.KeepsAll σ n g) :
    ∀ der ∈ ctx.labelPropagation g x y w, der.Allowed (ctx.Keeps σ) x w := by
  intro der mem
  unfold RuleContext.labelPropagation at mem
  split at mem
  · cases mem
  · rename_i on
    rw [not_or, not_or] at on
    split at mem
    · rename_i e e' joined joined'
      obtain ⟨⟨α, a, u⟩, stored, mem⟩ := List.mem_flatMap.mp mem
      obtain ⟨⟨β, b, v⟩, stored', made⟩ := List.mem_filterMap.mp mem
      obtain ⟨hx, hy⟩ := wf.lt_of_edgeBetween? joined
      obtain ⟨_, hw⟩ := wf.lt_of_edgeBetween? joined'
      rw [keeps.nodeCount] at hx hy hw
      exact controlled.propagateValues hx hy hw on.2.1 on.2.2
        (keeps.values x y e joined α a u stored) (keeps.values y w e' joined' β b v stored') made
    · cases mem

theorem crossLowerCase (controlled : ctx.Controlled σ n) (wf : g.WellFormed)
    (keeps : ctx.KeepsAll σ n g) {activation contingent : NodeId} :
    ∀ der ∈ ctx.crossLowerCase g activation contingent w,
      der.Allowed (ctx.Keeps σ) activation w := by
  intro der mem
  unfold RuleContext.crossLowerCase at mem
  split at mem
  · cases mem
  · rename_i on
    rw [not_or] at on
    split at mem
    · rename_i low e crossed joined'
      obtain ⟨e', joined, stored⟩ := Option.bind_eq_some_iff.mp crossed
      obtain ⟨link, listed, rfl, rfl, rfl⟩ := keeps.lower _ _ e' low joined stored
      obtain ⟨⟨case, a, v⟩, stored', made⟩ := List.mem_filterMap.mp mem
      have ends := wf.lt_of_edgeBetween? joined
      obtain ⟨_, hw⟩ := wf.lt_of_edgeBetween? joined'
      rw [keeps.nodeCount] at ends hw
      exact controlled.crossValue listed ends hw (Ne.symm on.2)
        (keeps.values _ w e joined' case a v stored') made
    · cases mem

theorem letterRemoval (controlled : ctx.Controlled σ n) (wf : g.WellFormed)
    (keeps : ctx.KeepsAll σ n g) {activation : NodeId} :
    ∀ der ∈ ctx.letterRemoval g x activation, der.Allowed (ctx.Keeps σ) x activation := by
  intro der mem
  unfold RuleContext.letterRemoval at mem
  split at mem
  · cases mem
  · split at mem
    · cases mem
    · rename_i e joined
      dsimp only at mem
      split at mem
      · cases mem
      · obtain ⟨⟨case, a, v⟩, stored, made⟩ := List.mem_flatMap.mp mem
        obtain ⟨link, able, rfl⟩ := List.mem_map.mp made
        obtain ⟨starts, removable⟩ := List.mem_filter.mp able
        obtain ⟨listed, here⟩ := List.mem_filter.mp starts
        rw [beq_iff_eq] at here
        subst here
        rw [letterIsRemovable, Bool.and_eq_true, Bool.and_eq_true, decide_eq_true_eq] at removable
        have hx := (wf.lt_of_edgeBetween? joined).1
        rw [keeps.nodeCount] at hx
        have kept := keeps.values x _ e joined case a v (List.mem_append_right _ stored)
        exact ⟨kept.1, fun apart ω admissible slow =>
          controlled.removed listed hx apart removable.1.2 kept admissible slow⟩

theorem r0 (keeps : ctx.KeepsAll σ n g) : ctx.r0 g x w = [] := by
  unfold RuleContext.r0
  split
  · rfl
  · split
    · rename_i p e _ joined
      refine List.filterMap_eq_nil_iff.mpr ?_
      rintro ⟨case, a, v⟩ stored
      rw [(keeps.values x w e joined case a v stored).1, stripObserved?]
      exact if_pos (Or.inr (Or.inl (by simp [Label.mentions_eq])))
    · rfl

theorem r3 (keeps : ctx.KeepsAll σ n g) : ctx.r3 g x w = [] := by
  refine List.eq_nil_iff_forall_not_mem.mpr fun der mem => ?_
  obtain ⟨_, _, e, joined, _, _, _, ⟨case, a, v⟩, stored, labelled, _⟩ := mem_r3.mp mem
  rw [(keeps.values x w e joined case a v stored).1, show Label.empty.isEmpty = true from rfl]
    at labelled
  cases labelled

theorem allowed (controlled : ctx.Controlled σ n) (wf : g.WellFormed) (keeps : ctx.KeepsAll σ n g)
    (a : Application) : ∀ der ∈ a.derivations ctx g, der.Allowed (ctx.Keeps σ) a.source a.target := by
  cases a with
  | r0 observer target =>
    rw [Application.derivations, RuleContext.Controlled.r0 keeps]
    exact fun _ mem => absurd mem List.not_mem_nil
  | r3 source target =>
    rw [Application.derivations, RuleContext.Controlled.r3 keeps]
    exact fun _ mem => absurd mem List.not_mem_nil
  | labelPropagation x y w => exact controlled.labelPropagation wf keeps
  | crossLowerCase activation contingent w => exact controlled.crossLowerCase wf keeps
  | letterRemoval x activation => exact controlled.letterRemoval wf keeps

/-- Propagation keeps the values that the strategy keeps and meets no negative loop. -/
theorem keeps (controlled : ctx.Controlled σ n) (start : LabeledNetwork) :
    Propagation.Keeps ctx start (ctx.KeepsAll σ n) (fun halt => ∀ loop, halt ≠ .negativeLoop loop)
    where
  perform a p _ wf _ kept := by
    unfold Ends
    rw [Application.perform_eq]
    exact Propagation.apply_allowed (fun g wf hu hv kept _ _ _ => kept.mergeInto wf hu hv .derived) _ _
      p wf kept (Application.inRange wf) (controlled.allowed wf kept a)
  timeout := nofun
  cycleBoundExceeded := nofun

theorem keepsAll_addBounds (controlled : ctx.Controlled σ n) {withNodeLabels : Bool}
    (origin : ∀ ω, Admissible (ctx.links.map ContingentLink.plain) ω → σ ω ctx.z = 0)
    (wf : g.WellFormed) (hz : ctx.z < g.nodeCount) (unlabelled : g.Unlabelled withNodeLabels)
    (keeps : ctx.KeepsAll σ n g) :
    ctx.KeepsAll σ n (g.addBounds ctx.z ctx.horizon withNodeLabels) := by
  refine Network.addBounds_induct wf hz (fun h wf' grows kept m hm _ => ?_) keeps
  have hm' : m < h.nodeCount := grows.nodeCount ▸ hm
  have hz' : ctx.z < h.nodeCount := grows.nodeCount ▸ hz
  rw [unlabelled.boundLabel]
  refine ⟨kept.mergeInto wf' hm' hz' .internal ⟨rfl, fun _ ω admissible _ => ?_⟩,
    kept.mergeInto wf' hz' hm' .internal ⟨rfl, fun _ ω admissible _ => ?_⟩⟩
  · have := controlled.early ω admissible m (keeps.nodeCount ▸ hm)
    rw [origin ω admissible, Int.cast_zero]
    linarith
  · have := controlled.late ω admissible m (keeps.nodeCount ▸ hm)
    rw [origin ω admissible]
    linarith

end RuleContext.Controlled

end TemporalNetwork
