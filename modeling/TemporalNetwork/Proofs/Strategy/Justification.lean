import Mathlib.Algebra.Order.Field.Rat
import Mathlib.Tactic.Linarith
import TemporalNetwork.Proofs.Strategy.History
import TemporalNetwork.Values.ValueMap

/-!
Justified values. A strategy justifies a value if, in every scenario of its label, it keeps the
distance or observes an unknown literal of the label before the source. What the rules derive from
justified values is justified.
-/

namespace TemporalNetwork

namespace Timing

/-- Whether a proposition unknown to the label is observed before the node `u`. -/
def Resolved (T : Timing) (observed : NodeId → Option Proposition) (l : Label) (s : Scenario)
    (u : NodeId) : Prop :=
  ∃ m p, observed m = some p ∧ l.state p = some .unknown ∧ T s m < T s u

def Justifies (T : Timing) (observed : NodeId → Option Proposition) (u v : NodeId) (l : Label)
    (w : Value) : Prop :=
  ∀ s, l.HoldsIn s → T s v - T s u ≤ w ∨ T.Resolved observed l s u

/-- A strategy for `n` nodes that starts at the node `z`. -/
structure Strategic (T : Timing) (observed : NodeId → Option Proposition) (n : Nat) (z : NodeId) :
    Prop where
  nonanticipating : T.Nonanticipating observed n
  inside : ∀ m p, observed m = some p → m < n
  unique : ∀ m m' p, observed m = some p → observed m' = some p → m = m'
  origin : ∀ s, T s z = 0

variable {T : Timing} {observed : NodeId → Option Proposition} {n : Nat} {z u v x y m : NodeId}
  {s : Scenario} {a b c l o : Label} {w w' t : Value} {p : Proposition}

theorem not_resolved (known : l.hasUnknown = false) : ¬ T.Resolved observed l s u := by
  rintro ⟨_, p, _, unknown, _⟩
  exact Label.state_ne_unknown known p unknown

theorem Justifies.bound (justified : T.Justifies observed u v l w) (known : l.hasUnknown = false)
    (holds : l.HoldsIn s) : T s v - T s u ≤ w :=
  (justified s holds).resolve_right (not_resolved known)

/-- Of two twins, one holds; so the larger value is justified without the proposition. -/
theorem Justifies.join {twin : Literal} (justified : T.Justifies observed u v l w)
    (mem : twin ∈ ValueMap.flippable l)
    (justified' : T.Justifies observed u v (l.replace twin.complement) w') :
    T.Justifies observed u v (l.erase twin.proposition) (max w w') := by
  obtain ⟨q, t⟩ := twin
  obtain ⟨stated, known⟩ := List.mem_filter.mp mem
  have here : l.state q = some t := Label.mem_literals.mp stated
  have resolved : ∀ a s, a.state q ≠ some .unknown →
      (∀ r, q ≠ r → a.state r = l.state r) → T.Resolved observed a s u →
      T.Resolved observed (l.erase q) s u := by
    intro a s apart same resolved
    obtain ⟨k, r, observes, unknown, early⟩ := resolved
    have other : q ≠ r := by
      intro same
      rw [same] at apart
      exact apart unknown
    refine ⟨k, r, observes, ?_, early⟩
    rw [Label.state_erase, if_neg other, ← same r other]
    exact unknown
  have decided : t ≠ .unknown := by simpa using known
  intro s holds
  have holds' : ∀ a : Label, (∀ r, q ≠ r → a.state r = l.state r) →
      (∀ b, a.demand? q = some b → s q = b) → a.HoldsIn s := by
    intro a same atq r b asked
    by_cases here : q = r
    · rw [← here] at asked ⊢
      exact atq b asked
    · refine holds r b ?_
      rw [Label.demand?_erase, if_neg here, Label.demand?, ← same r here]
      exact asked
  have same : ∀ r, q ≠ r → (l.replace ⟨q, t.complement⟩).state r = l.state r := by
    intro r apart
    rw [Label.state_replace, if_neg apart]
  have there : (l.replace ⟨q, t.complement⟩).state q = some t.complement := by
    rw [Label.state_replace, if_pos rfl]
  have decided' : t.complement ≠ .unknown := by
    cases t with
    | straight => decide
    | negated => decide
    | unknown => exact absurd rfl decided
  -- The scenario decides the proposition one way or the other.
  have one : (∀ b, l.demand? q = some b → s q = b) ∨
      ∀ b, (l.replace ⟨q, t.complement⟩).demand? q = some b → s q = b := by
    rw [Label.demand?, here, Label.demand?, there]
    cases t with
    | straight => cases s q <;> simp [LiteralState.truth?, LiteralState.complement]
    | negated => cases s q <;> simp [LiteralState.truth?, LiteralState.complement]
    | unknown => exact absurd rfl decided
  rw [Int.cast_max]
  rcases one with straight | negated
  · rcases justified s (holds' l (fun _ _ => rfl) straight) with kept | early
    · exact Or.inl (le_trans kept (le_max_left _ _))
    · refine Or.inr (resolved l s ?_ (fun _ _ => rfl) early)
      rw [here]
      exact fun same => decided (Option.some.inj same)
  · rcases justified' s (holds' _ same negated) with kept | early
    · exact Or.inl (le_trans kept (le_max_right _ _))
    · refine Or.inr (resolved _ s ?_ same early)
      rw [there]
      exact fun same => decided' (Option.some.inj same)

/-- As long as nothing unknown to `c` is observed, the scenario could be one of `a`. -/
theorem shared_of_unresolved
    (asked : ∀ p b, a.demand? p = some b → c.demand? p = some b ∨ c.state p = some .unknown)
    (holds : c.HoldsIn s) (unresolved : ¬ T.Resolved observed c s x) :
    T.Shared observed s (s.adapt a) (T s x) := by
  refine shared_adapt fun m p observes early b here => ?_
  rcases asked p b here with agrees | unknown
  · exact holds p b agrees
  · exact absurd ⟨m, p, observes, unknown, early⟩ unresolved

theorem Justifies.path (first : T.Justifies observed x y a w) (second : T.Justifies observed y v b w')
    (ha : a.hasUnknown = false) (hb : b.hasUnknown = false) (both : a.and? b = some c)
    (holds : c.HoldsIn s) : T s y - T s x ≤ w ∧ T s v - T s y ≤ w' := by
  have known := Label.hasUnknown_and? both ha hb
  obtain ⟨_, rfl⟩ := Label.and?_eq_some_iff.mp both
  obtain ⟨holds₁, holds₂⟩ := holds.of_blend known
  exact ⟨first.bound ha holds₁, second.bound hb holds₂⟩

namespace Strategic

/-- A path to Z under labels that may differ. The middle node comes before the source, so what is
unknown at the source is unknown at the middle node, too. -/
theorem path_toZ (strategic : T.Strategic observed n z) (hx : x < n) (hy : y < n)
    (first : T.Justifies observed x y a w) (second : T.Justifies observed y z b w')
    (ha : a.hasUnknown = false) (negative : w < 0) (holds : (a.blend b).HoldsIn s) :
    T s y - T s x ≤ w ∧ T s z - T s y ≤ w' ∨ T.Resolved observed (a.blend b) s x := by
  by_cases unresolved : T.Resolved observed (a.blend b) s x
  · exact Or.inr unresolved
  · left
    have below : (w : ℚ) < 0 := by exact_mod_cast negative
    have shared : T.Shared observed s (s.adapt a) (T s x) :=
      shared_of_unresolved (fun _ _ asked => Label.demand?_blend_left asked b) holds unresolved
    have sourceTime := shared.time_eq strategic.nonanticipating hx le_rfl
    have kept := first.bound ha (Label.holdsIn_adapt a s)
    have middleTime := shared.time_eq_of_le strategic.nonanticipating strategic.inside hy
      (by linarith)
    rw [sourceTime, middleTime] at kept
    have shared' : T.Shared observed s (s.adapt b) (T s x) :=
      shared_of_unresolved (fun _ _ asked => Label.demand?_blend_right asked a) holds unresolved
    have middleTime' := shared'.time_eq strategic.nonanticipating hy (by linarith)
    refine ⟨kept, ?_⟩
    rcases second (s.adapt b) (Label.holdsIn_adapt b s) with kept' | ⟨m, p, observes, unknown, early⟩
    · rw [middleTime', strategic.origin] at kept'
      rw [strategic.origin]
      exact kept'
    · rw [middleTime'] at early
      have observedTime := shared'.time_eq_of_le strategic.nonanticipating strategic.inside
        (strategic.inside m p observes) (by linarith)
      rw [observedTime] at early
      exact absurd ⟨m, p, observes, Label.unknown_blend_right unknown a, by linarith⟩ unresolved

theorem ne_of_early (strategic : T.Strategic observed n z) {k : NodeId} {q : Proposition}
    (observes : observed m = some p) (observes' : observed k = some q) (early : T s k < T s u)
    (before : T s u ≤ T s m) : p ≠ q := by
  rintro rfl
  have same := strategic.unique k m _ observes' observes
  rw [same] at early
  exact absurd early (not_lt.mpr before)

/-- Flipping a proposition is not noticed before it is observed. -/
theorem shared_of_erase (strategic : T.Strategic observed n z) (observes : observed m = some p)
    (holds : (l.erase p).HoldsIn s) : T.Shared observed s (s.adapt l) (T s m) := by
  refine shared_adapt fun k q observes' early b asked => ?_
  have other := strategic.ne_of_early observes observes' early le_rfl
  refine holds q b ?_
  rw [Label.demand?_erase, if_neg other]
  exact asked

/-- A bound on what happens after an observer, if it is not positive, does not depend on what is
observed. -/
theorem strip (strategic : T.Strategic observed n z) (hv : v < n) (observes : observed m = some p)
    (justified : T.Justifies observed m v l w) (nonpos : w ≤ 0) :
    T.Justifies observed m v (l.erase p) w := by
  intro s holds
  have le : (w : ℚ) ≤ 0 := by exact_mod_cast nonpos
  have shared := strategic.shared_of_erase observes holds
  have hm := strategic.inside m p observes
  have observerTime := shared.time_eq strategic.nonanticipating hm le_rfl
  rcases justified (s.adapt l) (Label.holdsIn_adapt l s) with kept | ⟨k, q, observes', unknown, early⟩
  · left
    rw [observerTime] at kept
    have targetTime := shared.time_eq_of_le strategic.nonanticipating strategic.inside hv
      (by linarith)
    rwa [targetTime] at kept
  · right
    rw [observerTime] at early
    have observedTime := shared.time_eq_of_le strategic.nonanticipating strategic.inside
      (strategic.inside k q observes') (le_of_lt early)
    rw [observedTime] at early
    have other := strategic.ne_of_early observes observes' early le_rfl
    refine ⟨k, q, observes', ?_, early⟩
    rw [Label.state_erase, if_neg other]
    exact unknown

/-- A bound that depends on an observation, and the observation itself. Before the observation the
bound cannot depend on it; afterwards the source is later than the observer. -/
theorem observe (strategic : T.Strategic observed n z) (hu : u < n) (hv : v < n)
    (observes : observed m = some p) (justified : T.Justifies observed u v l w)
    (observation : T.Justifies observed m v o t) (nonpos : t ≤ 0) (hl : l.hasUnknown = false)
    (ho : o.hasUnknown = false) (both : (l.erase p).and? o = some c) :
    T.Justifies observed u v c (max w t) := by
  intro s holds
  left
  have le : (t : ℚ) ≤ 0 := by exact_mod_cast nonpos
  have known := Label.hasUnknown_and? both (Label.hasUnknown_erase hl p) ho
  obtain ⟨_, rfl⟩ := Label.and?_eq_some_iff.mp both
  obtain ⟨holds₁, holds₂⟩ := holds.of_blend known
  have early := observation.bound ho holds₂
  have shared := strategic.shared_of_erase observes holds₁
  have kept := justified.bound hl (Label.holdsIn_adapt l s)
  rw [shared.time_eq strategic.nonanticipating hv (by linarith)] at kept
  rw [Int.cast_max]
  rcases le_or_gt (T s u) (T s m) with before | after
  · rw [shared.time_eq strategic.nonanticipating hu before] at kept
    exact le_trans kept (le_max_left _ _)
  · exact le_trans (by linarith) (le_max_right _ _)

theorem observe_toZ (strategic : T.Strategic observed n z) (hu : u < n)
    (observes : observed m = some p) (justified : T.Justifies observed u z l w)
    (observation : T.Justifies observed m z o t) :
    T.Justifies observed u z ((l.erase p).blend o) (max w t) := by
  intro s holds
  by_cases unresolved : T.Resolved observed ((l.erase p).blend o) s u
  · exact Or.inr unresolved
  · left
    rw [Int.cast_max, strategic.origin]
    have hm := strategic.inside m p observes
    -- If the source comes first it does not know what is observed, and is as early where the label
    -- holds. If the observation comes first, its own value bounds both.
    rcases le_or_gt (T s u) (T s m) with before | after
    · have shared : T.Shared observed s (s.adapt l) (T s u) := by
        have rest : T.Shared observed s (s.adapt (l.erase p)) (T s u) := shared_of_unresolved
          (fun _ _ asked => Label.demand?_blend_left asked o) holds unresolved
        intro k q observes' early
        have other := strategic.ne_of_early observes observes' early before
        have agrees := rest k q observes' early
        rwa [Scenario.adapt, Label.demand?_erase, if_neg other] at agrees
      have sourceTime := shared.time_eq strategic.nonanticipating hu le_rfl
      rcases justified (s.adapt l) (Label.holdsIn_adapt l s) with
        kept | ⟨k, q, observes', unknown, early⟩
      · rw [sourceTime, strategic.origin] at kept
        exact le_trans kept (le_max_left _ _)
      · rw [sourceTime] at early
        have observedTime := shared.time_eq_of_le strategic.nonanticipating strategic.inside
          (strategic.inside k q observes') (le_of_lt early)
        rw [observedTime] at early
        have other := strategic.ne_of_early observes observes' early before
        have unknown' : (l.erase p).state q = some .unknown := by
          rw [Label.state_erase, if_neg other]
          exact unknown
        exact absurd ⟨k, q, observes', Label.unknown_blend_left unknown' o, early⟩ unresolved
    · have shared : T.Shared observed s (s.adapt o) (T s u) := shared_of_unresolved
        (fun _ _ asked => Label.demand?_blend_right asked _) holds unresolved
      have observerTime := shared.time_eq strategic.nonanticipating hm (le_of_lt after)
      rcases observation (s.adapt o) (Label.holdsIn_adapt o s) with
        kept | ⟨k, q, observes', unknown, early⟩
      · rw [observerTime, strategic.origin] at kept
        exact le_trans (by linarith) (le_max_right _ _)
      · rw [observerTime] at early
        have observedTime := shared.time_eq_of_le strategic.nonanticipating strategic.inside
          (strategic.inside k q observes') (by linarith)
        rw [observedTime] at early
        exact absurd ⟨k, q, observes', Label.unknown_blend_right unknown _, by linarith⟩ unresolved

end Strategic

end Timing

end TemporalNetwork
