import TemporalNetwork.Conditional.Closure
import TemporalNetwork.Proofs.Values.Covering

/-!
Closing a label gives its least closed extension. A label is closed if it has the literals of the
observer of each proposition it mentions. Every round but the last adds a proposition, of which there
are 32, so the rounds never run out before the label is closed.
-/

namespace TemporalNetwork

variable {f : Proposition → Option Label} {label next c : Label} {ps : List Proposition}

namespace Label

/-- Whether `label` has the literals of the observer of `p`. -/
def Observes (f : Proposition → Option Label) (label : Label) (p : Proposition) : Prop :=
  ∃ k, f p = some k ∧ label.subsumes k = true

/-- Whether `label` has the literals of the observer of each proposition that it mentions. -/
def IsClosed (f : Proposition → Option Label) (label : Label) : Prop :=
  ∀ p, label.mentions p = true → label.Observes f p

theorem isClosed_empty (f : Proposition → Option Label) : empty.IsClosed f := by
  intro p mentioned
  rw [mentions_eq] at mentioned
  simp at mentioned

theorem mentions_of_subsumes {p : Proposition} (refines : next.subsumes label = true)
    (mentioned : label.mentions p = true) : next.mentions p = true := by
  rw [mentions_eq, Option.isSome_iff_exists] at mentioned ⊢
  obtain ⟨s, stated⟩ := mentioned
  exact ⟨s, subsumes_iff.mp refines p s stated⟩

theorem mentions_and? {a b : Label} {p : Proposition} (h : a.and? b = some c)
    (mentioned : c.mentions p = true) : a.mentions p = true ∨ b.mentions p = true := by
  obtain ⟨_, rfl⟩ := and?_eq_some_iff.mp h
  rw [mentions_eq, state_blend] at mentioned
  rw [mentions_eq, mentions_eq]
  cases here : a.state p with
  | some s => exact Or.inl rfl
  | none =>
    rw [here] at mentioned
    exact Or.inr mentioned

theorem mem_propositions {p : Proposition} :
    p ∈ label.propositions.toList ↔ label.mentions p = true := by
  rw [PropositionSet.mem_toList]
  rfl

theorem size_le (label : Label) : label.size ≤ 32 :=
  le_trans List.countP_le_length (le_of_eq (by simp [Proposition.all]))

theorem IsClosed.of_mentioned (closed : c.IsClosed f) (refines : c.subsumes label = true) :
    ∀ p ∈ label.propositions.toList, c.Observes f p :=
  fun p mem => closed p (mentions_of_subsumes refines (mem_propositions.mp mem))

end Label

open Label

/-- One round adds the least that the observers of the propositions need. -/
theorem addObserverLabels_spec (h : addObserverLabels f label ps = .ok next) :
    next.subsumes label = true ∧ (∀ p ∈ ps, next.Observes f p) ∧
      ∀ c : Label, c.subsumes label = true → (∀ p ∈ ps, c.Observes f p) →
        c.subsumes next = true := by
  induction ps generalizing label with
  | nil =>
    cases h
    exact ⟨subsumes_refl _, nofun, fun c refines _ => refines⟩
  | cons p rest ih =>
    rw [addObserverLabels] at h
    cases observer : f p with
    | none => simp [observer] at h
    | some k =>
      cases both : label.and? k with
      | none => simp [observer, both] at h
      | some l =>
        simp only [observer, both] at h
        obtain ⟨refines, others, least⟩ := ih h
        obtain ⟨left, right⟩ := and?_subsumes both
        refine ⟨subsumes_trans refines left, ?_, fun c above all => ?_⟩
        · intro q mem
          rcases List.mem_cons.mp mem with rfl | mem
          · exact ⟨k, observer, subsumes_trans refines right⟩
          · exact others q mem
        · obtain ⟨k', observer', general⟩ := all p List.mem_cons_self
          rw [observer] at observer'
          cases observer'
          exact least c (subsumes_and? both above general) fun q mem =>
            all q (List.mem_cons_of_mem p mem)

/-- A round does not fail if some label is above all that it adds. -/
theorem exists_addObserverLabels (above : c.subsumes label = true)
    (all : ∀ p ∈ ps, c.Observes f p) : ∃ next, addObserverLabels f label ps = .ok next := by
  induction ps generalizing label with
  | nil => exact ⟨label, rfl⟩
  | cons p rest ih =>
    obtain ⟨k, observer, general⟩ := all p List.mem_cons_self
    have both := and?_of_subsumes above general
    obtain ⟨next, h⟩ := ih (subsumes_and? both above general) fun q mem =>
      all q (List.mem_cons_of_mem p mem)
    refine ⟨next, ?_⟩
    rw [addObserverLabels, observer]
    dsimp only
    rw [both]
    exact h

theorem closeWithin_spec {fuel : Nat} (h : closeWithin f fuel label = .ok c)
    (enough : 32 < label.size + fuel) :
    c.subsumes label = true ∧ c.IsClosed f ∧
      ∀ d : Label, d.subsumes label = true → d.IsClosed f → d.subsumes c = true := by
  induction fuel generalizing label with
  | zero =>
    have := label.size_le
    omega
  | succ fuel ih =>
    rw [closeWithin] at h
    cases round : addObserverLabels f label label.propositions.toList with
    | error e => simp [round] at h
    | ok next =>
      obtain ⟨refines, all, least⟩ := addObserverLabels_spec round
      simp only [round] at h
      split at h
      · rename_i same
        cases h
        subst same
        exact ⟨subsumes_refl next, fun p mentioned => all p (mem_propositions.mpr mentioned),
          fun d above _ => above⟩
      · rename_i other
        have larger := size_lt_of_subsumes refines fun same => other same.symm
        obtain ⟨refines', closed, least'⟩ := ih h (by omega)
        refine ⟨subsumes_trans refines' refines, closed, fun d above closed' => ?_⟩
        exact least' d (least d above (closed'.of_mentioned above)) closed'

/-- Closing a label gives the least closed label that refines it. -/
theorem closeLabel_spec (h : closeLabel f label = .ok c) :
    c.subsumes label = true ∧ c.IsClosed f ∧
      ∀ d : Label, d.subsumes label = true → d.IsClosed f → d.subsumes c = true :=
  closeWithin_spec h (by omega)

theorem closeLabel_of_isClosed (closed : label.IsClosed f) : closeLabel f label = .ok label := by
  have all := closed.of_mentioned (subsumes_refl label)
  obtain ⟨next, round⟩ := exists_addObserverLabels (subsumes_refl label) all
  obtain ⟨refines, _, least⟩ := addObserverLabels_spec round
  have same : next = label := subsumes_antisymm refines (least label (subsumes_refl label) all)
  rw [closeLabel, closeWithin, round]
  exact if_pos same

/-- A label that mentions only propositions of a closed label goes on doing so, and none of them lacks
an observer. -/
theorem addObserverLabels_within {d : Label} (closed : d.IsClosed f)
    (within : ∀ p, label.mentions p = true → d.mentions p = true)
    (listed : ∀ p ∈ ps, d.mentions p = true) :
    (∀ q, addObserverLabels f label ps ≠ .error (.unobserved q)) ∧
      ∀ next, addObserverLabels f label ps = .ok next →
        ∀ p, next.mentions p = true → d.mentions p = true := by
  induction ps generalizing label with
  | nil =>
    refine ⟨nofun, fun next h => ?_⟩
    cases h
    exact within
  | cons p rest ih =>
    obtain ⟨k, observer, general⟩ := closed p (listed p List.mem_cons_self)
    rw [addObserverLabels, observer]
    dsimp only
    cases both : label.and? k with
    | none => exact ⟨nofun, nofun⟩
    | some l =>
      refine ih (fun q mentioned => ?_) fun q mem => listed q (List.mem_cons_of_mem p mem)
      rcases mentions_and? both mentioned with here | there
      · exact within q here
      · exact mentions_of_subsumes general there

theorem closeWithin_ne_unobserved {d : Label} (closed : d.IsClosed f) {fuel : Nat}
    (within : ∀ p, label.mentions p = true → d.mentions p = true) (q : Proposition) :
    closeWithin f fuel label ≠ .error (.unobserved q) := by
  induction fuel generalizing label with
  | zero => nofun
  | succ fuel ih =>
    obtain ⟨observed, within'⟩ := addObserverLabels_within closed within
      fun p mem => within p (mem_propositions.mp mem)
    rw [closeWithin]
    cases round : addObserverLabels f label label.propositions.toList with
    | error e =>
      intro same
      cases same
      exact observed q round
    | ok next =>
      dsimp only
      split
      · nofun
      · exact ih (within' next round)

theorem addObserverLabels_known (observers : ∀ p k, f p = some k → k.hasUnknown = false)
    (known : label.hasUnknown = false) (h : addObserverLabels f label ps = .ok next) :
    next.hasUnknown = false := by
  induction ps generalizing label with
  | nil =>
    cases h
    exact known
  | cons p rest ih =>
    rw [addObserverLabels] at h
    cases observer : f p with
    | none => simp [observer] at h
    | some k =>
      cases both : label.and? k with
      | none => simp [observer, both] at h
      | some l =>
        simp only [observer, both] at h
        exact ih (hasUnknown_and? both known (observers p k observer)) h

theorem closeWithin_known (observers : ∀ p k, f p = some k → k.hasUnknown = false) {fuel : Nat}
    (known : label.hasUnknown = false) (h : closeWithin f fuel label = .ok c) :
    c.hasUnknown = false := by
  induction fuel generalizing label with
  | zero =>
    cases h
    exact known
  | succ fuel ih =>
    rw [closeWithin] at h
    cases round : addObserverLabels f label label.propositions.toList with
    | error e => simp [round] at h
    | ok next =>
      simp only [round] at h
      split at h
      · cases h
        exact known
      · exact ih (addObserverLabels_known observers known round) h

theorem closeLabel_known (observers : ∀ p k, f p = some k → k.hasUnknown = false)
    (known : label.hasUnknown = false) (h : closeLabel f label = .ok c) : c.hasUnknown = false :=
  closeWithin_known observers known h

end TemporalNetwork
