import TemporalNetwork.Proofs.Values.Refinement

/-!
The algebra of labels. The conjunction of two labels is the least label that refines both, and this
alone makes it idempotent, commutative and associative where it is defined. Blending is the same
operation without the condition: a proposition with different states becomes unknown. Unknown literals
count as a state of their own in a conjunction, but they contradict nothing: two labels are consistent
if what they know has a conjunction.
-/

namespace TemporalNetwork.Label

variable {a b : Label} {p : Proposition} {s : LiteralState}

/-- Whether both labels mention `p`, in different states. -/
def DifferAt (a b : Label) (p : Proposition) : Prop :=
  ∃ s t, a.state p = some s ∧ b.state p = some t ∧ s ≠ t

/-- The label without its unknown literals. -/
def known (a : Label) : Label := a.eraseAll a.unknowns

theorem state_known (a : Label) (p : Proposition) :
    a.known.state p = if a.state p = some .unknown then none else a.state p := by
  simp [known]

theorem subsumes_both_iff {a b c : Label} : c.subsumes a = true ∧ c.subsumes b = true ↔
    ∃ d, a.and? b = some d ∧ c.subsumes d = true := by
  constructor
  · intro ⟨first, second⟩
    exact ⟨a.blend b, and?_of_subsumes first second, subsumes_blend first second⟩
  · intro ⟨d, both, refines⟩
    obtain ⟨first, second⟩ := and?_subsumes both
    exact ⟨subsumes_trans refines first, subsumes_trans refines second⟩

theorem isSome_and?_iff : (a.and? b).isSome = true ↔
    ∃ c : Label, c.subsumes a = true ∧ c.subsumes b = true := by
  simp only [subsumes_both_iff, Option.isSome_iff_exists]
  constructor
  · intro ⟨d, both⟩
    exact ⟨d, d, both, subsumes_refl d⟩
  · intro ⟨c, d, both, refines⟩
    exact ⟨d, both⟩

theorem eq_of_same_refinements {x y : Option Label} (same : ∀ c : Label,
    (∃ d, x = some d ∧ c.subsumes d = true) ↔ ∃ d, y = some d ∧ c.subsumes d = true) : x = y := by
  cases x with
  | none =>
    cases y with
    | none => rfl
    | some e =>
      obtain ⟨d, absent, _⟩ := (same e).mpr ⟨e, rfl, subsumes_refl e⟩
      cases absent
  | some d =>
    obtain ⟨e, rfl, refines⟩ := (same d).mp ⟨d, rfl, subsumes_refl d⟩
    obtain ⟨d', here, refines'⟩ := (same e).mpr ⟨e, rfl, subsumes_refl e⟩
    cases here
    exact congrArg some (subsumes_antisymm refines refines')

theorem and?_self (a : Label) : a.and? a = some a :=
  and?_of_refines (subsumes_refl a)

theorem and?_comm (a b : Label) : a.and? b = b.and? a := by
  apply eq_of_same_refinements
  intro c
  rw [← subsumes_both_iff, ← subsumes_both_iff, and_comm]

theorem subsumes_bind_and?_iff {x : Option Label} {c d : Label} :
    (∃ e, (x.bind fun y => y.and? c) = some e ∧ d.subsumes e = true) ↔
      (∃ y, x = some y ∧ d.subsumes y = true) ∧ d.subsumes c = true := by
  cases x with
  | none => simp
  | some y => simp [← subsumes_both_iff]

theorem and?_assoc (a b c : Label) :
    ((a.and? b).bind fun ab => ab.and? c) = (b.and? c).bind fun bc => a.and? bc := by
  have turned : (fun bc => a.and? bc) = fun bc => bc.and? a := funext fun bc => and?_comm a bc
  -- Either side is refined by what refines all three labels.
  apply eq_of_same_refinements
  intro d
  rw [turned, subsumes_bind_and?_iff, subsumes_bind_and?_iff, ← subsumes_both_iff,
    ← subsumes_both_iff]
  constructor
  · intro ⟨⟨first, second⟩, third⟩
    exact ⟨⟨second, third⟩, first⟩
  · intro ⟨⟨second, third⟩, first⟩
    exact ⟨⟨first, second⟩, third⟩

theorem and?_eq_none_iff : a.and? b = none ↔ ∃ p, a.DifferAt b p := by
  simp [and?, differs_iff, DifferAt]

theorem blend_self (a : Label) : a.blend a = a := by
  cases a
  simp [blend]

theorem blend_comm (a b : Label) : a.blend b = b.blend a := by
  rw [blend, blend, BitVec.or_comm, BitVec.or_comm a.negated]

theorem blend_assoc (a b c : Label) : (a.blend b).blend c = a.blend (b.blend c) := by
  simp only [blend, BitVec.or_assoc]

theorem state_blend_of_differAt (differ : a.DifferAt b p) :
    (a.blend b).state p = some .unknown := by
  obtain ⟨s, t, first, second, other⟩ := differ
  rw [state_blend, first, second, blendStates, if_neg other]

theorem state_blend_iff (agree : ¬ a.DifferAt b p) :
    (a.blend b).state p = some s ↔ a.state p = some s ∨ b.state p = some s := by
  rw [state_blend]
  cases first : a.state p with
  | none => simp [blendStates]
  | some t =>
    cases second : b.state p with
    | none => simp [blendStates]
    | some u =>
      have same : t = u := by
        by_contra other
        exact agree ⟨t, u, first, second, other⟩
      simp [blendStates, same]

theorem state_and?_iff {c : Label} (both : a.and? b = some c) :
    c.state p = some s ↔ a.state p = some s ∨ b.state p = some s := by
  obtain ⟨agree, rfl⟩ := and?_eq_some_iff.mp both
  exact state_blend_iff fun ⟨t, u, first, second, other⟩ => other (agree p t u first second)

theorem and?_ofLiteral_eq_none_iff :
    a.and? (ofLiteral ⟨p, s⟩) = none ↔ ∃ t, a.state p = some t ∧ t ≠ s := by
  rw [and?_eq_none_iff]
  simp only [DifferAt, state_ofLiteral]
  constructor
  · rintro ⟨q, t, u, here, there, other⟩
    split at there
    · rename_i same
      cases same
      cases there
      exact ⟨t, here, other⟩
    · cases there
  · rintro ⟨t, here, other⟩
    exact ⟨p, t, s, here, if_pos rfl, other⟩

theorem differAt_known_iff : a.known.DifferAt b.known p ↔
    a.state p = some .straight ∧ b.state p = some .negated ∨
      a.state p = some .negated ∧ b.state p = some .straight := by
  simp only [DifferAt, state_known]
  cases a.state p with
  | none => simp
  | some s =>
    cases b.state p with
    | none => simp
    | some t => cases s <;> cases t <;> simp

theorem consistent_iff_known : a.consistent b = true ↔ (a.known.and? b.known).isSome = true := by
  rw [consistent_iff, ← Option.ne_none_iff_isSome, Ne, and?_eq_none_iff]
  simp only [differAt_known_iff, not_exists, not_or]

/-- Subsumption is an order, in which the conjunction of two labels is their least common refinement;
a blend is the conjunction if there is one, and otherwise makes unknown what has different states;
labels are consistent if they have a conjunction without their unknown literals. -/
theorem label_algebra (a b c : Label) :
    (a.subsumes a = true ∧ (a.subsumes b = true ∧ b.subsumes a = true → a = b) ∧
      (a.subsumes b = true ∧ b.subsumes c = true → a.subsumes c = true)) ∧
    (((a.and? b).isSome = true ↔ ∃ d : Label, d.subsumes a = true ∧ d.subsumes b = true) ∧
      (c.subsumes a = true ∧ c.subsumes b = true ↔
        ∃ d, a.and? b = some d ∧ c.subsumes d = true)) ∧
    (a.and? a = some a ∧ a.and? b = b.and? a ∧
      ((a.and? b).bind fun ab => ab.and? c) = (b.and? c).bind fun bc => a.and? bc) ∧
    (a.blend a = a ∧ a.blend b = b.blend a ∧ (a.blend b).blend c = a.blend (b.blend c)) ∧
    (∀ d, a.and? b = some d → a.blend b = d) ∧
    (a.and? b = none → (∃ p, a.DifferAt b p) ∧
      ∀ p, (a.DifferAt b p → (a.blend b).state p = some .unknown) ∧
        (¬ a.DifferAt b p →
          ∀ s, (a.blend b).state p = some s ↔ a.state p = some s ∨ b.state p = some s)) ∧
    (a.consistent b = true ↔ (a.known.and? b.known).isSome = true) := by
  have order : a.subsumes a = true ∧ (a.subsumes b = true ∧ b.subsumes a = true → a = b) ∧
      (a.subsumes b = true ∧ b.subsumes c = true → a.subsumes c = true) :=
    ⟨subsumes_refl a, fun h => subsumes_antisymm h.1 h.2, fun h => subsumes_trans h.1 h.2⟩
  have defined : ∀ d, a.and? b = some d → a.blend b = d := by
    intro d both
    exact (and?_eq_some_iff.mp both).2.symm
  have undefined : a.and? b = none → (∃ p, a.DifferAt b p) ∧
      ∀ p, (a.DifferAt b p → (a.blend b).state p = some .unknown) ∧
        (¬ a.DifferAt b p →
          ∀ s, (a.blend b).state p = some s ↔ a.state p = some s ∨ b.state p = some s) := by
    intro apart
    exact ⟨and?_eq_none_iff.mp apart, fun p => ⟨state_blend_of_differAt, fun agree _ =>
      state_blend_iff agree⟩⟩
  exact ⟨order, ⟨isSome_and?_iff, subsumes_both_iff⟩, ⟨and?_self a, and?_comm a b, and?_assoc a b c⟩,
    ⟨blend_self a, blend_comm a b, blend_assoc a b c⟩, defined, undefined, consistent_iff_known⟩

/-- A straight literal contradicts no unknown one, yet they have no conjunction. -/
theorem label_algebra_unknown :
    let a : Label := (ofLiteral ⟨0, .straight⟩).blend (ofLiteral ⟨1, .unknown⟩)
    let b : Label := (ofLiteral ⟨1, .straight⟩).blend (ofLiteral ⟨2, .negated⟩)
    a.and? b = none ∧ (a.blend b).state 1 = some .unknown ∧ (a.blend b).state 2 = some .negated ∧
      a.consistent b = true := by
  intro a b
  obtain ⟨_, _, _, _, _, undefined, consistent⟩ := label_algebra a b a
  have apart : a.and? b = none := by decide
  have states := (undefined apart).2
  have absent : a.state 2 = none := by decide
  have agree : ¬ a.DifferAt b 2 := by
    intro ⟨s, _, here, _⟩
    rw [absent] at here
    cases here
  exact ⟨apart, (states 1).1 ⟨.unknown, .straight, by decide⟩,
    ((states 2).2 agree .negated).mpr (Or.inr (by decide)), consistent.mpr (by decide)⟩

end TemporalNetwork.Label
