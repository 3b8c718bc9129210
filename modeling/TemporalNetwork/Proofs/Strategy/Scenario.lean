import TemporalNetwork.Proofs.Label.Algebra

/-!
Scenarios and the labels that hold in them. An unknown literal asks nothing of a scenario.
-/

namespace TemporalNetwork

/-- A truth value for each proposition. -/
abbrev Scenario := Proposition → Bool

/-- The truth value that a literal asks for. -/
def LiteralState.truth? : LiteralState → Option Bool
  | straight => some true
  | negated => some false
  | unknown => none

namespace Label

def demand? (a : Label) (p : Proposition) : Option Bool := (a.state p).bind LiteralState.truth?

/-- Whether the known literals of the label hold in the scenario. -/
def HoldsIn (a : Label) (s : Scenario) : Prop := ∀ p b, a.demand? p = some b → s p = b

end Label

/-- The scenario that agrees with the label and otherwise with `s`. -/
def Scenario.adapt (s : Scenario) (a : Label) : Scenario := fun p => (a.demand? p).getD (s p)

namespace Label

variable {a b c : Label} {s : Scenario} {p q : Proposition} {x y : Bool}

theorem holdsIn_adapt (a : Label) (s : Scenario) : a.HoldsIn (s.adapt a) := by
  intro p x asked
  rw [Scenario.adapt, asked, Option.getD_some]

theorem demand?_of_adapt_ne (changed : s.adapt a p ≠ s p) : ∃ x, a.demand? p = some x ∧ s p ≠ x := by
  cases asked : a.demand? p with
  | none =>
    rw [Scenario.adapt, asked, Option.getD_none] at changed
    exact absurd rfl changed
  | some x =>
    rw [Scenario.adapt, asked, Option.getD_some] at changed
    exact ⟨x, rfl, Ne.symm changed⟩

theorem demand?_erase (a : Label) (q p : Proposition) :
    (a.erase q).demand? p = if q = p then none else a.demand? p := by
  rw [demand?, state_erase]
  split
  · rfl
  · rfl

/-- A proposition that a label asks for is asked for by its blends, or unknown to them. -/
theorem demand?_blend_left (asked : a.demand? p = some x) (b : Label) :
    (a.blend b).demand? p = some x ∨ (a.blend b).state p = some .unknown := by
  obtain ⟨t, stated, truth⟩ := Option.bind_eq_some_iff.mp asked
  cases other : b.state p with
  | none =>
    left
    rw [demand?, state_blend, stated, other]
    exact truth
  | some u =>
    by_cases same : t = u
    · left
      rw [demand?, state_blend, stated, other, blendStates, if_pos same]
      exact truth
    · right
      rw [state_blend, stated, other, blendStates, if_neg same]

theorem demand?_blend_right (asked : b.demand? p = some x) (a : Label) :
    (a.blend b).demand? p = some x ∨ (a.blend b).state p = some .unknown := by
  rw [blend_comm]
  exact demand?_blend_left asked a

theorem unknown_blend_left (unknown : a.state p = some .unknown) (b : Label) :
    (a.blend b).state p = some .unknown := by
  rw [state_blend, unknown]
  cases other : b.state p with
  | none => rfl
  | some u =>
    rw [blendStates]
    split <;> rfl

theorem unknown_blend_right (unknown : b.state p = some .unknown) (a : Label) :
    (a.blend b).state p = some .unknown := by
  rw [blend_comm]
  exact unknown_blend_left unknown a

theorem HoldsIn.of_blend (holds : (a.blend b).HoldsIn s) (known : (a.blend b).hasUnknown = false) :
    a.HoldsIn s ∧ b.HoldsIn s := by
  constructor
  · intro p x asked
    exact holds p x ((demand?_blend_left asked b).resolve_right (state_ne_unknown known p))
  · intro p x asked
    exact holds p x ((demand?_blend_right asked a).resolve_right (state_ne_unknown known p))

end Label

end TemporalNetwork
