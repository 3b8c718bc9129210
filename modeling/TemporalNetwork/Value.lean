/-!
Edge values. A value bounds the distance between two time-points; it is an integer between two
sentinels, which stand for `+∞` (no constraint) and `−∞` (a constraint nothing satisfies).
-/

namespace TemporalNetwork

/-- The bound of a difference constraint. -/
abbrev Value := Int

namespace Value

/-- The value of an absent constraint. -/
def posInf : Value := 2147483647

/-- The value of a constraint which can never be satisfied. -/
def negInf : Value := -2147483648

/-- The finite values lie strictly between the sentinels. -/
def IsFinite (v : Value) : Prop := negInf < v ∧ v < posInf

instance (v : Value) : Decidable (IsFinite v) := inferInstanceAs (Decidable (_ ∧ _))

/-- A value is representable if it is finite or one of the sentinels. -/
def InRange (v : Value) : Prop := negInf ≤ v ∧ v ≤ posInf

instance (v : Value) : Decidable (InRange v) := inferInstanceAs (Decidable (_ ∧ _))

/-- The sum of two values. An infinite operand absorbs a finite one; opposite infinities and finite
sums outside the finite values have no sum. -/
def sum? (a b : Value) : Option Value :=
  if a = posInf ∧ b = negInf ∨ a = negInf ∧ b = posInf then none
  else if a = posInf ∨ b = posInf then some posInf
  else if a = negInf ∨ b = negInf then some negInf
  else if IsFinite (a + b) then some (a + b)
  else none

/-- The negation, which `−∞` does not have. -/
def neg? (v : Value) : Option Value := if v = negInf then none else some (-v)

/-- The sum of two values is `+∞` or `−∞` only if one of them is. -/
theorem sum?_cases {a b c : Value} (h : sum? a b = some c) :
    (a = posInf ∨ b = posInf) ∧ c = posInf ∨
      (a = negInf ∨ b = negInf) ∧ a ≠ posInf ∧ b ≠ posInf ∧ c = negInf ∨
      c = a + b ∧ IsFinite c ∧ a ≠ posInf ∧ b ≠ posInf ∧ a ≠ negInf ∧ b ≠ negInf := by
  unfold sum? at h
  split at h
  · cases h
  · rename_i compatible
    split at h
    · rename_i infinite
      cases h
      exact Or.inl ⟨infinite, rfl⟩
    · rename_i bounded
      rw [not_or] at bounded
      split at h
      · rename_i infinite
        cases h
        exact Or.inr (Or.inl ⟨infinite, bounded.1, bounded.2, rfl⟩)
      · rename_i finite
        rw [not_or] at finite
        split at h
        · rename_i inside
          cases h
          exact Or.inr (Or.inr ⟨rfl, inside, bounded.1, bounded.2, finite.1, finite.2⟩)
        · cases h

def text (v : Value) : String :=
  if v = posInf then "∞" else if v = negInf then "-∞" else toString v

end Value

end TemporalNetwork
