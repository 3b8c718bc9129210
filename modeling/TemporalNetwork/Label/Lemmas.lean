import TemporalNetwork.Label.Basic

/-!
What the operations on labels do to the states of propositions. Once an operation has its equation
here, nobody needs to look at the bits again. Main statements: `subsumes_iff`, `and?_eq_some_iff`
and `consistent_iff` say in terms of states when one label refines another, when two labels have a
conjunction, and when some scenario satisfies both.
-/

namespace TemporalNetwork

theorem bits_eq_zero_iff {x : BitVec 32} : x = 0 ↔ ∀ p : Proposition, x.getLsbD p.val = false := by
  constructor
  · intro zero p
    subst zero
    simp
  · intro clear
    apply BitVec.eq_of_getLsbD_eq
    intro i hi
    simpa using clear ⟨i, hi⟩

theorem bits_eq_iff {x y : BitVec 32} :
    x = y ↔ ∀ p : Proposition, x.getLsbD p.val = y.getLsbD p.val := by
  constructor
  · intro same p
    rw [same]
  · intro bits
    exact BitVec.eq_of_getLsbD_eq fun i hi => bits ⟨i, hi⟩

namespace PropositionSet

theorem isEmpty_iff {s : PropositionSet} : s.isEmpty = true ↔ ∀ p, s.contains p = false := by
  simp only [isEmpty, beq_iff_eq, contains]
  exact bits_eq_zero_iff

@[simp] theorem mem_toList {s : PropositionSet} {p : Proposition} :
    p ∈ s.toList ↔ s.contains p = true := by
  simp [toList, Proposition.all]

end PropositionSet

namespace Label

/-- The state of a proposition with given states in two labels, in their blend. -/
def blendStates : Option LiteralState → Option LiteralState → Option LiteralState
  | none, s => s
  | some s, none => some s
  | some s, some t => if s = t then some s else some .unknown

theorem stateOfBits_masked (s n masked : Bool) :
    stateOfBits (s && !masked) (n && !masked) =
      if masked = true then none else stateOfBits s n := by
  cases s <;> cases n <;> cases masked <;> rfl

theorem and_eq_stateOfBits_unknown (s n : Bool) :
    (s && n) = decide (stateOfBits s n = some .unknown) := by
  cases s <;> cases n <;> rfl

@[simp] theorem state_blend (a b : Label) (p : Proposition) :
    (a.blend b).state p = blendStates (a.state p) (b.state p) := by
  simp only [state, blend, BitVec.getLsbD_or]
  cases a.straight.getLsbD p.val <;> cases a.negated.getLsbD p.val <;>
    cases b.straight.getLsbD p.val <;> cases b.negated.getLsbD p.val <;> rfl

@[simp] theorem state_eraseAll (a : Label) (ps : PropositionSet) (p : Proposition) :
    (a.eraseAll ps).state p = if ps.contains p then none else a.state p := by
  have within := p.isLt
  simp only [state, eraseAll, PropositionSet.contains, BitVec.getLsbD_and, BitVec.getLsbD_not,
    within, decide_true, Bool.true_and]
  exact stateOfBits_masked _ _ _

@[simp] theorem state_erase (a : Label) (q p : Proposition) :
    (a.erase q).state p = if q = p then none else a.state p := by
  simp [erase]

theorem eraseAll_empty (a : Label) : a.eraseAll .empty = a := by
  apply ext_state
  intro p
  simp

@[simp] theorem state_ofLiteral (l : Literal) (p : Proposition) :
    (ofLiteral l).state p = if l.proposition = p then some l.state else none := by
  obtain ⟨q, s⟩ := l
  by_cases same : q = p
  · cases s <;> simp [ofLiteral, state, stateOfBits, same]
  · have apart : ¬ p.val = q.val := fun h => same (Fin.ext h.symm)
    cases s <;> simp [ofLiteral, state, stateOfBits, same, apart]

theorem state_replace (a : Label) (l : Literal) (p : Proposition) :
    (a.replace l).state p = if l.proposition = p then some l.state else a.state p := by
  rw [replace, state_blend, state_erase, state_ofLiteral]
  by_cases same : l.proposition = p
  · simp [same, blendStates]
  · simp only [same, if_false]
    cases a.state p <;> rfl

@[simp] theorem contains_propositions (a : Label) (p : Proposition) :
    a.propositions.contains p = (a.state p).isSome :=
  a.mentions_eq p

@[simp] theorem contains_unknowns (a : Label) (p : Proposition) :
    a.unknowns.contains p = decide (a.state p = some .unknown) := by
  simp only [unknowns, PropositionSet.contains, state, BitVec.getLsbD_and]
  exact and_eq_stateOfBits_unknown _ _

theorem isEmpty_iff {a : Label} : a.isEmpty = true ↔ a = empty := by
  rw [isEmpty, PropositionSet.isEmpty_iff]
  constructor
  · intro none_mentioned
    apply ext_state
    intro p
    have := none_mentioned p
    simp_all
  · intro same p
    simp [same]

theorem hasUnknown_iff {a : Label} :
    a.hasUnknown = true ↔ ∃ p, a.state p = some .unknown := by
  have key := @PropositionSet.isEmpty_iff a.unknowns
  cases h : a.unknowns.isEmpty with
  | true =>
    have := key.mp h
    simp_all [hasUnknown]
  | false =>
    simp only [hasUnknown, h, Bool.not_false, true_iff]
    apply Classical.byContradiction
    intro nowhere
    have : a.unknowns.isEmpty = true := by
      refine key.mpr fun p => ?_
      simp only [contains_unknowns, decide_eq_false_iff_not]
      exact fun hp => nowhere ⟨p, hp⟩
    rw [h] at this
    cases this

@[simp] theorem mem_literals {a : Label} {l : Literal} :
    l ∈ a.literals ↔ a.state l.proposition = some l.state := by
  obtain ⟨q, s⟩ := l
  simp only [literals, List.mem_filterMap, Option.map_eq_some_iff]
  constructor
  · rintro ⟨p, _, t, stated, same⟩
    cases same
    exact stated
  · intro stated
    exact ⟨q, List.mem_finRange q, s, stated, rfl⟩

theorem contains_iff {a : Label} {l : Literal} :
    a.contains l = true ↔ a.state l.proposition = some l.state := by
  simp [contains]

theorem subsumes_iff {a b : Label} :
    a.subsumes b = true ↔ ∀ p s, b.state p = some s → a.state p = some s := by
  have bitwise : a.subsumes b = true ↔
      ∀ p : Proposition, b.state p = none ∨ a.state p = b.state p := by
    simp only [subsumes, propositions, Bool.and_eq_true, beq_iff_eq, bits_eq_iff, ← forall_and]
    refine forall_congr' fun p => ?_
    simp only [state, BitVec.getLsbD_and, BitVec.getLsbD_or]
    cases a.straight.getLsbD p.val <;> cases a.negated.getLsbD p.val <;>
      cases b.straight.getLsbD p.val <;> cases b.negated.getLsbD p.val <;> decide
  rw [bitwise]
  constructor
  · intro refines p s stated
    rcases refines p with absent | same
    · rw [absent] at stated
      cases stated
    · exact same.trans stated
  · intro refines p
    cases h : b.state p with
    | none => exact Or.inl rfl
    | some s => exact Or.inr (refines p s h)

theorem differs_iff {a b : Label} :
    a.differs b = true ↔ ∃ p s t, a.state p = some s ∧ b.state p = some t ∧ s ≠ t := by
  have bitwise : a.differs b = false ↔
      ∀ p : Proposition, a.state p = none ∨ b.state p = none ∨ a.state p = b.state p := by
    simp only [differs, propositions, bne_eq_false_iff_eq, bits_eq_zero_iff]
    refine forall_congr' fun p => ?_
    simp only [state, BitVec.getLsbD_and, BitVec.getLsbD_or, BitVec.getLsbD_xor]
    cases a.straight.getLsbD p.val <;> cases a.negated.getLsbD p.val <;>
      cases b.straight.getLsbD p.val <;> cases b.negated.getLsbD p.val <;> decide
  rw [← Bool.not_eq_false, bitwise]
  constructor
  · intro disagree
    apply Classical.byContradiction
    intro nowhere
    refine disagree fun p => ?_
    cases ha : a.state p with
    | none => exact Or.inl rfl
    | some s =>
      cases hb : b.state p with
      | none => exact Or.inr (Or.inl rfl)
      | some t =>
        refine Or.inr (Or.inr (congrArg some ?_))
        exact Classical.byContradiction fun ne => nowhere ⟨p, s, t, ha, hb, ne⟩
  · rintro ⟨p, s, t, ha, hb, ne⟩ agree
    have := agree p
    simp_all

theorem and?_eq_some_iff {a b c : Label} :
    a.and? b = some c ↔
      (∀ p s t, a.state p = some s → b.state p = some t → s = t) ∧ c = a.blend b := by
  have agree : a.differs b = false ↔ ∀ p s t, a.state p = some s → b.state p = some t → s = t := by
    rw [← Bool.not_eq_true, differs_iff]
    constructor
    · intro nowhere p s t ha hb
      exact Classical.byContradiction fun ne => nowhere ⟨p, s, t, ha, hb, ne⟩
    · rintro same ⟨p, s, t, ha, hb, ne⟩
      exact ne (same p s t ha hb)
  rw [← agree]
  cases h : a.differs b
  · simp [and?, h, eq_comm]
  · simp [and?, h]

theorem consistent_iff {a b : Label} :
    a.consistent b = true ↔
      ∀ p, ¬ (a.state p = some .straight ∧ b.state p = some .negated) ∧
        ¬ (a.state p = some .negated ∧ b.state p = some .straight) := by
  simp only [consistent, beq_iff_eq, bits_eq_zero_iff]
  refine forall_congr' fun p => ?_
  have within := p.isLt
  simp only [state, BitVec.getLsbD_and, BitVec.getLsbD_or, BitVec.getLsbD_not, within, decide_true,
    Bool.true_and]
  cases a.straight.getLsbD p.val <;> cases a.negated.getLsbD p.val <;>
    cases b.straight.getLsbD p.val <;> cases b.negated.getLsbD p.val <;> decide

end Label

end TemporalNetwork
