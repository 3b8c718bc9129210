import Mathlib.Data.List.Basic
import Mathlib.Order.Lattice
import Mathlib.Tactic.ByContra
import TemporalNetwork.Label.CaseLabel
import TemporalNetwork.Label.Lemmas

/-!
Refinement of labels. A label refines another one if it has all of its literals; this is an order, in
which the conjunction of two labels is their least common refinement. Case labels are ordered by
inclusion.
-/

namespace TemporalNetwork

namespace Label

theorem subsumes_refl (a : Label) : a.subsumes a = true :=
  subsumes_iff.mpr fun _ _ => id

theorem subsumes_trans {a b c : Label} (hab : a.subsumes b = true) (hbc : b.subsumes c = true) :
    a.subsumes c = true := by
  rw [subsumes_iff] at *
  exact fun p s stated => hab p s (hbc p s stated)

theorem subsumes_antisymm {a b : Label} (hab : a.subsumes b = true) (hba : b.subsumes a = true) :
    a = b := by
  rw [subsumes_iff] at *
  refine ext_state fun p => ?_
  cases here : a.state p with
  | some s => exact (hba p s here).symm
  | none =>
    cases there : b.state p with
    | none => rfl
    | some s =>
      have := hab p s there
      rw [here] at this
      cases this

theorem size_lt_of_subsumes {a b : Label} (refines : b.subsumes a = true) (other : a ≠ b) :
    a.size < b.size := by
  have more : ∀ p, a.propositions.contains p = true → b.propositions.contains p = true := by
    intro p inside
    rw [contains_propositions, Option.isSome_iff_exists] at inside ⊢
    obtain ⟨s, stated⟩ := inside
    exact ⟨s, subsumes_iff.mp refines p s stated⟩
  have fewer : (Proposition.all.filter a.propositions.contains).Sublist
      (Proposition.all.filter b.propositions.contains) := List.monotone_filter_right _ more
  simp only [size, PropositionSet.size, List.countP_eq_length_filter]
  refine lt_of_le_of_ne fewer.length_le fun same => other ?_
  refine subsumes_antisymm (subsumes_iff.mpr fun p s stated => ?_) refines
  have listed : p ∈ Proposition.all.filter b.propositions.contains := by
    simp [Proposition.all, stated]
  rw [← fewer.eq_of_length same, List.mem_filter, contains_propositions,
    Option.isSome_iff_exists] at listed
  obtain ⟨_, t, here⟩ := listed
  have := subsumes_iff.mp refines p t here
  rw [stated] at this
  rwa [Option.some.inj this]

theorem subsumes_empty (a : Label) : a.subsumes empty = true :=
  subsumes_iff.mpr fun p s stated => by simp at stated

theorem and?_empty (a : Label) : a.and? empty = some a := by
  refine and?_eq_some_iff.mpr ⟨fun p s t _ stated => ?_, ?_⟩
  · simp at stated
  · cases a
    simp [blend, empty]

theorem and?_of_subsumes {s a b : Label} (ha : s.subsumes a = true) (hb : s.subsumes b = true) :
    a.and? b = some (a.blend b) := by
  rw [and?_eq_some_iff]
  refine ⟨fun p t u ht hu => ?_, rfl⟩
  have first := subsumes_iff.mp ha p t ht
  rw [subsumes_iff.mp hb p u hu] at first
  exact (Option.some.inj first).symm

theorem subsumes_blend {s a b : Label} (ha : s.subsumes a = true) (hb : s.subsumes b = true) :
    s.subsumes (a.blend b) = true := by
  rw [subsumes_iff] at *
  intro p t stated
  rw [state_blend] at stated
  cases h : a.state p with
  | none =>
    rw [h] at stated
    exact hb p t stated
  | some u =>
    cases k : b.state p with
    | none =>
      rw [h, k] at stated
      exact ha p t (h.trans stated)
    | some v =>
      have same : u = v := by
        have first := ha p u h
        rw [hb p v k] at first
        exact (Option.some.inj first).symm
      subst same
      rw [h, k] at stated
      simp only [blendStates, if_true] at stated
      exact ha p t (h.trans stated)

theorem and?_subsumes {a b c : Label} (h : a.and? b = some c) :
    c.subsumes a = true ∧ c.subsumes b = true := by
  obtain ⟨agree, rfl⟩ := and?_eq_some_iff.mp h
  constructor
  · refine subsumes_iff.mpr fun p s here => ?_
    rw [state_blend, here]
    cases there : b.state p with
    | none => rfl
    | some t => simp [blendStates, agree p s t here there]
  · refine subsumes_iff.mpr fun p t there => ?_
    rw [state_blend, there]
    cases here : a.state p with
    | none => rfl
    | some s => simp [blendStates, agree p s t here there]

theorem subsumes_and? {a b c d : Label} (h : a.and? b = some c) (ha : d.subsumes a = true)
    (hb : d.subsumes b = true) : d.subsumes c = true := by
  obtain ⟨_, rfl⟩ := and?_eq_some_iff.mp h
  exact subsumes_blend ha hb

theorem and?_of_refines {a b : Label} (refines : a.subsumes b = true) : a.and? b = some a := by
  have both := and?_of_subsumes (subsumes_refl a) refines
  have same : a.blend b = a := subsumes_antisymm (and?_subsumes both).1
    (subsumes_and? both (subsumes_refl a) refines)
  rw [both, same]

theorem erase_empty (p : Proposition) : empty.erase p = empty := by
  refine ext_state fun q => ?_
  rw [state_erase, state_empty]
  split <;> rfl

theorem subsumes_erase (a : Label) (p : Proposition) : a.subsumes (a.erase p) = true := by
  refine subsumes_iff.mpr fun q s stated => ?_
  rw [state_erase] at stated
  split at stated
  · cases stated
  · exact stated

theorem subsumes_eraseAll (a : Label) (ps : PropositionSet) :
    a.subsumes (a.eraseAll ps) = true := by
  refine subsumes_iff.mpr fun q s stated => ?_
  rw [state_eraseAll] at stated
  split at stated
  · cases stated
  · exact stated

theorem replace_subsumes_erase (a : Label) (l : Literal) :
    (a.replace l).subsumes (a.erase l.proposition) = true := by
  refine subsumes_iff.mpr fun q s stated => ?_
  rw [state_erase] at stated
  rw [state_replace]
  split at stated
  · cases stated
  · rename_i other
    rw [if_neg other]
    exact stated

/-- A label is not subsumed by one that does not mention all of its propositions. -/
theorem not_subsumes_of_absent {a b : Label} {p : Proposition} (absent : a.state p = none)
    (present : b.state p ≠ none) : ¬ a.subsumes b = true := by
  intro refines
  obtain ⟨s, stated⟩ := Option.ne_none_iff_exists'.mp present
  have := subsumes_iff.mp refines p s stated
  rw [absent] at this
  cases this

theorem state_ne_unknown {a : Label} (known : a.hasUnknown = false) (p : Proposition) :
    a.state p ≠ some .unknown := by
  intro unknown
  rw [hasUnknown_iff.mpr ⟨p, unknown⟩] at known
  cases known

theorem hasUnknown_and? {a b c : Label} (agree : a.and? b = some c) (ha : a.hasUnknown = false)
    (hb : b.hasUnknown = false) : c.hasUnknown = false := by
  obtain ⟨same, rfl⟩ := and?_eq_some_iff.mp agree
  rw [← Bool.not_eq_true, hasUnknown_iff]
  rintro ⟨p, unknown⟩
  rw [state_blend] at unknown
  cases left : a.state p with
  | none =>
    rw [left] at unknown
    exact state_ne_unknown hb p unknown
  | some t =>
    cases right : b.state p with
    | none =>
      rw [left, right] at unknown
      exact state_ne_unknown ha p (left.trans unknown)
    | some u =>
      rw [left, right, blendStates, if_pos (same p t u left right)] at unknown
      exact state_ne_unknown ha p (left.trans unknown)

theorem hasUnknown_eraseAll {a : Label} (known : a.hasUnknown = false) (ps : PropositionSet) :
    (a.eraseAll ps).hasUnknown = false := by
  rw [← Bool.not_eq_true, hasUnknown_iff]
  rintro ⟨p, unknown⟩
  rw [state_eraseAll] at unknown
  split at unknown
  · cases unknown
  · exact state_ne_unknown known p unknown

theorem hasUnknown_erase {a : Label} (known : a.hasUnknown = false) (q : Proposition) :
    (a.erase q).hasUnknown = false :=
  hasUnknown_eraseAll known (.singleton q)

end Label

namespace CaseLabel

theorem subset_refl (a : CaseLabel) : a.subset a = true :=
  subset_iff.mpr fun _ => id

theorem subset_trans {a b c : CaseLabel} (hab : a.subset b = true) (hbc : b.subset c = true) :
    a.subset c = true := by
  rw [subset_iff] at *
  exact fun l inside => hbc l (hab l inside)

theorem empty_subset (a : CaseLabel) : empty.subset a = true :=
  subset_iff.mpr fun l inside => by simp at inside

theorem eq_empty_of_subset {a : CaseLabel} (within : a.subset .empty = true) : a = .empty := by
  refine ext_contains fun c => ?_
  rw [contains_empty]
  by_contra inside
  rw [Bool.not_eq_false] at inside
  have := subset_iff.mp within c inside
  rw [contains_empty] at this
  cases this

theorem isEmpty_of_subset {a b : CaseLabel} (within : a.subset b = true)
    (none : b.isEmpty = true) : a.isEmpty = true := by
  rw [isEmpty_iff] at none ⊢
  exact eq_empty_of_subset (none ▸ within)

theorem union_subset_union {a b c d : CaseLabel} (hac : a.subset c = true)
    (hbd : b.subset d = true) : (a ∪ b).subset (c ∪ d) = true := by
  rw [subset_iff] at *
  intro l inside
  rw [contains_union, Bool.or_eq_true] at inside ⊢
  exact inside.imp (hac l) (hbd l)

theorem intersects_mono {a b c d : CaseLabel} (hac : a.subset c = true) (hbd : b.subset d = true)
    (meet : a.intersects b = true) : c.intersects d = true := by
  obtain ⟨l, first, second⟩ := intersects_iff.mp meet
  exact intersects_iff.mpr ⟨l, subset_iff.mp hac l first, subset_iff.mp hbd l second⟩

end CaseLabel

end TemporalNetwork
