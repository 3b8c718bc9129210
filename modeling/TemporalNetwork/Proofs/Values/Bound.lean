import TemporalNetwork.Proofs.Values.EveryValue
import TemporalNetwork.Proofs.Values.Reduced

/-!
What an edge means. In a scenario, and for the contingent durations of a set of letters, the values
that apply bound the distance by the least of them. A merge may drop any number of entries and bring
more general ones, but all it does to these bounds is to take the minimum with the merged value, so
values can be merged in any order.
-/

namespace TemporalNetwork

/-- A scenario over all propositions. -/
def Label.IsComplete (s : Label) : Prop :=
  ∀ p, s.state p = some .straight ∨ s.state p = some .negated

/-- The scenario in which every proposition holds. -/
def Label.allStraight : Label := ⟨BitVec.allOnes 32, 0⟩

theorem Label.isComplete_allStraight : Label.allStraight.IsComplete := by
  unfold IsComplete
  decide

/-- A complete scenario that satisfies the common part of two twins satisfies one of them. -/
theorem Label.IsComplete.subsumes_twin {s a : Label} (complete : s.IsComplete) {l : Literal}
    (mem : l ∈ ValueMap.flippable a) (common : s.subsumes (a.erase l.proposition) = true) :
    s.subsumes a = true ∨ s.subsumes (a.replace l.complement) = true := by
  obtain ⟨stated, known⟩ := mem_flippable.mp mem
  have elsewhere : ∀ p t, l.proposition ≠ p → a.state p = some t → s.state p = some t := by
    intro p t other here
    refine subsumes_iff.mp common p t ?_
    rwa [state_erase, if_neg other]
  have split : s.state l.proposition = some l.state ∨
      s.state l.proposition = some l.complement.state := by
    obtain ⟨p, t⟩ := l
    have here := complete p
    cases t with
    | straight => exact here
    | negated => exact here.symm
    | unknown => exact absurd rfl known
  rcases split with same | flipped
  · refine Or.inl (subsumes_iff.mpr fun p t here => ?_)
    by_cases at_l : l.proposition = p
    · subst at_l
      rwa [← here, stated]
    · exact elsewhere p t at_l here
  · refine Or.inr (subsumes_iff.mpr fun p t here => ?_)
    rw [state_replace] at here
    split at here
    · rename_i at_l
      rw [← here, ← at_l]
      exact flipped
    · rename_i other
      exact elsewhere p t other here

namespace LabeledEdge

/-- The least of the values that hold in the scenario `s` and depend only on letters of `K`. -/
def bound (e : LabeledEdge) (s : Label) (K : CaseLabel) : Value :=
  ((e.allValues.filter fun x => x.1.subset K && s.subsumes x.2.1).map fun x => x.2.2).foldr min
    Value.posInf

/-- The edge after merges, from the first to the last. -/
def mergeAll (e : LabeledEdge) (vs : List (CaseLabel × Label × Value)) : LabeledEdge :=
  vs.foldl (fun e x => (e.merge x.1 x.2.1 x.2.2).1) e

variable {e : LabeledEdge} {s l : Label} {K c : CaseLabel} {v w : Value}

theorem le_foldr_min_iff {b top : Value} {vs : List Value} :
    b ≤ vs.foldr min top ↔ b ≤ top ∧ ∀ v ∈ vs, b ≤ v := by
  induction vs with
  | nil => simp
  | cons v vs ih =>
    rw [List.foldr_cons, le_min_iff, ih, List.forall_mem_cons]
    tauto

theorem le_bound_iff {b : Value} : b ≤ e.bound s K ↔
    b ≤ Value.posInf ∧
      e.EveryValue fun c l w => c.subset K = true → s.subsumes l = true → b ≤ w := by
  rw [bound, le_foldr_min_iff]
  refine and_congr_right fun _ => ⟨fun every c l w mem letters holds => ?_, fun every v mem => ?_⟩
  · refine every w (List.mem_map.mpr ⟨(c, l, w), List.mem_filter.mpr ⟨mem, ?_⟩, rfl⟩)
    simp [letters, holds]
  · obtain ⟨⟨c, l, w⟩, applies, rfl⟩ := List.mem_map.mp mem
    obtain ⟨mem, applies⟩ := List.mem_filter.mp applies
    rw [Bool.and_eq_true] at applies
    exact every c l w mem applies.1 applies.2

theorem bound_le_posInf (e : LabeledEdge) (s : Label) (K : CaseLabel) :
    e.bound s K ≤ Value.posInf :=
  (le_bound_iff.mp le_rfl).1

theorem bound_le_of_mem (mem : (c, l, w) ∈ e.allValues) (letters : c.subset K = true)
    (holds : s.subsumes l = true) : e.bound s K ≤ w :=
  (le_bound_iff.mp le_rfl).2 c l w mem letters holds

theorem bound_le_of_values (h : e.values.dominates l v = true) (holds : s.subsumes l = true) :
    e.bound s K ≤ v := by
  obtain ⟨x, stored, general, le⟩ := ValueMap.dominates_iff.mp h
  have mem : (CaseLabel.empty, x.1, x.2) ∈ e.allValues := mem_allValues.mpr (Or.inl ⟨rfl, stored⟩)
  have within := Label.subsumes_trans holds general
  exact le_trans (bound_le_of_mem mem (CaseLabel.empty_subset K) within) le

theorem bound_le_of_upper (h : e.upper.dominates c l v = true) (letters : c.subset K = true)
    (holds : s.subsumes l = true) : e.bound s K ≤ v := by
  obtain ⟨g, group, fewer, h⟩ := UpperCaseMap.dominates_iff.mp h
  obtain ⟨x, stored, general, le⟩ := ValueMap.dominates_iff.mp h
  have mem : (g.1, x.1, x.2) ∈ e.allValues := mem_allValues.mpr (Or.inr ⟨g.2, group, stored⟩)
  exact le_trans (bound_le_of_mem mem (CaseLabel.subset_trans fewer letters)
    (Label.subsumes_trans holds general)) le

/-- No bound is lost: what a dropped entry said is said by a more general one. -/
theorem bound_merge_le (e : LabeledEdge) (case : CaseLabel) (label : Label) (value : Value) :
    (e.merge case label value).1.bound s K ≤ e.bound s K := by
  refine le_bound_iff.mpr ⟨bound_le_posInf _ s K, fun c l w mem letters holds => ?_⟩
  rcases mem_allValues.mp mem with ⟨rfl, stored⟩ | ⟨m, group, stored⟩
  · refine bound_le_of_values (values_dominates_merge ?_) holds
    exact ValueMap.dominates_iff.mpr ⟨(l, w), stored, Label.subsumes_refl l, le_rfl⟩
  · have self : e.upper.dominates c l w = true := UpperCaseMap.dominates_iff.mpr
      ⟨(c, m), group, CaseLabel.subset_refl c,
        ValueMap.dominates_iff.mpr ⟨(l, w), stored, Label.subsumes_refl l, le_rfl⟩⟩
    have kept : (e.merge case label value).1.values.dominates l w = true ∨
        (e.merge case label value).1.upper.dominates c l w = true := upper_dominates_merge self
    rcases kept with ordinary | upper
    · exact bound_le_of_values ordinary holds
    · exact bound_le_of_upper upper letters holds

theorem bound_merge_le_self (e : LabeledEdge) {case : CaseLabel} {label : Label} (value : Value)
    (letters : case.subset K = true) (holds : s.subsumes label = true) :
    (e.merge case label value).1.bound s K ≤ value := by
  by_cases infinite : value = Value.posInf
  · exact infinite ▸ bound_le_posInf _ s K
  · rcases e.merge_covers_self case label infinite with ordinary | ⟨_, upper⟩
    · exact bound_le_of_values ordinary holds
    · exact bound_le_of_upper upper letters holds

/-- No bound is made up: where the join of two twins applies, one of the twins does. -/
theorem joins_atLeast (complete : s.IsComplete) (b : Value) :
    JoinsTwins (fun c l w => c.subset K = true → s.subsumes l = true → b ≤ w)
      fun c l w => c.subset K = true → s.subsumes l = true → b ≤ w where
  stored _ _ _ := id
  joined c l w x w' merged flips twin letters holds := by
    rcases complete.subsumes_twin flips holds with here | there
    · exact le_trans (merged letters here) (le_max_left w w')
    · exact le_trans (twin letters there) (le_max_right w w')

theorem bound_merge (complete : s.IsComplete) (e : LabeledEdge) (case : CaseLabel) (label : Label)
    (value : Value) :
    (e.merge case label value).1.bound s K =
      if case.subset K = true ∧ s.subsumes label = true then min (e.bound s K) value
      else e.bound s K := by
  have old := e.bound_merge_le (s := s) (K := K) case label value
  split
  · rename_i applies
    refine le_antisymm (le_min old (e.bound_merge_le_self value applies.1 applies.2)) ?_
    refine le_bound_iff.mpr ⟨le_trans (min_le_left _ _) (bound_le_posInf e s K), ?_⟩
    refine EveryValue.merge_twins (joins_atLeast complete _) ?_ fun _ _ => min_le_right _ _
    intro c l w mem letters holds
    exact le_trans (min_le_left _ _) (bound_le_of_mem mem letters holds)
  · rename_i elsewhere
    refine le_antisymm old (le_bound_iff.mpr ⟨bound_le_posInf e s K, ?_⟩)
    refine EveryValue.merge_twins (joins_atLeast complete _) ?_ fun letters holds =>
      absurd ⟨letters, holds⟩ elsewhere
    exact fun c l w => bound_le_of_mem

/-- The merged values bound the distance whatever their order is. -/
theorem le_bound_mergeAll_iff (complete : s.IsComplete) (vs : List (CaseLabel × Label × Value))
    (e : LabeledEdge) {b : Value} :
    b ≤ (e.mergeAll vs).bound s K ↔ b ≤ e.bound s K ∧
      ∀ x ∈ vs, x.1.subset K = true → s.subsumes x.2.1 = true → b ≤ x.2.2 := by
  induction vs generalizing e with
  | nil => simp [mergeAll]
  | cons x rest ih =>
    rw [mergeAll, List.foldl_cons, ← mergeAll, ih, bound_merge complete, List.forall_mem_cons]
    split
    · rename_i applies
      rw [le_min_iff]
      tauto
    · tauto

/-- A merge takes the minimum of the bound and the merged value where that applies, and changes no
other bound; so the order of merges makes no difference. -/
theorem bound_after_merges (complete : s.IsComplete) (K : CaseLabel) (e : LabeledEdge) :
    (∀ case label value, (e.merge case label value).1.bound s K =
        if case.subset K = true ∧ s.subsumes label = true then min (e.bound s K) value
        else e.bound s K) ∧
      ∀ vs ws, vs.Perm ws → (e.mergeAll vs).bound s K = (e.mergeAll ws).bound s K := by
  refine ⟨e.bound_merge complete, fun vs ws reordered => ?_⟩
  refine eq_of_forall_le_iff fun b => ?_
  rw [le_bound_mergeAll_iff complete, le_bound_mergeAll_iff complete]
  simp only [reordered.mem_iff]

/-- Two twins that are joined, and an upper-case value, in either order. -/
theorem bound_after_merges_straight :
    let a : Label := Label.ofLiteral ⟨0, .straight⟩
    let notA : Label := Label.ofLiteral ⟨0, .negated⟩
    let A : CaseLabel := CaseLabel.ofLetter 0
    let e := ofKind .internal
    Label.allStraight.IsComplete ∧
      (e.mergeAll [(.empty, a, 3), (.empty, notA, 5), (A, .empty, 2)]).bound Label.allStraight A = 2 ∧
      (e.mergeAll [(.empty, notA, 5), (.empty, a, 3), (A, .empty, 2)]).bound Label.allStraight A =
        2 := by
  refine ⟨Label.isComplete_allStraight, by decide +kernel, ?_⟩
  rw [(bound_after_merges Label.isComplete_allStraight _ _).2 _ _ (List.Perm.swap _ _ _)]
  decide +kernel

end LabeledEdge

end TemporalNetwork
