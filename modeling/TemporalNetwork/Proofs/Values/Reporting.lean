import TemporalNetwork.Proofs.Values.Redundancy

/-!
What a merge reports. Propagation goes on while merges report changes, so it relies on the report both
ways: a merge that reports none has left everything as it was, and one that reports a change has left
other values than it found. The value that is merged may be gone at once, joined with its twin, and it
may take any number of older ones with it; but what was redundant before a merge is redundant after it,
and so is the merged value.
-/

namespace TemporalNetwork

variable {stored : List (CaseLabel × Label × Value)} {x y w : CaseLabel × Label × Value}

theorem MakesRedundant.refl (x : CaseLabel × Label × Value) : MakesRedundant x x :=
  ⟨CaseLabel.subset_refl x.1, Label.subsumes_refl x.2.1, le_rfl⟩

theorem MakesRedundant.trans (first : MakesRedundant x y) (second : MakesRedundant y w) :
    MakesRedundant x w :=
  ⟨CaseLabel.subset_trans first.1 second.1, Label.subsumes_trans second.2.1 first.2.1,
    first.2.2.trans second.2.2⟩

/-- Whether one of the stored values makes `x` redundant. -/
def RedundantIn (stored : List (CaseLabel × Label × Value)) (x : CaseLabel × Label × Value) : Prop :=
  ∃ y ∈ stored, MakesRedundant y x

instance (stored : List (CaseLabel × Label × Value)) (x : CaseLabel × Label × Value) :
    Decidable (RedundantIn stored x) :=
  inferInstanceAs (Decidable (∃ y ∈ stored, MakesRedundant y x))

theorem RedundantIn.of_mem (mem : x ∈ stored) : RedundantIn stored x :=
  ⟨x, mem, .refl x⟩

theorem RedundantIn.mono (h : RedundantIn stored x) (redundant : MakesRedundant x y) :
    RedundantIn stored y := by
  obtain ⟨w, mem, first⟩ := h
  exact ⟨w, mem, first.trans redundant⟩

/-- What can be relied on when `merge` merges `x` into the state `s`, in which `stored` lists the
values. -/
structure MergesExactly {S : Type} (stored : S → List (CaseLabel × Label × Value))
    (merge : S → S × Bool) (x : CaseLabel × Label × Value) (s : S) : Prop where
  reports : (merge s).2 = true ↔ x.2.2 ≠ Value.posInf ∧ ¬ RedundantIn (stored s) x
  changes : (merge s).2 = true ↔ stored (merge s).1 ≠ stored s
  idle : (merge s).2 = false → (merge s).1 = s
  taken : x.2.2 ≠ Value.posInf → RedundantIn (stored (merge s).1) x
  again : merge (merge s).1 = ((merge s).1, false)
  remembers : ∀ y, RedundantIn (stored s) y → RedundantIn (stored (merge s).1) y

/-- It is enough to know when a change is reported, that nothing happens otherwise, and what becomes of
the merged value and of the stored ones, in states of which a merge leads to another. -/
theorem MergesExactly.of_invariant {S : Type} {stored : S → List (CaseLabel × Label × Value)}
    {merge : S → S × Bool} {P : S → Prop} (kept : ∀ s, P s → P (merge s).1)
    (reports : ∀ s, P s →
      ((merge s).2 = true ↔ x.2.2 ≠ Value.posInf ∧ ¬ RedundantIn (stored s) x))
    (idle : ∀ s, (merge s).2 = false → (merge s).1 = s)
    (taken : ∀ s, x.2.2 ≠ Value.posInf → RedundantIn (stored (merge s).1) x)
    (stays : ∀ s, ∀ y ∈ stored s, RedundantIn (stored (merge s).1) y) {s : S} (holds : P s) :
    MergesExactly stored merge x s where
  reports := reports s holds
  changes := by
    constructor
    · intro changed same
      obtain ⟨finite, fresh⟩ := (reports s holds).mp changed
      exact fresh (same ▸ taken s finite)
    · intro other
      by_contra unchanged
      exact other (congrArg stored (idle s (Bool.eq_false_iff.mpr unchanged)))
  idle := idle s
  taken := taken s
  again := by
    have settled : (merge (merge s).1).2 = false := by
      refine Bool.eq_false_iff.mpr fun changed => ?_
      obtain ⟨finite, fresh⟩ := (reports _ (kept s holds)).mp changed
      exact fresh (taken s finite)
    exact Prod.ext (idle _ settled) settled
  remembers _ redundant := by
    obtain ⟨w, mem, redundant⟩ := redundant
    exact (stays s w mem).mono redundant

namespace ValueMap

variable {m : ValueMap} {label : Label} {value : Value}

/-- The values of a map as ordinary ones. -/
def ordinary (m : ValueMap) : List (CaseLabel × Label × Value) :=
  m.entries.map fun v => (CaseLabel.empty, v)

theorem redundantIn_ordinary_iff :
    RedundantIn m.ordinary x ↔ m.dominates x.2.1 x.2.2 = true := by
  rw [dominates_iff]
  constructor
  · rintro ⟨_, mem, _, general, le⟩
    obtain ⟨v, stored, rfl⟩ := List.mem_map.mp mem
    exact ⟨v, stored, general, le⟩
  · rintro ⟨v, stored, general, le⟩
    exact ⟨(.empty, v), List.mem_map.mpr ⟨v, stored, rfl⟩, CaseLabel.empty_subset x.1, general, le⟩

theorem merge_of_unchanged (h : (m.merge label value).2 = false) : (m.merge label value).1 = m := by
  have skip : value = Value.posInf ∨ m.dominates label value = true := by
    by_contra fresh
    rw [not_or, Bool.not_eq_true] at fresh
    rw [(m.merge_changed label value).mpr fresh] at h
    cases h
  rw [merge, mergeWithin_eq, if_pos skip]

theorem mergesExactly (m : ValueMap) (label : Label) (value : Value) :
    MergesExactly ordinary (fun m => m.merge label value) (.empty, label, value) m := by
  refine .of_invariant (P := fun _ => True) (fun _ _ => trivial) (fun m _ => ?_)
    (fun _ => merge_of_unchanged) (fun m finite => ?_) (fun m y mem => ?_) trivial
  · rw [m.merge_changed, redundantIn_ordinary_iff, Bool.not_eq_true]
  · exact redundantIn_ordinary_iff.mpr (m.merge_dominates_self label finite)
  · exact redundantIn_ordinary_iff.mpr (dominates_merge (redundantIn_ordinary_iff.mp (.of_mem mem)))

end ValueMap

namespace UpperCaseMap

variable {u : UpperCaseMap} {case : CaseLabel} {label : Label} {value : Value}

theorem redundantIn_entries_iff :
    RedundantIn u.entries x ↔ u.dominates x.1 x.2.1 x.2.2 = true := by
  simp only [RedundantIn, entries, List.mem_flatMap, List.mem_map, dominates_iff,
    ValueMap.dominates_iff]
  constructor
  · rintro ⟨_, ⟨g, group, v, stored, rfl⟩, letters, general, le⟩
    exact ⟨g, group, letters, v, stored, general, le⟩
  · rintro ⟨g, group, letters, v, stored, general, le⟩
    exact ⟨(g.1, v), ⟨g, group, v, stored, rfl⟩, letters, general, le⟩

theorem merge_of_unchanged (lettered : case.isEmpty = false)
    (h : (u.merge case label value).2 = false) : (u.merge case label value).1 = u := by
  have skip : value = Value.posInf ∨ u.dominates case label value = true := by
    by_contra fresh
    rw [not_or, Bool.not_eq_true] at fresh
    rw [(u.merge_changed label value lettered).mpr fresh] at h
    cases h
  rw [merge_eq, if_pos (Or.inr skip)]

theorem mergesExactly (u : UpperCaseMap) (lettered : case.isEmpty = false) (label : Label)
    (value : Value) :
    MergesExactly entries (fun u => u.merge case label value) (case, label, value) u := by
  refine .of_invariant (P := fun _ => True) (fun _ _ => trivial) (fun u _ => ?_)
    (fun _ => merge_of_unchanged lettered) (fun u finite => ?_) (fun u y mem => ?_) trivial
  · rw [u.merge_changed label value lettered, redundantIn_entries_iff, Bool.not_eq_true]
  · exact redundantIn_entries_iff.mpr (u.merge_dominates_self label lettered finite)
  · exact redundantIn_entries_iff.mpr (dominates_merge (redundantIn_entries_iff.mp (.of_mem mem)))

end UpperCaseMap

namespace LabeledEdge

variable {e : LabeledEdge} {case : CaseLabel} {label : Label} {value : Value}

theorem redundantIn_allValues_iff : RedundantIn e.allValues x ↔
    e.values.dominates x.2.1 x.2.2 = true ∨ e.upper.dominates x.1 x.2.1 x.2.2 = true := by
  rw [← ValueMap.redundantIn_ordinary_iff, ← UpperCaseMap.redundantIn_entries_iff]
  show (∃ y ∈ e.values.ordinary ++ e.upper.entries, MakesRedundant y x) ↔ _
  simp only [List.mem_append, or_and_right, exists_or, RedundantIn]

theorem redundantIn_merge (mem : x ∈ e.allValues) (case : CaseLabel) (label : Label)
    (value : Value) : RedundantIn (e.merge case label value).1.allValues x := by
  rcases redundantIn_allValues_iff.mp (.of_mem mem) with ordinary | upper
  · exact redundantIn_allValues_iff.mpr (Or.inl (values_dominates_merge ordinary))
  · exact redundantIn_allValues_iff.mpr (upper_dominates_merge upper)

/-- An ordinary value is not covered by upper-case values, since these bear letters. -/
theorem covers_iff (lettered : e.upper.Lettered) :
    e.Covers case label value ↔ RedundantIn e.allValues (case, label, value) := by
  rw [redundantIn_allValues_iff]
  refine or_congr_right (and_iff_right_of_imp fun upper => ?_)
  obtain ⟨⟨c, m⟩, group, letters, _⟩ := UpperCaseMap.dominates_iff.mp upper
  refine Bool.eq_false_iff.mpr fun empty => ?_
  rw [CaseLabel.isEmpty_iff.mp empty] at letters
  have bare : c = .empty := CaseLabel.eq_empty_of_subset letters
  exact absurd (CaseLabel.isEmpty_iff.mpr bare) (Bool.eq_false_iff.mp (lettered c m group))

/-- One operation on an edge. With the empty case label `merge` merges an ordinary value. -/
inductive Edit where
  | merge (case : CaseLabel) (label : Label) (value : Value)
  | eraseOrdinary (label : Label)
  | eraseUpper (case : CaseLabel) (label : Label)
  | setLower (lower : Option LowerCaseValue)
  | clearCase
  | dropUnknown
  | setKind (kind : ConstraintKind)
  deriving DecidableEq, Repr

def edit (e : LabeledEdge) : Edit → LabeledEdge
  | .merge case label value => (e.merge case label value).1
  | .eraseOrdinary label => e.eraseOrdinary label
  | .eraseUpper case label => e.eraseUpper case label
  | .setLower lower => { e with lower := lower }
  | .clearCase => e.clearCase
  | .dropUnknown => e.dropUnknown
  | .setKind kind => EdgePayload.withKind kind e

/-- What the operations make of a fresh edge, from the first to the last. -/
def edits (kind : ConstraintKind) (es : List Edit) : LabeledEdge := es.foldl edit (ofKind kind)

theorem lettered_edit (lettered : e.upper.Lettered) (change : Edit) :
    (e.edit change).upper.Lettered := by
  cases change with
  | merge case label value => exact lettered_merge lettered case label value
  | eraseOrdinary label => exact lettered
  | eraseUpper case label => exact lettered.mapGroups _
  | setLower lower => exact lettered
  | clearCase => exact UpperCaseMap.grouped_empty.lettered
  | dropUnknown => exact lettered.mapGroups _
  | setKind kind => exact lettered

theorem lettered_edits (kind : ConstraintKind) (es : List Edit) : (edits kind es).upper.Lettered :=
  List.foldlRecOn es edit (motive := fun e => e.upper.Lettered)
    UpperCaseMap.grouped_empty.lettered fun _ lettered change _ => lettered_edit lettered change

theorem mergesExactly (lettered : e.upper.Lettered) (x : CaseLabel × Label × Value) :
    MergesExactly allValues (fun e => e.merge x.1 x.2.1 x.2.2) x e := by
  refine .of_invariant (P := fun e => e.upper.Lettered)
    (fun e lettered => lettered_merge lettered x.1 x.2.1 x.2.2) (fun e lettered => ?_)
    (fun _ => merge_of_unchanged) (fun e finite => ?_)
    (fun e y mem => redundantIn_merge mem x.1 x.2.1 x.2.2) lettered
  · rw [e.merge_changed, covers_iff lettered]
  · exact redundantIn_allValues_iff.mpr
      ((e.merge_covers_self x.1 x.2.1 finite).imp_right And.right)

theorem redundantIn_mergeAll (vs : List (CaseLabel × Label × Value)) (lettered : e.upper.Lettered)
    (h : RedundantIn e.allValues x ∨ x ∈ vs ∧ x.2.2 ≠ Value.posInf) :
    RedundantIn (e.mergeAll vs).allValues x := by
  induction vs generalizing e with
  | nil => exact h.resolve_right fun merged => nomatch merged.1
  | cons v rest ih =>
    have merged := mergesExactly lettered v
    refine ih (lettered_merge lettered v.1 v.2.1 v.2.2) ?_
    rcases h with before | ⟨mem, finite⟩
    · exact Or.inl (merged.remembers x before)
    · rcases List.mem_cons.mp mem with rfl | later
      · exact Or.inl (merged.taken finite)
      · exact Or.inr ⟨later, finite⟩

/-- Merging into an edge on which any operations have been performed, and into any map of either kind,
reports exactly the changes, and no sequence of merges forgets what was redundant. -/
theorem reports_changes_exactly (kind : ConstraintKind) (es : List Edit) :
    (∀ x, MergesExactly allValues (fun e => e.merge x.1 x.2.1 x.2.2) x (edits kind es)) ∧
    (∀ vs x, RedundantIn (edits kind es).allValues x ∨ x ∈ vs ∧ x.2.2 ≠ Value.posInf →
      RedundantIn ((edits kind es).mergeAll vs).allValues x) ∧
    (∀ (m : ValueMap) label value, MergesExactly ValueMap.ordinary
      (fun m => m.merge label value) (.empty, label, value) m) ∧
    ∀ (u : UpperCaseMap) case label value, case.isEmpty = false → MergesExactly UpperCaseMap.entries
      (fun u => u.merge case label value) (case, label, value) u :=
  ⟨mergesExactly (lettered_edits kind es), fun vs _ => redundantIn_mergeAll vs (lettered_edits kind es),
    ValueMap.mergesExactly, fun u _ label value lettered => u.mergesExactly lettered label value⟩

/-- The merged value goes at once, joined with its twin, as does a value that bears letters; the label of
the one that stays has an unknown literal. -/
theorem reports_changes_exactly_joined :
    let a : Label := .ofLiteral ⟨0, .straight⟩
    let notA : Label := .ofLiteral ⟨0, .negated⟩
    let b : Label := .ofLiteral ⟨1, .unknown⟩
    let A : CaseLabel := .ofLetter 0
    let e := edits .internal [.merge .empty a 3, .merge A notA 4, .merge A b 1, .dropUnknown,
      .merge A b 2]
    (e.merge .empty notA 3).2 = true ∧
      (e.merge .empty notA 3).1.allValues = [(.empty, .empty, 3), (A, b, 2)] ∧
      (e.merge .empty notA 3).1.merge .empty notA 3 = ((e.merge .empty notA 3).1, false) ∧
      RedundantIn (e.mergeAll [(.empty, notA, 3), (.empty, .empty, 2)]).allValues (A, notA, 4) ∧
      MergesExactly UpperCaseMap.entries (fun u => u.merge A notA 0) (A, notA, 0) e.upper := by
  intro a notA b A e
  have exactly := reports_changes_exactly .internal
    [.merge .empty a 3, .merge A notA 4, .merge A b 1, .dropUnknown, .merge A b 2]
  obtain ⟨merges, remembers, _, upper⟩ := exactly
  have merge := merges (.empty, notA, 3)
  exact ⟨by decide +kernel, by decide +kernel, merge.again,
    remembers _ _ (Or.inl (by decide +kernel)), upper _ A notA 0 (by decide +kernel)⟩

end LabeledEdge

end TemporalNetwork
