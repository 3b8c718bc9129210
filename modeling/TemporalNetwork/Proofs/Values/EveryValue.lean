import TemporalNetwork.Proofs.Values.Covering

/-!
What holds of every value of an edge. A merge stores the value it is given and the values that twins
are joined to, so it keeps a property which those have. The property may be stronger for the values
that are merged than for those which are stored.
-/

namespace TemporalNetwork

/-- Whether values with `Q` may be merged into values with `P`: they have `P`, and what one of them and
a stored twin are joined to has `Q` again. -/
structure JoinsTwins (P Q : CaseLabel → Label → Value → Prop) : Prop where
  stored : ∀ c l w, Q c l w → P c l w
  joined : ∀ c l w x w', Q c l w → x ∈ ValueMap.flippable l → P c (l.replace x.complement) w' →
    Q c (l.erase x.proposition) (max w w')

/-- Whether the property holds of what two values with the same letters are joined to. -/
def Joins (P : CaseLabel → Label → Value → Prop) : Prop :=
  ∀ c l w p l' w', P c l w → P c l' w' → P c (l.erase p) (max w w')

theorem joins_labelless (Q : CaseLabel → Value → Prop) :
    Joins fun case label w => label = .empty ∧ Q case w := by
  rintro case label w p label' w' ⟨rfl, first⟩ ⟨_, second⟩
  refine ⟨Label.erase_empty p, ?_⟩
  rcases max_cases w w' with ⟨larger, _⟩ | ⟨larger, _⟩
  · rwa [larger]
  · rwa [larger]

theorem Joins.joinsTwins {P : CaseLabel → Label → Value → Prop} (joins : Joins P) :
    JoinsTwins P P where
  stored _ _ _ := id
  joined c l w x w' merged _ twin := joins c l w x.proposition _ w' merged twin

theorem ValueMap.every_merge {P Q : CaseLabel → Label → Value → Prop} (joins : JoinsTwins P Q)
    {c : CaseLabel} {m : ValueMap} {label : Label} {value : Value}
    (every : ∀ l w, (l, w) ∈ m.entries → P c l w) (new : Q c label value) :
    ∀ l w, (l, w) ∈ (m.merge label value).1.entries → P c l w := by
  refine mergeWithin_induct (P := fun m => ∀ l w, (l, w) ∈ m.entries → P c l w) (Q := Q c) ?_ ?_
    _ m label value every new
  · intro m label value holds allowed _ l w mem
    rcases mem_of_mem_insertEntry _ mem with same | kept
    · cases same
      exact joins.stored c label value allowed
    · exact holds l w (mem_dropDominated.mp kept).1
  · intro m label value literal twin holds allowed flips found
    exact joins.joined c label value literal twin allowed flips (holds _ _ (mem_of_get? found))

namespace LabeledEdge

/-- Whether the property holds of every value of the edge. -/
def EveryValue (P : CaseLabel → Label → Value → Prop) (e : LabeledEdge) : Prop :=
  ∀ c l w, (c, l, w) ∈ e.allValues → P c l w

variable {P Q : CaseLabel → Label → Value → Prop} {e : LabeledEdge} {c case : CaseLabel}
  {l label : Label} {w value : Value}

theorem mem_allValues :
    (c, l, w) ∈ e.allValues ↔ c = .empty ∧ (l, w) ∈ e.values.entries ∨
      ∃ m, (c, m) ∈ e.upper.groups ∧ (l, w) ∈ m.entries := by
  simp only [allValues, UpperCaseMap.entries, List.mem_append, List.mem_map, List.mem_flatMap,
    Prod.mk.injEq, Prod.exists]
  constructor
  · rintro (⟨l, w, mem, rfl, rfl, rfl⟩ | ⟨c, m, group, l, w, mem, rfl, rfl, rfl⟩)
    · exact Or.inl ⟨rfl, mem⟩
    · exact Or.inr ⟨m, group, mem⟩
  · rintro (⟨rfl, mem⟩ | ⟨m, group, mem⟩)
    · exact Or.inl ⟨l, w, mem, rfl, rfl, rfl⟩
    · exact Or.inr ⟨c, m, group, l, w, mem, rfl, rfl, rfl⟩

theorem everyValue_iff :
    e.EveryValue P ↔ (∀ l w, (l, w) ∈ e.values.entries → P .empty l w) ∧
      ∀ c m, (c, m) ∈ e.upper.groups → ∀ l w, (l, w) ∈ m.entries → P c l w := by
  constructor
  · intro every
    exact ⟨fun l w mem => every _ l w (mem_allValues.mpr (Or.inl ⟨rfl, mem⟩)),
      fun c m group l w mem => every c l w (mem_allValues.mpr (Or.inr ⟨m, group, mem⟩))⟩
  · rintro ⟨ordinary, lettered⟩ c l w mem
    rcases mem_allValues.mp mem with ⟨rfl, here⟩ | ⟨m, group, here⟩
    · exact ordinary l w here
    · exact lettered c m group l w here

theorem everyValue_ofKind (kind : ConstraintKind) : (ofKind kind).EveryValue P := by
  intro c l w mem
  cases mem

theorem EveryValue.mono (every : e.EveryValue P) (weaker : ∀ c l w, P c l w → Q c l w) :
    e.EveryValue Q :=
  fun c l w mem => weaker c l w (every c l w mem)

theorem EveryValue.mergeOrdinary_twins (joins : JoinsTwins P Q) (every : e.EveryValue P)
    (new : Q .empty label value) : (e.mergeOrdinary label value).1.EveryValue P := by
  obtain ⟨ordinary, lettered⟩ := everyValue_iff.mp every
  have merged := ValueMap.every_merge joins ordinary new
  unfold LabeledEdge.mergeOrdinary
  split
  · rename_i m same
    rw [same] at merged
    refine everyValue_iff.mpr ⟨merged, fun c m group l w mem => ?_⟩
    obtain ⟨m', group', kept, _⟩ := UpperCaseMap.mem_mapGroups.mp group
    rw [← show m'.dropDominated label value = m from kept] at mem
    exact lettered c m' group' l w (ValueMap.mem_dropDominated.mp mem).1
  · exact every

theorem EveryValue.merge_twins (joins : JoinsTwins P Q) (every : e.EveryValue P)
    (new : Q case label value) : (e.merge case label value).1.EveryValue P := by
  by_cases plain : case.isEmpty = true
  · rw [LabeledEdge.merge, if_pos plain]
    rw [CaseLabel.isEmpty_iff] at plain
    exact every.mergeOrdinary_twins joins (plain ▸ new)
  · rw [LabeledEdge.merge, if_neg plain]
    split
    · exact every
    · obtain ⟨ordinary, lettered⟩ := everyValue_iff.mp every
      refine everyValue_iff.mpr ⟨ordinary, fun c m group => ?_⟩
      dsimp only at group
      rw [UpperCaseMap.merge_eq] at group
      split at group
      · exact lettered c m group
      · rcases UpperCaseMap.mem_insertGroup _ group with same | kept
        · cases same
          refine ValueMap.every_merge joins (fun l w mem => ?_) new
          obtain ⟨m', group', mem'⟩ := UpperCaseMap.mem_thinned_group mem
          exact lettered _ m' group' l w mem'
        · obtain ⟨m', group', thin, _⟩ := UpperCaseMap.mem_mapGroups.mp kept
          intro l w mem
          refine lettered c m' group' l w ?_
          dsimp only at thin
          rw [← thin] at mem
          split at mem
          · exact (ValueMap.mem_dropDominated.mp mem).1
          · exact mem

theorem EveryValue.mergeOrdinary (joins : Joins P) (every : e.EveryValue P)
    (new : P .empty label value) : (e.mergeOrdinary label value).1.EveryValue P :=
  every.mergeOrdinary_twins joins.joinsTwins new

theorem EveryValue.merge (joins : Joins P) (every : e.EveryValue P) (new : P case label value) :
    (e.merge case label value).1.EveryValue P :=
  every.merge_twins joins.joinsTwins new

theorem EveryValue.erase (every : e.EveryValue P) (lettered : e.upper.Lettered) (case : CaseLabel)
    (label : Label) :
    (e.erase case label).EveryValue fun c l w => P c l w ∧ ¬ (c = case ∧ l = label) := by
  obtain ⟨ordinary, upper⟩ := everyValue_iff.mp every
  unfold LabeledEdge.erase
  split
  · rename_i plain
    refine everyValue_iff.mpr ⟨fun l w mem => ?_, fun c m group l w mem => ?_⟩
    · obtain ⟨mem, other⟩ := ValueMap.mem_erase.mp mem
      exact ⟨ordinary l w mem, fun same => other same.2⟩
    · refine ⟨upper c m group l w mem, ?_⟩
      rintro ⟨rfl, _⟩
      rw [lettered c m group] at plain
      cases plain
  · rename_i letters
    refine everyValue_iff.mpr ⟨fun l w mem => ?_, fun c m group l w mem => ?_⟩
    · refine ⟨ordinary l w mem, ?_⟩
      rintro ⟨rfl, _⟩
      exact letters rfl
    · obtain ⟨m', group', kept, _⟩ := UpperCaseMap.mem_mapGroups.mp group
      dsimp only at kept
      split at kept
      · rw [← kept] at mem
        obtain ⟨mem, other⟩ := ValueMap.mem_erase.mp mem
        exact ⟨upper c m' group' l w mem, fun same => other same.2⟩
      · rename_i other
        rw [← kept] at mem
        exact ⟨upper c m' group' l w mem, fun same => other same.1⟩

end LabeledEdge

end TemporalNetwork
