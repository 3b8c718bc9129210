import Mathlib.Data.List.Nodup
import TemporalNetwork.Proofs.Values.Bound

/-!
Redundant values of an edge. Among the values with the same letters none is redundant, and a value
that an edge takes as it is makes no other value redundant, then or later: the others are dropped when
it comes, and neither a later merge nor the join of two twins can bring one. What joining twins puts
into one group is not compared with the values of the other groups.
-/

namespace TemporalNetwork

/-- Whether the first value makes the second one redundant. -/
def MakesRedundant (x y : CaseLabel × Label × Value) : Prop :=
  x.1.subset y.1 = true ∧ y.2.1.subsumes x.2.1 = true ∧ x.2.2 ≤ y.2.2

instance (x y : CaseLabel × Label × Value) : Decidable (MakesRedundant x y) :=
  inferInstanceAs (Decidable (_ ∧ _ ∧ _))

namespace ValueMap

variable {m : ValueMap} {label l : Label} {value v : Value}

/-- In a map without redundant entries, what an entry as good as `(label, value)` makes redundant can
only be `(label, value)` itself. -/
theorem Irredundant.eq_of_dominates (h : m.Irredundant) (covers : m.dominates label value = true)
    (stored : (l, v) ∈ m.entries) (refines : l.subsumes label = true) (larger : value ≤ v) :
    (l, v) = (label, value) := by
  obtain ⟨e, mem, general, le⟩ := dominates_iff.mp covers
  have same : (l, v) = e :=
    h.minimal _ stored e mem (Label.subsumes_trans refines general) (le_trans le larger)
  subst same
  have labels : l = label := Label.subsumes_antisymm refines general
  exact Prod.ext labels (le_antisymm le larger)

end ValueMap

namespace UpperCaseMap

variable {u : UpperCaseMap} {case : CaseLabel} {label : Label} {value : Value}

/-- Each group has a case label of its own, which is not empty, and no redundant entries. -/
structure Grouped (u : UpperCaseMap) : Prop where
  ordered : u.groups.Pairwise fun g h => compare g.1 h.1 = .lt
  lettered : u.Lettered
  irredundant : ∀ g ∈ u.groups, g.2.Irredundant

theorem grouped_empty : empty.Grouped where
  ordered := List.Pairwise.nil
  lettered _ _ mem := nomatch mem
  irredundant _ mem := nomatch mem

theorem compare_eq_lt {a b : CaseLabel} : compare a b = .lt ↔ a.mask.toNat < b.mask.toNat :=
  Nat.compare_eq_lt

theorem pairwise_insertGroup {m : ValueMap} {gs : List (CaseLabel × ValueMap)}
    (ordered : gs.Pairwise fun g h => compare g.1 h.1 = .lt) :
    (insertGroup case m gs).Pairwise fun g h => compare g.1 h.1 = .lt := by
  induction gs with
  | nil => simp [insertGroup]
  | cons g rest ih =>
    obtain ⟨first, others⟩ := List.pairwise_cons.mp ordered
    simp only [insertGroup]
    split
    · rename_i before
      refine List.pairwise_cons.mpr ⟨fun h mem => ?_, ordered⟩
      rcases List.mem_cons.mp mem with same | mem
      · exact same ▸ before
      · have after := first h mem
        rw [compare_eq_lt] at before after ⊢
        exact lt_trans before after
    · rename_i same
      have key : case = g.1 := eq_of_compare same
      exact List.pairwise_cons.mpr ⟨fun h mem => key ▸ first h mem, others⟩
    · rename_i after
      refine List.pairwise_cons.mpr ⟨fun h mem => ?_, ih others⟩
      rcases mem_insertGroup rest mem with same | mem
      · subst same
        exact compare_eq_lt.mpr (Nat.compare_eq_gt.mp after)
      · exact first h mem

theorem Grouped.group_unique (h : u.Grouped) {m n : ValueMap} (first : (case, m) ∈ u.groups)
    (second : (case, n) ∈ u.groups) : m = n := by
  have keys : (u.groups.map Prod.fst).Nodup := by
    refine List.pairwise_map.mpr (h.ordered.imp fun before same => ?_)
    rw [compare_eq_lt, same] at before
    exact lt_irrefl _ before
  exact congrArg Prod.snd (List.inj_on_of_nodup_map keys first second rfl)

theorem Grouped.mapGroups (h : u.Grouped) {f : CaseLabel → ValueMap → ValueMap}
    (fewer : ∀ c m, (f c m).entries.Sublist m.entries) : (u.mapGroups f).Grouped where
  ordered := (List.pairwise_map.mpr h.ordered).filter _
  lettered := h.lettered.mapGroups f
  irredundant g mem := by
    obtain ⟨m, mem, same, _⟩ := mem_mapGroups.mp mem
    exact (h.irredundant (g.1, m) mem).of_sublist (same ▸ fewer g.1 m)

theorem Grouped.thinned (h : u.Grouped) (case : CaseLabel) (label : Label) (value : Value) :
    (u.thinned case label value).Grouped := by
  refine h.mapGroups fun c m => ?_
  split
  · exact List.filter_sublist
  · exact List.Sublist.refl _

theorem Grouped.group (h : u.Grouped) (case : CaseLabel) : (u.group case).Irredundant := by
  unfold UpperCaseMap.group
  split
  · rename_i g found
    exact h.irredundant g (List.mem_of_find?_eq_some found)
  · exact ValueMap.irredundant_empty

theorem Grouped.merge (h : u.Grouped) (case : CaseLabel) (label : Label) (value : Value) :
    (u.merge case label value).1.Grouped := by
  have lettered := h.lettered.merge case label value
  rw [merge_eq] at lettered ⊢
  split at lettered
  · rename_i skip
    rw [if_pos skip]
    exact h
  · rename_i fresh
    rw [if_neg fresh]
    rw [not_or, not_or] at fresh
    have thin := h.thinned case label value
    refine ⟨pairwise_insertGroup thin.ordered, lettered, fun g mem => ?_⟩
    · rcases mem_insertGroup _ mem with rfl | mem
      · exact ValueMap.irredundant_mergeWithin (thin.group case) label fresh.2.1 _
      · exact thin.irredundant g mem

end UpperCaseMap

namespace LabeledEdge

variable {e : LabeledEdge} {a x y : CaseLabel × Label × Value} {case : CaseLabel} {label : Label}
  {value : Value}

/-- No value is made redundant by another one with the same letters. -/
structure Grouped (e : LabeledEdge) : Prop where
  ordinary : e.values.Irredundant
  upper : e.upper.Grouped

theorem grouped_ofKind (kind : ConstraintKind) : (ofKind kind).Grouped :=
  ⟨ValueMap.irredundant_empty, UpperCaseMap.grouped_empty⟩

theorem Grouped.merge (h : e.Grouped) (case : CaseLabel) (label : Label) (value : Value) :
    (e.merge case label value).1.Grouped := by
  cases changed : (e.merge case label value).2 with
  | false =>
    rw [merge_of_unchanged changed]
    exact h
  | true =>
    have finite := ((e.merge_changed case label value).mp changed).1
    unfold LabeledEdge.merge mergeOrdinary
    split
    · have values := ValueMap.irredundant_mergeWithin h.ordinary label finite label.size
      split
      · rename_i m merged
        rw [ValueMap.merge] at merged
        rw [merged] at values
        exact ⟨values, h.upper.mapGroups fun c m => List.filter_sublist⟩
      · exact h
    · split
      · exact h
      · exact ⟨h.ordinary, h.upper.merge case label value⟩

theorem Grouped.mergeAll (h : e.Grouped) (vs : List (CaseLabel × Label × Value)) :
    (e.mergeAll vs).Grouped :=
  List.foldlRecOn vs _ h fun _ holds x _ => holds.merge x.1 x.2.1 x.2.2

theorem Grouped.eq_of_case_eq (h : e.Grouped) (hx : x ∈ e.allValues) (hy : y ∈ e.allValues)
    (same : x.1 = y.1) (redundant : MakesRedundant x y) : x = y := by
  obtain ⟨c, l, v⟩ := x
  obtain ⟨d, k, w⟩ := y
  obtain ⟨_, refines, larger⟩ := redundant
  dsimp only at same refines larger
  subst same
  have entries : (k, w) = (l, v) := by
    rcases mem_allValues.mp hx with ⟨rfl, first⟩ | ⟨m, group, first⟩
    · rcases mem_allValues.mp hy with ⟨_, second⟩ | ⟨n, group, _⟩
      · exact h.ordinary.minimal _ second _ first refines larger
      · have lettered := h.upper.lettered _ _ group
        cases lettered
    · rcases mem_allValues.mp hy with ⟨rfl, _⟩ | ⟨n, group', second⟩
      · have lettered := h.upper.lettered _ _ group
        cases lettered
      · rw [h.upper.group_unique group' group] at second
        exact (h.upper.irredundant _ group).minimal _ second _ first refines larger
  cases entries
  rfl

theorem Covers.mono (h : e.Covers x.1 x.2.1 x.2.2) (redundant : MakesRedundant x y) :
    e.Covers y.1 y.2.1 y.2.2 := by
  obtain ⟨letters, refines, larger⟩ := redundant
  rcases h with ordinary | ⟨lettered, upper⟩
  · exact Or.inl (ValueMap.dominates_mono ordinary refines larger)
  · obtain ⟨g, group, fewer, h⟩ := UpperCaseMap.dominates_iff.mp upper
    refine Or.inr ⟨?_, UpperCaseMap.dominates_iff.mpr
      ⟨g, group, CaseLabel.subset_trans fewer letters, ValueMap.dominates_mono h refines larger⟩⟩
    rw [← Bool.not_eq_true, CaseLabel.isEmpty_iff]
    intro empty
    rw [empty] at letters
    rw [CaseLabel.eq_empty_of_subset letters] at lettered
    exact absurd lettered (by decide)

/-- The edge holds a value as good as `a`, and none that `a` makes redundant, except `a`. -/
structure Prunes (a : CaseLabel × Label × Value) (e : LabeledEdge) : Prop where
  covers : e.Covers a.1 a.2.1 a.2.2
  only : e.EveryValue fun c l w => MakesRedundant a (c, l, w) → (c, l, w) = a

/-- If the join of two twins is redundant then so is one of them, and it is not `a`: the label of `a`
mentions only propositions of the join. -/
theorem joins_only (a : CaseLabel × Label × Value) :
    JoinsTwins (fun c l w => MakesRedundant a (c, l, w) → (c, l, w) = a)
      fun c l w => MakesRedundant a (c, l, w) → (c, l, w) = a where
  stored _ _ _ := id
  joined c l w x w' merged flips twin redundant := by
    obtain ⟨letters, refines, larger⟩ := redundant
    have stated := (Label.mem_flippable.mp flips).1
    have absent : (l.erase x.proposition).state x.proposition = none := by simp
    rcases le_max_iff.mp larger with first | second
    · have same := merged ⟨letters, Label.subsumes_trans (l.subsumes_erase _) refines, first⟩
      rw [← same] at refines
      exact absurd refines (Label.not_subsumes_of_absent absent (by simp [stated]))
    · have same := twin ⟨letters, Label.subsumes_trans (l.replace_subsumes_erase x.complement)
        refines, second⟩
      rw [← same] at refines
      refine absurd refines (Label.not_subsumes_of_absent absent ?_)
      rw [Label.state_replace]
      simp [Literal.complement]

theorem Grouped.prunes_ordinary (h : e.Grouped) (changed : (e.values.merge label value).2 = true) :
    ∀ x ∈ (e.mergeOrdinary label value).1.allValues, MakesRedundant (.empty, label, value) x →
      x = (.empty, label, value) := by
  have finite := ((e.values.merge_changed label value).mp changed).1
  have merged : (e.mergeOrdinary label value).1 =
      { e with values := (e.values.merge label value).1,
               upper := e.upper.dropDominatedByOrdinary label value } := by
    unfold mergeOrdinary
    split
    · rename_i same
      rw [same]
    · rename_i same
      rw [same] at changed
      cases changed
  rintro ⟨c, l, w⟩ mem ⟨_, refines, larger⟩
  rw [merged] at mem
  rcases mem_allValues.mp mem with ⟨rfl, stored⟩ | ⟨m, group, stored⟩
  · have values := ValueMap.irredundant_mergeWithin h.ordinary label finite label.size
    have same := values.eq_of_dominates (e.values.merge_dominates_self label finite) stored refines
      larger
    rw [same]
  · obtain ⟨m', _, thin, _⟩ := UpperCaseMap.mem_mapGroups.mp group
    rw [← show m'.dropDominated label value = m from thin] at stored
    exact absurd ((ValueMap.mem_dropDominated.mp stored).2 refines) (not_lt.mpr larger)

theorem Grouped.prunes_upper {u : UpperCaseMap} (h : u.Grouped)
    (changed : (u.merge case label value).2 = true) {c : CaseLabel} {m : ValueMap}
    (group : (c, m) ∈ (u.merge case label value).1.groups) {l : Label} {w : Value}
    (stored : (l, w) ∈ m.entries) (redundant : MakesRedundant (case, label, value) (c, l, w)) :
    (c, l, w) = (case, label, value) := by
  obtain ⟨letters, refines, larger⟩ := redundant
  rw [UpperCaseMap.merge_eq] at changed group
  split at changed
  · cases changed
  · rename_i fresh
    rw [if_neg fresh] at group
    rw [not_or, not_or] at fresh
    rcases UpperCaseMap.mem_insertGroup _ group with same | kept
    · cases same
      have values := ValueMap.irredundant_mergeWithin ((h.thinned case label value).group case) label
        fresh.2.1 label.size
      have same := values.eq_of_dominates (ValueMap.merge_dominates_self _ label fresh.2.1) stored
        refines larger
      rw [same]
    · obtain ⟨m', _, thin, _⟩ := UpperCaseMap.mem_mapGroups.mp kept
      dsimp only at thin letters
      rw [if_pos letters] at thin
      rw [← thin] at stored
      exact absurd ((ValueMap.mem_dropDominated.mp stored).2 refines) (not_lt.mpr larger)

theorem Grouped.prunes (h : e.Grouped) (changed : (e.merge case label value).2 = true) :
    Prunes (case, label, value) (e.merge case label value).1 := by
  have finite := ((e.merge_changed case label value).mp changed).1
  refine ⟨e.merge_covers_self case label finite, fun c l w mem redundant => ?_⟩
  by_cases plain : case.isEmpty = true
  · rw [LabeledEdge.merge, if_pos plain] at mem changed
    rw [CaseLabel.isEmpty_iff] at plain
    subst plain
    refine h.prunes_ordinary ?_ _ mem redundant
    unfold mergeOrdinary at changed
    split at changed
    · rename_i same
      rw [same]
    · cases changed
  · rw [LabeledEdge.merge, if_neg plain] at mem changed
    split at changed
    · cases changed
    · rename_i fresh
      rw [if_neg fresh] at mem
      rcases mem_allValues.mp mem with ⟨rfl, _⟩ | ⟨m, group, stored⟩
      · have empty : case = .empty := CaseLabel.eq_empty_of_subset redundant.1
        exact absurd (CaseLabel.isEmpty_iff.mpr empty) plain
      · exact Grouped.prunes_upper h.upper changed group stored redundant

/-- Later merges leave it so: a value that `a` makes redundant is not taken. -/
theorem Prunes.merge (h : Prunes a e) (case : CaseLabel) (label : Label) (value : Value) :
    Prunes a (e.merge case label value).1 := by
  refine ⟨covers_merge h.covers, ?_⟩
  cases changed : (e.merge case label value).2 with
  | false =>
    rw [merge_of_unchanged changed]
    exact h.only
  | true =>
    have fresh := ((e.merge_changed case label value).mp changed).2
    refine h.only.merge_twins (joins_only a) fun redundant => ?_
    exact absurd (Covers.mono h.covers redundant) fresh

theorem Prunes.mergeAll (h : Prunes a e) (vs : List (CaseLabel × Label × Value)) :
    Prunes a (e.mergeAll vs) :=
  List.foldlRecOn vs _ h fun _ holds x _ => holds.merge x.1 x.2.1 x.2.2

/-- Whether the fresh edge takes `x` as it is when its turn comes. -/
def Takes (kind : ConstraintKind) (vs : List (CaseLabel × Label × Value))
    (x : CaseLabel × Label × Value) : Prop :=
  ∃ before after, vs = before ++ x :: after ∧
    (((ofKind kind).mergeAll before).merge x.1 x.2.1 x.2.2).2 = true

theorem prunes_of_takes {kind : ConstraintKind} {vs : List (CaseLabel × Label × Value)}
    (taken : Takes kind vs x) : Prunes x ((ofKind kind).mergeAll vs) := by
  obtain ⟨before, after, rfl, changed⟩ := taken
  have grouped := (grouped_ofKind kind).mergeAll before
  rw [mergeAll, List.foldl_append, List.foldl_cons]
  exact (grouped.prunes changed).mergeAll after

/-- After any merges into a fresh edge, a stored value makes another one redundant at most if their
letters differ and the edge never took it as it is, so that only the join of twins brought it. -/
theorem not_makesRedundant (kind : ConstraintKind) (vs : List (CaseLabel × Label × Value))
    {x y : CaseLabel × Label × Value} (hx : x ∈ ((ofKind kind).mergeAll vs).allValues)
    (hy : y ∈ ((ofKind kind).mergeAll vs).allValues) (distinct : x ≠ y)
    (comparable : x.1 = y.1 ∨ Takes kind vs x) : ¬ MakesRedundant x y := by
  intro redundant
  rcases comparable with same | taken
  · exact distinct (((grouped_ofKind kind).mergeAll vs).eq_of_case_eq hx hy same redundant)
  · exact distinct ((prunes_of_takes taken).only y.1 y.2.1 y.2.2 hy redundant).symm

/-- An upper-case value that is taken before one with more letters and a smaller bound. -/
theorem not_makesRedundant_letters :
    let x : CaseLabel × Label × Value := (.ofLetter 0, .empty, 2)
    let y : CaseLabel × Label × Value := (.ofLetters [0, 1], .empty, 1)
    Takes .internal [x, y] x ∧ x ∈ ((ofKind .internal).mergeAll [x, y]).allValues ∧
      y ∈ ((ofKind .internal).mergeAll [x, y]).allValues ∧ ¬ MakesRedundant x y := by
  intro x y
  have taken : Takes .internal [x, y] x := ⟨[], [y], rfl, by decide +kernel⟩
  have hx : x ∈ ((ofKind .internal).mergeAll [x, y]).allValues := by decide +kernel
  have hy : y ∈ ((ofKind .internal).mergeAll [x, y]).allValues := by decide +kernel
  exact ⟨taken, hx, hy, not_makesRedundant .internal [x, y] hx hy (by decide) (Or.inr taken)⟩

/-- The twins `(a, 3)` and `(¬a, 3)` are joined to a value which nobody compares with the upper-case
value that it makes redundant. -/
example :
    let x : CaseLabel × Label × Value := (.empty, .empty, 3)
    let y : CaseLabel × Label × Value := (.ofLetter 0, .empty, 4)
    let vs := [y, (.empty, .ofLiteral ⟨0, .straight⟩, 3), (.empty, .ofLiteral ⟨0, .negated⟩, 3)]
    ((ofKind .internal).mergeAll vs).allValues = [x, y] ∧ MakesRedundant x y := by
  decide +kernel

end LabeledEdge

end TemporalNetwork
