import Mathlib.Algebra.Order.Ring.Int
import TemporalNetwork.Edge.LabeledEdge
import TemporalNetwork.Proofs.Values.Refinement

/-!
Covered values. A value is covered by an edge that holds one which is at least as general and not
larger; merging a covered value changes nothing, and merging never uncovers a value, although it
drops entries and joins twins.
-/

namespace TemporalNetwork

namespace ValueMap

variable {m : ValueMap} {label l : Label} {value v : Value}

theorem dominates_mono (h : m.dominates label value = true) (refines : l.subsumes label = true)
    (larger : value ≤ v) : m.dominates l v = true := by
  obtain ⟨e, mem, general, le⟩ := dominates_iff.mp h
  exact dominates_iff.mpr ⟨e, mem, Label.subsumes_trans refines general, le_trans le larger⟩

theorem mem_of_mem_insertEntry {x : Label × Value} (es : List (Label × Value))
    (mem : x ∈ insertEntry label value es) : x = (label, value) ∨ x ∈ es := by
  induction es with
  | nil => exact Or.inl (List.mem_singleton.mp mem)
  | cons e rest ih =>
    simp only [insertEntry] at mem
    split at mem
    · exact List.mem_cons.mp mem
    · rcases List.mem_cons.mp mem with same | mem
      · exact Or.inl same
      · exact Or.inr (List.mem_cons_of_mem e mem)
    · rcases List.mem_cons.mp mem with same | mem
      · exact Or.inr (same ▸ List.mem_cons_self)
      · exact (ih mem).imp_right (List.mem_cons_of_mem e)

/-- The map with `(label, value)` in place of what it dominates. -/
def place (m : ValueMap) (label : Label) (value : Value) : ValueMap :=
  (m.dropDominated label value).insert label value

theorem place_dominates_self (m : ValueMap) (label : Label) (value : Value) :
    (m.place label value).dominates label value = true :=
  dominates_iff.mpr ⟨(label, value), mem_insertEntry_self _ _ _, Label.subsumes_refl _, le_rfl⟩

theorem place_dominates (fresh : m.dominates label value = false)
    (h : m.dominates l v = true) : (m.place label value).dominates l v = true := by
  obtain ⟨e, mem, general, le⟩ := dominates_iff.mp h
  by_cases dropped : e.1.subsumes label = true ∧ value ≤ e.2
  · exact dominates_mono (place_dominates_self m label value)
      (Label.subsumes_trans general dropped.1) (le_trans dropped.2 le)
  · have kept : e ∈ (m.dropDominated label value).entries :=
      mem_dropDominated.mpr ⟨mem, fun sub => by
        by_contra ge
        exact dropped ⟨sub, not_lt.mp ge⟩⟩
    have other : e.1 ≠ label := by
      intro same
      have smaller : e.2 < value := (mem_dropDominated.mp kept).2 (same ▸ Label.subsumes_refl _)
      have dominated : m.dominates label value = true :=
        dominates_iff.mpr ⟨e, mem, same ▸ Label.subsumes_refl _, le_of_lt smaller⟩
      rw [fresh] at dominated
      cases dominated
    exact dominates_iff.mpr ⟨e, (mem_insertEntry_of_ne _ other).mpr kept, general, le⟩

/-- One twin joined with the value just placed. -/
def joinTwin (depth : Nat) (label : Label) (value : Value) (m : ValueMap) (l : Literal) :
    ValueMap :=
  match m.get? (label.replace l.complement) with
  | some twin => (mergeWithin depth m (label.erase l.proposition) (max value twin)).1
  | none => m

theorem mergeWithin_eq (depth : Nat) (m : ValueMap) (label : Label) (value : Value) :
    mergeWithin depth m label value =
      if value = Value.posInf ∨ m.dominates label value = true then (m, false)
      else match depth with
        | 0 => (m.place label value, true)
        | depth + 1 =>
          ((flippable label).foldl (joinTwin depth label value) (m.place label value), true) := by
  unfold mergeWithin
  rfl

/-- A merge keeps every property of maps which is kept by placing a value that is not dominated, and
by joining twins. -/
theorem mergeWithin_induct {P : ValueMap → Prop} {Q : Label → Value → Prop}
    (placed : ∀ m label value, P m → Q label value → m.dominates label value = false →
      P (m.place label value))
    (joined : ∀ m label value l twin, P m → Q label value → l ∈ flippable label →
      m.get? (label.replace l.complement) = some twin →
      Q (label.erase l.proposition) (max value twin))
    (depth : Nat) (m : ValueMap) (label : Label) (value : Value) (holds : P m)
    (allowed : Q label value) : P (mergeWithin depth m label value).1 := by
  induction depth generalizing m label value with
  | zero =>
    rw [mergeWithin_eq]
    split
    · exact holds
    · rename_i fresh
      rw [not_or, Bool.not_eq_true] at fresh
      exact placed m label value holds allowed fresh.2
  | succ depth ih =>
    rw [mergeWithin_eq]
    split
    · exact holds
    · rename_i fresh
      rw [not_or, Bool.not_eq_true] at fresh
      have start := placed m label value holds allowed fresh.2
      -- The twins are looked up in the map as the earlier joins have left it.
      refine List.foldlRecOn (flippable label) (joinTwin depth label value) start
        fun m' holds' l mem => ?_
      unfold joinTwin
      split
      · rename_i twin found
        exact ih m' _ _ holds' (joined m' label value l twin holds' allowed mem found)
      · exact holds'

/-- Merging never uncovers a value. -/
theorem dominates_mergeWithin (depth : Nat) (h : m.dominates l v = true) :
    (mergeWithin depth m label value).1.dominates l v = true :=
  mergeWithin_induct (P := fun m => m.dominates l v = true) (Q := fun _ _ => True)
    (fun _ _ _ holds _ fresh => place_dominates fresh holds) (fun _ _ _ _ _ _ _ _ _ => trivial)
    depth m label value h trivial

theorem mergeWithin_dominates_self (depth : Nat) (m : ValueMap) (label : Label)
    (finite : value ≠ Value.posInf) :
    (mergeWithin depth m label value).1.dominates label value = true := by
  rw [mergeWithin_eq]
  split
  · rename_i skip
    exact skip.resolve_left finite
  · cases depth with
    | zero => exact place_dominates_self m label value
    | succ depth =>
      refine List.foldlRecOn (motive := fun m => m.dominates label value = true) (flippable label)
        (joinTwin depth label value) (place_dominates_self m label value) fun m' holds l _ => ?_
      unfold joinTwin
      split
      · exact dominates_mergeWithin depth holds
      · exact holds

theorem mergeWithin_changed (depth : Nat) (m : ValueMap) (label : Label) (value : Value) :
    (mergeWithin depth m label value).2 = true ↔
      value ≠ Value.posInf ∧ m.dominates label value = false := by
  rw [mergeWithin_eq]
  by_cases skip : value = Value.posInf ∨ m.dominates label value = true
  · rw [if_pos skip]
    rcases skip with infinite | dominated <;> simp_all
  · rw [if_neg skip]
    rw [not_or, Bool.not_eq_true] at skip
    cases depth <;> simp [skip]

theorem merge_changed (m : ValueMap) (label : Label) (value : Value) :
    (m.merge label value).2 = true ↔ value ≠ Value.posInf ∧ m.dominates label value = false :=
  mergeWithin_changed _ _ _ _

theorem dominates_merge (h : m.dominates l v = true) :
    (m.merge label value).1.dominates l v = true :=
  dominates_mergeWithin _ h

theorem merge_dominates_self (m : ValueMap) (label : Label) (finite : value ≠ Value.posInf) :
    (m.merge label value).1.dominates label value = true :=
  mergeWithin_dominates_self _ _ _ finite

end ValueMap

namespace UpperCaseMap

variable {u : UpperCaseMap} {case c : CaseLabel} {label l : Label} {value v : Value}

theorem dominates_iff : u.dominates case label value = true ↔
    ∃ g ∈ u.groups, g.1.subset case = true ∧ g.2.dominates label value = true := by
  simp [dominates]

theorem mem_mapGroups {f : CaseLabel → ValueMap → ValueMap} {g : CaseLabel × ValueMap} :
    g ∈ (u.mapGroups f).groups ↔ ∃ m, (g.1, m) ∈ u.groups ∧ f g.1 m = g.2 ∧ g.2.isEmpty = false := by
  obtain ⟨c, m'⟩ := g
  simp only [mapGroups, List.mem_filter, List.mem_map, Prod.mk.injEq, Prod.exists,
    Bool.not_eq_true']
  constructor
  · rintro ⟨⟨c, m, mem, rfl, rfl⟩, full⟩
    exact ⟨m, mem, rfl, full⟩
  · rintro ⟨m, mem, rfl, full⟩
    exact ⟨⟨c, m, mem, rfl, rfl⟩, full⟩

theorem mem_mapGroups_of_dominates {f : CaseLabel → ValueMap → ValueMap} {m : ValueMap}
    (mem : (c, m) ∈ u.groups) (h : (f c m).dominates label value = true) :
    (c, f c m) ∈ (u.mapGroups f).groups := by
  refine mem_mapGroups.mpr ⟨m, mem, rfl, ?_⟩
  obtain ⟨e, stored, _⟩ := ValueMap.dominates_iff.mp h
  simp only [ValueMap.isEmpty, List.isEmpty_eq_false_iff]
  exact List.ne_nil_of_mem stored

theorem mem_group {e : Label × Value} (h : e ∈ (u.group case).entries) :
    ∃ m, (case, m) ∈ u.groups ∧ e ∈ m.entries := by
  unfold group at h
  split at h
  · rename_i g found
    have key := List.find?_some found
    rw [beq_iff_eq] at key
    subst key
    exact ⟨g.2, List.mem_of_find?_eq_some found, h⟩
  · simp [ValueMap.empty] at h

theorem eq_of_compare {a b : CaseLabel} (h : compare a b = .eq) : a = b := by
  have same : a.mask.toNat = b.mask.toNat := Nat.compare_eq_eq.mp h
  cases a
  cases b
  simpa using BitVec.eq_of_toNat_eq same

theorem mem_insertGroup_self (case : CaseLabel) (m : ValueMap) (gs : List (CaseLabel × ValueMap)) :
    (case, m) ∈ insertGroup case m gs := by
  induction gs with
  | nil => simp [insertGroup]
  | cons g rest ih =>
    simp only [insertGroup]
    split
    · exact List.mem_cons_self
    · exact List.mem_cons_self
    · exact List.mem_cons_of_mem g ih

theorem mem_insertGroup_of_mem (case : CaseLabel) (m : ValueMap) {x : CaseLabel × ValueMap}
    (gs : List (CaseLabel × ValueMap)) (mem : x ∈ gs) :
    x ∈ insertGroup case m gs ∨ (gs.find? fun g => g.1 == case) = some x ∧ x.1 = case := by
  induction gs with
  | nil => cases mem
  | cons g rest ih =>
    simp only [insertGroup]
    split
    · exact Or.inl (List.mem_cons_of_mem _ mem)
    · rename_i same
      have key : case = g.1 := eq_of_compare same
      rcases List.mem_cons.mp mem with rfl | mem
      · exact Or.inr ⟨by simp [key], key.symm⟩
      · exact Or.inl (List.mem_cons_of_mem _ mem)
    · rename_i after
      have other : g.1 ≠ case := by
        rintro rfl
        have : compare g.1 g.1 = .eq := Nat.compare_eq_eq.mpr rfl
        rw [after] at this
        cases this
      rcases List.mem_cons.mp mem with rfl | mem
      · exact Or.inl List.mem_cons_self
      · rcases ih mem with kept | ⟨found, key⟩
        · exact Or.inl (List.mem_cons_of_mem _ kept)
        · exact Or.inr ⟨by simp [other, found], key⟩

theorem mem_insertGroup {case : CaseLabel} {m : ValueMap} {x : CaseLabel × ValueMap}
    (gs : List (CaseLabel × ValueMap)) (mem : x ∈ insertGroup case m gs) :
    x = (case, m) ∨ x ∈ gs := by
  induction gs with
  | nil => simpa [insertGroup] using mem
  | cons g rest ih =>
    simp only [insertGroup] at mem
    split at mem
    · simpa using mem
    · rcases List.mem_cons.mp mem with same | mem
      · exact Or.inl same
      · exact Or.inr (List.mem_cons_of_mem g mem)
    · rcases List.mem_cons.mp mem with same | mem
      · exact Or.inr (same ▸ List.mem_cons_self)
      · rcases ih mem with same | mem
        · exact Or.inl same
        · exact Or.inr (List.mem_cons_of_mem g mem)

/-- What remains of a map once `(case, label, value)` comes: the groups it refines lose what it
dominates. -/
def thinned (u : UpperCaseMap) (case : CaseLabel) (label : Label) (value : Value) : UpperCaseMap :=
  u.mapGroups fun c m => if case.subset c then m.dropDominated label value else m

theorem merge_eq (u : UpperCaseMap) (case : CaseLabel) (label : Label) (value : Value) :
    u.merge case label value =
      if case.isEmpty = true ∨ value = Value.posInf ∨ u.dominates case label value = true then
        (u, false)
      else
        (⟨insertGroup case (((u.thinned case label value).group case).merge label value).1
          (u.thinned case label value).groups⟩,
          (((u.thinned case label value).group case).merge label value).2) := by
  unfold merge
  rfl

theorem mem_thinned_group {e : Label × Value}
    (h : e ∈ ((u.thinned case label value).group case).entries) :
    ∃ m, (case, m) ∈ u.groups ∧ e ∈ m.entries := by
  obtain ⟨m, mem, stored⟩ := mem_group h
  obtain ⟨m', mem', same, _⟩ := mem_mapGroups.mp mem
  have kept : e ∈ (m'.dropDominated label value).entries := by
    simp only [CaseLabel.subset_refl, if_true] at same
    exact same ▸ stored
  exact ⟨m', mem', (ValueMap.mem_dropDominated.mp kept).1⟩

theorem merge_changed (u : UpperCaseMap) {case : CaseLabel} (label : Label) (value : Value)
    (lettered : case.isEmpty = false) : (u.merge case label value).2 = true ↔
      value ≠ Value.posInf ∧ u.dominates case label value = false := by
  rw [merge_eq]
  by_cases skip : value = Value.posInf ∨ u.dominates case label value = true
  · rw [if_pos (Or.inr skip)]
    rcases skip with infinite | dominated <;> simp_all
  · rw [if_neg (by simpa [lettered] using skip)]
    rw [not_or, Bool.not_eq_true] at skip
    have fresh : ((u.thinned case label value).group case).dominates label value = false := by
      rw [← Bool.not_eq_true]
      intro h
      obtain ⟨e, stored, general, le⟩ := ValueMap.dominates_iff.mp h
      obtain ⟨m, mem, stored⟩ := mem_thinned_group stored
      have dominated : u.dominates case label value = true :=
        dominates_iff.mpr ⟨(case, m), mem, CaseLabel.subset_refl case,
          ValueMap.dominates_iff.mpr ⟨e, stored, general, le⟩⟩
      rw [skip.2] at dominated
      cases dominated
    simp only [ValueMap.merge_changed, fresh, and_true, skip, ne_eq]

theorem merge_dominates_self (u : UpperCaseMap) {case : CaseLabel} (label : Label) {value : Value}
    (lettered : case.isEmpty = false) (finite : value ≠ Value.posInf) :
    (u.merge case label value).1.dominates case label value = true := by
  rw [merge_eq]
  split
  · rename_i skip
    simpa [lettered, finite] using skip
  · exact dominates_iff.mpr ⟨_, mem_insertGroup_self _ _ _, CaseLabel.subset_refl case,
      ValueMap.merge_dominates_self _ _ finite⟩

/-- Upper-case values bear letters. -/
def Lettered (u : UpperCaseMap) : Prop := ∀ c m, (c, m) ∈ u.groups → c.isEmpty = false

theorem Lettered.mapGroups (lettered : u.Lettered) (f : CaseLabel → ValueMap → ValueMap) :
    (u.mapGroups f).Lettered := by
  intro c m mem
  obtain ⟨m', mem', _⟩ := mem_mapGroups.mp mem
  exact lettered c m' mem'

theorem Lettered.merge (lettered : u.Lettered) (case : CaseLabel) (label : Label) (value : Value) :
    (u.merge case label value).1.Lettered := by
  intro c m mem
  rw [merge_eq] at mem
  split at mem
  · exact lettered c m mem
  · rename_i fresh
    rw [not_or, Bool.not_eq_true] at fresh
    rcases mem_insertGroup _ mem with same | kept
    · cases same
      exact fresh.1
    · exact lettered.mapGroups _ c m kept

theorem dropDominated_dominates {m : ValueMap} (label : Label) (value : Value)
    (h : m.dominates l v = true) :
    (m.dropDominated label value).dominates l v = true ∨
      l.subsumes label = true ∧ value ≤ v := by
  obtain ⟨e, mem, general, le⟩ := ValueMap.dominates_iff.mp h
  by_cases dropped : e.1.subsumes label = true ∧ value ≤ e.2
  · exact Or.inr ⟨Label.subsumes_trans general dropped.1, le_trans dropped.2 le⟩
  · refine Or.inl (ValueMap.dominates_iff.mpr ⟨e, ?_, general, le⟩)
    refine ValueMap.mem_dropDominated.mpr ⟨mem, fun sub => ?_⟩
    by_contra ge
    exact dropped ⟨sub, not_lt.mp ge⟩

theorem dominates_merge (h : u.dominates c l v = true) :
    (u.merge case label value).1.dominates c l v = true := by
  by_cases skip : case.isEmpty = true ∨ value = Value.posInf ∨ u.dominates case label value = true
  · rwa [merge_eq, if_pos skip]
  · have merged := skip
    rw [not_or, not_or, Bool.not_eq_true] at merged
    have self := u.merge_dominates_self label merged.1 merged.2.1
    obtain ⟨⟨k, m⟩, mem, letters, dominates⟩ := dominates_iff.mp h
    -- What dominated before is still there unless it has been dropped for the new value, which then
    -- dominates.
    by_cases covered : case.subset c = true ∧ l.subsumes label = true ∧ value ≤ v
    · obtain ⟨g, stored, sub, general⟩ := dominates_iff.mp self
      exact dominates_iff.mpr ⟨g, stored, CaseLabel.subset_trans sub covered.1,
        ValueMap.dominates_mono general covered.2.1 covered.2.2⟩
    · have kept : (if case.subset k then m.dropDominated label value else m).dominates l v =
          true := by
        split
        · rename_i refined
          rcases dropDominated_dominates label value dominates with kept | dropped
          · exact kept
          · exact absurd ⟨CaseLabel.subset_trans refined letters, dropped⟩ covered
        · exact dominates
      have thin : (k, if case.subset k then m.dropDominated label value else m) ∈
          (u.thinned case label value).groups := mem_mapGroups_of_dominates mem kept
      rw [merge_eq, if_neg skip]
      rcases mem_insertGroup_of_mem case
        (((u.thinned case label value).group case).merge label value).1 _ thin with
        stays | ⟨found, key⟩
      · exact dominates_iff.mpr ⟨_, stays, letters, kept⟩
      · refine dominates_iff.mpr ⟨_, mem_insertGroup_self _ _ _, ?_, ?_⟩
        · exact key ▸ letters
        · refine ValueMap.dominates_merge ?_
          rw [group, found]
          exact kept

theorem dominates_dropDominatedByOrdinary (label : Label) (value : Value)
    (h : u.dominates c l v = true) :
    (u.dropDominatedByOrdinary label value).dominates c l v = true ∨
      l.subsumes label = true ∧ value ≤ v := by
  obtain ⟨⟨k, m⟩, mem, letters, dominates⟩ := dominates_iff.mp h
  rcases dropDominated_dominates label value dominates with kept | dropped
  · have stays := mem_mapGroups_of_dominates
      (f := fun _ m => m.dropDominated label value) mem kept
    exact Or.inl (dominates_iff.mpr ⟨_, stays, letters, kept⟩)
  · exact Or.inr dropped

end UpperCaseMap

namespace LabeledEdge

variable {e : LabeledEdge} {case c : CaseLabel} {label l : Label} {value v : Value}

/-- Whether the edge holds a value which makes `(case, label, value)` redundant. -/
def Covers (e : LabeledEdge) (case : CaseLabel) (label : Label) (value : Value) : Prop :=
  e.values.dominates label value = true ∨
    case.isEmpty = false ∧ e.upper.dominates case label value = true

/-- A merge reports a change exactly if the value is finite or `−∞` and not covered. -/
theorem merge_changed (e : LabeledEdge) (case : CaseLabel) (label : Label) (value : Value) :
    (e.merge case label value).2 = true ↔
      value ≠ Value.posInf ∧ ¬ e.Covers case label value := by
  unfold merge Covers
  cases lettered : case.isEmpty with
  | true =>
    have changed := e.values.merge_changed label value
    simp only [if_true, mergeOrdinary, Bool.true_eq_false, false_and, or_false, Bool.not_eq_true]
    split <;> simp_all
  | false =>
    have changed := e.upper.merge_changed label value lettered
    simp only [Bool.false_eq_true, if_false, true_and, not_or, Bool.not_eq_true]
    split
    · simp_all
    · simp only [changed]
      simp_all

theorem merge_of_unchanged (h : (e.merge case label value).2 = false) :
    (e.merge case label value).1 = e := by
  revert h
  unfold merge mergeOrdinary
  split
  · split
    · intro h
      cases h
    · intro _
      rfl
  · split
    · intro _
      rfl
    · intro h
      have skip : case.isEmpty = true ∨ value = Value.posInf ∨
          e.upper.dominates case label value = true := by
        by_contra fresh
        rw [not_or, not_or, Bool.not_eq_true, Bool.not_eq_true] at fresh
        have changed := (e.upper.merge_changed label value fresh.1).mpr fresh.2
        exact absurd changed (by simpa using h)
      rw [UpperCaseMap.merge_eq, if_pos skip]

theorem merge_of_covers (h : value = Value.posInf ∨ e.Covers case label value) :
    e.merge case label value = (e, false) := by
  have same : (e.merge case label value).2 = false := by
    rw [← Bool.not_eq_true, merge_changed]
    tauto
  exact Prod.ext (merge_of_unchanged same) same

theorem merge_covers_self (e : LabeledEdge) (case : CaseLabel) (label : Label)
    (finite : value ≠ Value.posInf) : (e.merge case label value).1.Covers case label value := by
  unfold merge
  cases lettered : case.isEmpty with
  | true =>
    have self := e.values.merge_dominates_self label finite
    simp only [if_true, mergeOrdinary]
    split
    · rename_i values h
      rw [h] at self
      exact Or.inl self
    · rename_i h
      refine Or.inl ?_
      have changed := e.values.merge_changed label value
      rw [h] at changed
      simpa [finite] using changed
  | false =>
    have self := e.upper.merge_dominates_self label lettered finite
    simp only [Bool.false_eq_true, if_false]
    split
    · rename_i dominated
      exact Or.inl dominated
    · exact Or.inr ⟨lettered, self⟩

theorem values_dominates_merge (h : e.values.dominates l v = true) :
    (e.merge case label value).1.values.dominates l v = true := by
  unfold merge mergeOrdinary
  split
  · split
    · rename_i values merged
      have values_eq : (e.values.merge label value).1 = values := by rw [merged]
      exact values_eq ▸ ValueMap.dominates_merge h
    · exact h
  · split <;> exact h

/-- What an upper-case value makes redundant is redundant after a merge; if not because of an
upper-case value, then because of an ordinary one. -/
theorem upper_dominates_merge (h : e.upper.dominates c l v = true) :
    (e.merge case label value).1.values.dominates l v = true ∨
      (e.merge case label value).1.upper.dominates c l v = true := by
  unfold merge mergeOrdinary
  split
  · split
    · rename_i values merged
      have values_eq : (e.values.merge label value).1 = values := by rw [merged]
      have changed : (e.values.merge label value).2 = true := by rw [merged]
      have finite := ((e.values.merge_changed label value).mp changed).1
      rcases UpperCaseMap.dominates_dropDominatedByOrdinary label value h with kept | dropped
      · exact Or.inr kept
      · have self := e.values.merge_dominates_self label finite
        exact Or.inl (values_eq ▸ ValueMap.dominates_mono self dropped.1 dropped.2)
    · exact Or.inr h
  · split
    · exact Or.inr h
    · exact Or.inr (UpperCaseMap.dominates_merge h)

theorem covers_merge (h : e.Covers c l v) : (e.merge case label value).1.Covers c l v := by
  rcases h with ordinary | ⟨lettered, upper⟩
  · exact Or.inl (values_dominates_merge ordinary)
  · exact (upper_dominates_merge upper).imp_right fun kept => ⟨lettered, kept⟩

theorem lettered_merge (lettered : e.upper.Lettered) (case : CaseLabel) (label : Label)
    (value : Value) : (e.merge case label value).1.upper.Lettered := by
  unfold merge mergeOrdinary
  split
  · split
    · exact lettered.mapGroups _
    · exact lettered
  · split
    · exact lettered
    · exact lettered.merge case label value

theorem lettered_erase (lettered : e.upper.Lettered) (case : CaseLabel) (label : Label) :
    (e.erase case label).upper.Lettered := by
  unfold erase
  split
  · exact lettered
  · exact lettered.mapGroups _

end LabeledEdge

end TemporalNetwork
