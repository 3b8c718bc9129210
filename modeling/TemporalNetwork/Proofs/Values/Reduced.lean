import TemporalNetwork.Proofs.Values.Covering

/-!
The values of an edge are kept reduced: no entry is made redundant by another one, and no two entries
remain which could be joined into one. Joining twins is a cascade in which entries disappear while
the twins of an older entry are still being looked up, so the argument is about pairs of labels: a
merge never makes a pair of twins out of labels that were not both stored before.
-/

namespace TemporalNetwork

namespace Label

/-- Whether the labels differ in one literal only, which is straight in the one and negated in the
other. -/
def Twins (a b : Label) : Prop :=
  ∃ l : Literal, l.state ≠ .unknown ∧ a.state l.proposition = some l.state ∧
    b.state l.proposition = some l.complement.state ∧
    ∀ q, q ≠ l.proposition → a.state q = b.state q

theorem Twins.symm {a b : Label} (h : a.Twins b) : b.Twins a := by
  obtain ⟨l, known, here, there, same⟩ := h
  refine ⟨l.complement, ?_, there, ?_, fun q other => (same q other).symm⟩
  · obtain ⟨p, s⟩ := l
    cases s <;> simp_all [Literal.complement, LiteralState.complement]
  · obtain ⟨p, s⟩ := l
    cases s <;> simp_all [Literal.complement, LiteralState.complement]

theorem mem_flippable {a : Label} {l : Literal} :
    l ∈ ValueMap.flippable a ↔ a.state l.proposition = some l.state ∧ l.state ≠ .unknown := by
  simp [ValueMap.flippable]

theorem twins_iff {a b : Label} :
    a.Twins b ↔ ∃ l ∈ ValueMap.flippable a, b = a.replace l.complement := by
  constructor
  · rintro ⟨l, known, here, there, same⟩
    refine ⟨l, mem_flippable.mpr ⟨here, known⟩, ext_state fun q => ?_⟩
    rw [state_replace]
    split
    · rename_i at_l
      exact at_l ▸ there
    · rename_i other
      exact (same q fun h => other h.symm).symm
  · rintro ⟨l, mem, rfl⟩
    obtain ⟨here, known⟩ := mem_flippable.mp mem
    refine ⟨l, known, here, ?_, fun q other => ?_⟩
    · rw [state_replace]
      exact if_pos rfl
    · rw [state_replace]
      exact (if_neg fun h => other h.symm).symm

theorem size_erase_lt {a : Label} {p : Proposition} (present : a.state p ≠ none) :
    (a.erase p).size < a.size := by
  refine size_lt_of_subsumes (a.subsumes_erase p) fun same => present ?_
  rw [← same, state_erase, if_pos rfl]

theorem size_erase_flippable {a : Label} {l : Literal} (mem : l ∈ ValueMap.flippable a) :
    (a.erase l.proposition).size < a.size := by
  refine size_erase_lt ?_
  rw [(mem_flippable.mp mem).1]
  simp

end Label

namespace ValueMap

/-- No entry is made redundant by another one. -/
structure Irredundant (m : ValueMap) : Prop where
  /-- There is at most one entry per label. -/
  ordered : m.entries.Pairwise fun x y => compare x.1 y.1 = .lt
  /-- An entry whose label refines that of another one has a smaller value. -/
  minimal : ∀ x ∈ m.entries, ∀ y ∈ m.entries, x.1.subsumes y.1 = true → y.2 ≤ x.2 → x = y
  bounded : ∀ x ∈ m.entries, x.2 ≠ Value.posInf

/-- Moreover, no two entries could be joined. -/
structure Reduced (m : ValueMap) : Prop extends Irredundant m where
  twinless : ∀ x ∈ m.entries, ∀ y ∈ m.entries, ¬ x.1.Twins y.1

/-- One operation on a map. -/
inductive Edit where
  | merge (label : Label) (value : Value)
  | erase (label : Label)
  | dropDominated (label : Label) (value : Value)
  | dropUnknown
  | clear
  deriving DecidableEq, Repr

def edit (m : ValueMap) : Edit → ValueMap
  | .merge label value => (m.merge label value).1
  | .erase label => m.erase label
  | .dropDominated label value => m.dropDominated label value
  | .dropUnknown => m.dropUnknown
  | .clear => empty

/-- What the operations leave of the empty map, from the first to the last. -/
def edits (es : List Edit) : ValueMap := es.foldl edit empty

variable {m : ValueMap} {label : Label} {value : Value}

theorem pairwise_insertEntry {es : List (Label × Value)}
    (ordered : es.Pairwise fun x y => compare x.1 y.1 = .lt) :
    (insertEntry label value es).Pairwise fun x y => compare x.1 y.1 = .lt := by
  induction es with
  | nil => simp [insertEntry]
  | cons e rest ih =>
    obtain ⟨first, others⟩ := List.pairwise_cons.mp ordered
    simp only [insertEntry]
    split
    · rename_i before
      refine List.pairwise_cons.mpr ⟨fun x mem => ?_, ordered⟩
      rcases List.mem_cons.mp mem with same | mem
      · exact same ▸ before
      · exact Std.TransCmp.lt_trans before (first x mem)
    · rename_i same
      have key : label = e.1 := Std.LawfulEqCmp.eq_of_compare same
      exact List.pairwise_cons.mpr ⟨fun x mem => key ▸ first x mem, others⟩
    · rename_i after
      refine List.pairwise_cons.mpr ⟨fun x mem => ?_, ih others⟩
      rcases mem_of_mem_insertEntry rest mem with same | mem
      · exact same ▸ Std.OrientedCmp.gt_iff_lt.mp after
      · exact first x mem

theorem irredundant_empty : empty.Irredundant where
  ordered := List.Pairwise.nil
  minimal _ mem := nomatch mem
  bounded _ mem := nomatch mem

theorem Irredundant.of_sublist {n : ValueMap} (h : m.Irredundant)
    (fewer : n.entries.Sublist m.entries) : n.Irredundant where
  ordered := h.ordered.sublist fewer
  minimal x hx y hy := h.minimal x (fewer.subset hx) y (fewer.subset hy)
  bounded x hx := h.bounded x (fewer.subset hx)

theorem Reduced.of_sublist {n : ValueMap} (h : m.Reduced) (fewer : n.entries.Sublist m.entries) :
    n.Reduced where
  toIrredundant := h.toIrredundant.of_sublist fewer
  twinless x hx y hy := h.twinless x (fewer.subset hx) y (fewer.subset hy)

theorem Irredundant.value_unique (h : m.Irredundant) {v w : Value} (first : (label, v) ∈ m.entries)
    (second : (label, w) ∈ m.entries) : v = w := by
  rcases le_total w v with smaller | larger
  · exact congrArg Prod.snd (h.minimal _ first _ second (Label.subsumes_refl label) smaller)
  · exact congrArg Prod.snd (h.minimal _ second _ first (Label.subsumes_refl label) larger).symm

theorem mem_place {x : Label × Value} (mem : x ∈ (m.place label value).entries) :
    x = (label, value) ∨ x ∈ (m.dropDominated label value).entries :=
  mem_of_mem_insertEntry _ mem

theorem irredundant_place (h : m.Irredundant) (finite : value ≠ Value.posInf)
    (fresh : m.dominates label value = false) : (m.place label value).Irredundant where
  ordered := pairwise_insertEntry (h.ordered.sublist List.filter_sublist)
  minimal x hx y hy refines le := by
    rcases mem_place hx with rfl | hx
    · rcases mem_place hy with rfl | hy
      · rfl
      · have dominated : m.dominates label value = true :=
          dominates_iff.mpr ⟨y, (mem_dropDominated.mp hy).1, refines, le⟩
        rw [fresh] at dominated
        cases dominated
    · rcases mem_place hy with rfl | hy
      · exact absurd ((mem_dropDominated.mp hx).2 refines) (not_lt.mpr le)
      · exact h.minimal x (mem_dropDominated.mp hx).1 y (mem_dropDominated.mp hy).1 refines le
  bounded x hx := by
    rcases mem_place hx with rfl | hx
    · exact finite
    · exact h.bounded x (mem_dropDominated.mp hx).1

theorem max_ne_posInf {v w : Value} (hv : v ≠ Value.posInf) (hw : w ≠ Value.posInf) :
    max v w ≠ Value.posInf := by
  rcases max_choice v w with same | same
  · rwa [same]
  · rwa [same]

theorem irredundant_mergeWithin (h : m.Irredundant) (label : Label) (finite : value ≠ Value.posInf)
    (depth : Nat) : (mergeWithin depth m label value).1.Irredundant :=
  mergeWithin_induct (P := Irredundant) (Q := fun _ v => v ≠ Value.posInf)
    (fun _ _ _ holds finite fresh => irredundant_place holds finite fresh)
    (fun _ _ _ _ _ holds finite _ found =>
      max_ne_posInf finite (holds.bounded _ (mem_of_get? found)))
    depth m label value h finite

theorem mem_mergeWithin (depth : Nat) {x : Label × Value}
    (mem : x ∈ (mergeWithin depth m label value).1.entries) :
    x ∈ m.entries ∨ label.subsumes x.1 = true := by
  refine mergeWithin_induct
    (P := fun n => ∀ x ∈ n.entries, x ∈ m.entries ∨ label.subsumes x.1 = true)
    (Q := fun l _ => label.subsumes l = true) ?_ ?_ depth m label value
    (fun x mem => Or.inl mem) (Label.subsumes_refl label) x mem
  · intro n l v holds refines _ x mem
    rcases mem_place mem with rfl | kept
    · exact Or.inr refines
    · exact holds x (mem_dropDominated.mp kept).1
  · intro n l v literal twin _ refines _ _
    exact Label.subsumes_trans refines (l.subsumes_erase literal.proposition)

/-- An entry whose label has one of the literals of a merged label that lacks it stays as it is. -/
theorem mem_of_mem_mergeWithin_erase (depth : Nat) {l : Label} {p : Proposition} {v w : Value}
    (present : l.state p ≠ none)
    (mem : (l, v) ∈ (mergeWithin depth m (label.erase p) w).1.entries) : (l, v) ∈ m.entries := by
  refine (mem_mergeWithin depth mem).resolve_right ?_
  refine Label.not_subsumes_of_absent (p := p) ?_ present
  rw [Label.state_erase, if_pos rfl]

/-- Whether every pair of twins among the labels of `n` is one among the labels of `m`. -/
def NoNewTwins (m n : ValueMap) : Prop :=
  ∀ a b : Label, a.Twins b → a ∈ n.labels → b ∈ n.labels → a ∈ m.labels ∧ b ∈ m.labels

theorem NoNewTwins.refl (m : ValueMap) : m.NoNewTwins m :=
  fun _ _ _ ha hb => ⟨ha, hb⟩

theorem NoNewTwins.trans {n k : ValueMap} (first : m.NoNewTwins n) (second : n.NoNewTwins k) :
    m.NoNewTwins k := by
  intro a b twins ha hb
  obtain ⟨ha, hb⟩ := second a b twins ha hb
  exact first a b twins ha hb

theorem mem_labels {l : Label} : l ∈ m.labels ↔ ∃ v, (l, v) ∈ m.entries := by
  simp [labels]

/-- The invariant of the loop over the literals of a merged label: where the label is still stored,
it is with the value that was merged. -/
structure Joining (label : Label) (value : Value) (n : ValueMap) : Prop extends Irredundant n where
  current : ∀ v, (label, v) ∈ n.entries → v = value

/-- Once a label has been joined with its twin, one of them is gone: both refine the joined label, and
the joined value is the larger one of theirs. -/
theorem joining_joinTwin {n : ValueMap} (h : Joining label value n) (finite : value ≠ Value.posInf)
    {depth : Nat} {l : Literal} (mem : l ∈ flippable label)
    (cascade : ∀ w, w ≠ Value.posInf →
      n.NoNewTwins (mergeWithin depth n (label.erase l.proposition) w).1) :
    Joining label value (joinTwin depth label value n l) ∧
      n.NoNewTwins (joinTwin depth label value n l) ∧
      (label ∈ (joinTwin depth label value n l).labels →
        label.replace l.complement ∉ (joinTwin depth label value n l).labels) := by
  obtain ⟨stated, _⟩ := Label.mem_flippable.mp mem
  have here : label.state l.proposition ≠ none := by simp [stated]
  have there : (label.replace l.complement).state l.proposition ≠ none := by
    rw [Label.state_replace]
    simp [Literal.complement]
  unfold ValueMap.joinTwin
  split
  · rename_i twin found
    have joined := max_ne_posInf finite (h.bounded _ (mem_of_get? found))
    have irredundant := irredundant_mergeWithin h.toIrredundant (label.erase l.proposition) joined depth
    have current : ∀ v, (label, v) ∈ (ValueMap.mergeWithin depth n (label.erase l.proposition)
        (max value twin)).1.entries → v = value :=
      fun v stored => h.current v (mem_of_mem_mergeWithin_erase depth here stored)
    refine ⟨⟨irredundant, current⟩, cascade _ joined, fun stored other => ?_⟩
    obtain ⟨v, stored⟩ := mem_labels.mp stored
    obtain ⟨w, other⟩ := mem_labels.mp other
    have hv : v = value := current v stored
    have hw : w = twin := h.value_unique (mem_of_mem_mergeWithin_erase depth there other)
      (mem_of_get? found)
    obtain ⟨e, mem', general, le⟩ := dominates_iff.mp
      (mergeWithin_dominates_self depth n (label.erase l.proposition) joined)
    have absent : e.1.state l.proposition = none := by
      cases h : e.1.state l.proposition with
      | none => rfl
      | some s =>
        have := Label.subsumes_iff.mp general _ s h
        simp at this
    -- Whichever value is the larger one, its entry is now redundant.
    rcases le_total value twin with larger | larger
    · rw [max_eq_right larger] at le
      have same := irredundant.minimal _ other e mem'
        (Label.subsumes_trans (label.replace_subsumes_erase l.complement) general) (hw ▸ le)
      rw [← same] at absent
      exact there absent
    · rw [max_eq_left larger] at le
      have same := irredundant.minimal _ stored e mem'
        (Label.subsumes_trans (label.subsumes_erase l.proposition) general) (hv ▸ le)
      rw [← same] at absent
      exact here absent
  · rename_i missing
    refine ⟨h, .refl n, fun _ other => ?_⟩
    obtain ⟨w, other⟩ := mem_labels.mp other
    rw [get?, Option.map_eq_none_iff, List.find?_eq_none] at missing
    simpa using missing _ other

theorem noNewTwins_joinTwins {n : ValueMap} (h : Joining label value n) (finite : value ≠ Value.posInf)
    {depth : Nat} (ls : List Literal) (within : ∀ l ∈ ls, l ∈ flippable label)
    (cascade : ∀ (n : ValueMap) (l : Literal) (w : Value), n.Irredundant → l ∈ flippable label →
      w ≠ Value.posInf → n.NoNewTwins (mergeWithin depth n (label.erase l.proposition) w).1) :
    n.NoNewTwins (ls.foldl (joinTwin depth label value) n) ∧
      ∀ l ∈ ls, label ∈ (ls.foldl (joinTwin depth label value) n).labels →
        label.replace l.complement ∉ (ls.foldl (joinTwin depth label value) n).labels := by
  induction ls generalizing n with
  | nil => exact ⟨.refl n, fun l mem => nomatch mem⟩
  | cons l rest ih =>
    have flips := within l List.mem_cons_self
    obtain ⟨next, fewer, apart⟩ := joining_joinTwin h finite flips fun w =>
      cascade n l w h.toIrredundant flips
    obtain ⟨fewer', others⟩ := ih next fun l mem => within l (List.mem_cons_of_mem _ mem)
    refine ⟨fewer.trans fewer', fun k mem stored other => ?_⟩
    rcases List.mem_cons.mp mem with rfl | mem
    · obtain ⟨stored, other⟩ := fewer' _ _ (Label.twins_iff.mpr ⟨k, flips, rfl⟩) stored other
      exact apart stored other
    · exact others k mem stored other

theorem mem_labels_place {l : Label} (mem : l ∈ (m.place label value).labels) (other : l ≠ label) :
    l ∈ m.labels := by
  obtain ⟨v, mem⟩ := mem_labels.mp mem
  rcases mem_place mem with same | kept
  · exact absurd (congrArg Prod.fst same) other
  · exact mem_labels.mpr ⟨v, (mem_dropDominated.mp kept).1⟩

theorem joining_place (h : m.Irredundant) (finite : value ≠ Value.posInf)
    (fresh : m.dominates label value = false) : Joining label value (m.place label value) where
  toIrredundant := irredundant_place h finite fresh
  current _ stored :=
    (irredundant_place h finite fresh).value_unique stored (mem_insertEntry_self _ _ _)

/-- A merge makes no new twins. -/
theorem noNewTwins_mergeWithin (h : m.Irredundant) (finite : value ≠ Value.posInf)
    {depth : Nat} (deep : label.size ≤ depth) : m.NoNewTwins (mergeWithin depth m label value).1 := by
  induction depth generalizing m label value with
  | zero =>
    rw [mergeWithin_eq]
    split
    · exact .refl m
    · -- The label has no literals, and so no twins.
      have lonely : ∀ b, ¬ label.Twins b := by
        intro b twins
        obtain ⟨l, mem, _⟩ := Label.twins_iff.mp twins
        have := Label.size_erase_flippable mem
        omega
      intro a b twins ha hb
      refine ⟨mem_labels_place ha ?_, mem_labels_place hb ?_⟩
      · rintro rfl
        exact lonely b twins
      · rintro rfl
        exact lonely a twins.symm
  | succ depth ih =>
    rw [mergeWithin_eq]
    split
    · exact .refl m
    · rename_i fresh
      rw [not_or, Bool.not_eq_true] at fresh
      have cascade : ∀ (n : ValueMap) (l : Literal) (w : Value), n.Irredundant →
          l ∈ flippable label → w ≠ Value.posInf →
          n.NoNewTwins (mergeWithin depth n (label.erase l.proposition) w).1 := by
        intro n l w irredundant mem bounded
        have := Label.size_erase_flippable mem
        exact ih irredundant bounded (by omega)
      obtain ⟨fewer, apart⟩ := noNewTwins_joinTwins (joining_place h finite fresh.2) finite
        (flippable label) (fun _ => id) cascade
      have lonely : ∀ b, label.Twins b →
          label ∈ ((flippable label).foldl (joinTwin depth label value) (m.place label value)).labels →
          b ∉ ((flippable label).foldl (joinTwin depth label value) (m.place label value)).labels := by
        intro b twins
        obtain ⟨l, mem, rfl⟩ := Label.twins_iff.mp twins
        exact apart l mem
      intro a b twins ha hb
      obtain ⟨placed, placed'⟩ := fewer a b twins ha hb
      refine ⟨mem_labels_place placed ?_, mem_labels_place placed' ?_⟩
      · rintro rfl
        exact lonely b twins ha hb
      · rintro rfl
        exact lonely a twins.symm hb ha

theorem Reduced.merge (h : m.Reduced) (label : Label) (value : Value) :
    (m.merge label value).1.Reduced := by
  by_cases finite : value = Value.posInf
  · rw [ValueMap.merge, mergeWithin_eq, if_pos (Or.inl finite)]
    exact h
  · refine ⟨irredundant_mergeWithin h.toIrredundant label finite _, fun x hx y hy twins => ?_⟩
    obtain ⟨hx, hy⟩ := noNewTwins_mergeWithin h.toIrredundant finite le_rfl x.1 y.1 twins
      (mem_labels.mpr ⟨x.2, hx⟩) (mem_labels.mpr ⟨y.2, hy⟩)
    obtain ⟨v, hx⟩ := mem_labels.mp hx
    obtain ⟨w, hy⟩ := mem_labels.mp hy
    exact h.twinless _ hx _ hy twins

theorem Reduced.edit (h : m.Reduced) (e : Edit) : (m.edit e).Reduced := by
  cases e with
  | merge label value => exact h.merge label value
  | erase label => exact h.of_sublist List.filter_sublist
  | dropDominated label value => exact h.of_sublist List.filter_sublist
  | dropUnknown => exact h.of_sublist List.filter_sublist
  | clear => exact ⟨irredundant_empty, fun _ mem => nomatch mem⟩

/-- Whatever is done to an empty map, it stays reduced. -/
theorem reduced_edits (es : List Edit) : (edits es).Reduced := by
  have start : empty.Reduced := ⟨irredundant_empty, fun _ mem => nomatch mem⟩
  exact List.foldlRecOn es edit start fun m holds e _ => holds.edit e

end ValueMap

end TemporalNetwork
