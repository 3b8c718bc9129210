import Mathlib.Data.List.Nodup
import TemporalNetwork.Network.NameIndex

/-!
What the operations on a table of names do to its entries. A table lists the names that `label` gives
to numbers if these are its entries and no name comes twice; then looking a name up finds the number
that has it.
-/

namespace TemporalNetwork.NameIndex

variable {i : NameIndex} {label : Nat → Option String} {name old : String} {k : Nat}

structure Lists (i : NameIndex) (label : Nat → Option String) : Prop where
  mem_iff : ∀ name k, (name, k) ∈ i.entries ↔ label k = some name
  distinct : (i.entries.map Prod.fst).Nodup

theorem lists_empty : empty.Lists fun _ => none where
  mem_iff := by simp [empty]
  distinct := List.nodup_nil

theorem mem_erase {e : String × Nat} : e ∈ (i.erase name).entries ↔ e ∈ i.entries ∧ e.1 ≠ name := by
  simp [erase]

theorem mem_insert {e : String × Nat} :
    e ∈ (i.insert name k).entries ↔ e = (name, k) ∨ e ∈ i.entries ∧ e.1 ≠ name := by
  rw [insert, List.mem_cons, mem_erase]

namespace Lists

theorem find?_eq_some_iff (l : i.Lists label) : i.find? name = some k ↔ label k = some name := by
  rw [← l.mem_iff, find?, Option.map_eq_some_iff]
  constructor
  · rintro ⟨⟨name', k⟩, found, rfl⟩
    have same : name' = name := by simpa using List.find?_some found
    exact same ▸ List.mem_of_find?_eq_some found
  · intro mem
    have present : (i.entries.find? fun e => e.1 == name).isSome = true :=
      List.find?_isSome.mpr ⟨(name, k), mem, by simp⟩
    obtain ⟨entry, found⟩ := Option.isSome_iff_exists.mp present
    have same : entry.1 = name := by simpa using List.find?_some found
    have unique := List.inj_on_of_nodup_map l.distinct (List.mem_of_find?_eq_some found) mem same
    exact ⟨entry, found, by rw [unique]⟩

theorem find?_eq_none_iff (l : i.Lists label) : i.find? name = none ↔ ∀ k, label k ≠ some name := by
  rw [Option.eq_none_iff_forall_ne_some]
  exact forall_congr' fun k => not_congr l.find?_eq_some_iff

theorem unique (l : i.Lists label) {j k : Nat} (hj : label j = some name)
    (hk : label k = some name) : j = k := by
  rw [← l.find?_eq_some_iff] at hj hk
  exact Option.some.inj (hj.symm.trans hk)

theorem congr {label' : Nat → Option String} (l : i.Lists label) (same : ∀ k, label' k = label k) :
    i.Lists label' :=
  funext same ▸ l

theorem erase (l : i.Lists label) (named : label k = some old) :
    (i.erase old).Lists fun j => if j = k then none else label j where
  mem_iff name j := by
    rw [mem_erase, l.mem_iff]
    by_cases same : j = k
    · subst same
      simp [named, eq_comm]
    · have apart : label j = some name → name ≠ old := by
        rintro hj rfl
        exact same (l.unique hj named)
      simpa [same] using apart
  distinct := l.distinct.sublist (List.filter_sublist.map Prod.fst)

/-- A nameless number takes a name, from the one that has it if there is one. -/
theorem insert (l : i.Lists label) (nameless : label k = none) (name : String) :
    (i.insert name k).Lists fun j =>
      if j = k then some name else if label j = some name then none else label j where
  mem_iff s j := by
    rw [mem_insert, l.mem_iff]
    by_cases same : j = k
    · subst same
      simp [nameless, eq_comm]
    · by_cases taken : label j = some name
      · simpa [same, taken] using Eq.symm
      · have apart : label j = some s → s ≠ name := by
          rintro hj rfl
          exact taken hj
        simpa [same, taken] using apart
  distinct := by
    refine List.nodup_cons.mpr ⟨?_, l.distinct.sublist (List.filter_sublist.map Prod.fst)⟩
    simp [NameIndex.erase]

theorem insert_unused (l : i.Lists label) (nameless : label k = none)
    (unused : ∀ j, label j ≠ some name) :
    (i.insert name k).Lists fun j => if j = k then some name else label j := by
  refine (l.insert nameless name).congr fun j => ?_
  rw [if_neg (unused j)]

theorem rename (l : i.Lists label) (named : label k = some old) (unused : ∀ j, label j ≠ some name) :
    ((i.erase old).insert name k).Lists fun j => if j = k then some name else label j := by
  have unused' : ∀ j, (if j = k then none else label j) ≠ some name := by
    intro j
    split
    · nofun
    · exact unused j
  refine ((l.erase named).insert_unused (if_pos rfl) unused').congr fun j => ?_
  split <;> rfl

theorem size_eq (l : i.Lists label) {ks : List Nat} (nodup : ks.Nodup)
    (named : ∀ k, k ∈ ks ↔ (label k).isSome = true) : i.size = ks.length := by
  have distinct : (i.entries.map Prod.snd).Nodup := by
    refine List.Nodup.map_on ?_ (List.Nodup.of_map Prod.fst l.distinct)
    rintro ⟨name, j⟩ hj ⟨name', j'⟩ hj' (rfl : j = j')
    have same := (l.mem_iff name j).mp hj
    rw [(l.mem_iff name' j).mp hj'] at same
    rw [Option.some.inj same]
  have same : (i.entries.map Prod.snd).Perm ks := by
    refine (List.perm_ext_iff_of_nodup distinct nodup).mpr fun j => ?_
    simp only [named, List.mem_map, Prod.exists, exists_eq_right, l.mem_iff,
      Option.isSome_iff_exists]
  simpa [size] using same.length_eq

end Lists

end TemporalNetwork.NameIndex
