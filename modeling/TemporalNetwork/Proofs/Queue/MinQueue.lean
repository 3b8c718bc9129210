import Mathlib.Order.Basic
import Mathlib.Tactic.Linarith
import TemporalNetwork.Queue.MinQueue

/-!
The queue is a finite map from the waiting keys to their values. The heap and the table of places
list the same entries, the heap is ordered, and both operations keep this; `value?` is then the view
that says everything about a queue.
-/

namespace TemporalNetwork.MinQueue

variable {q : MinQueue} {i j : Nat}

def Indexed (q : MinQueue) : Prop :=
  ∀ key i, q.place? key = some i ↔ i < q.size ∧ q.keyAt i = key

def parent (i : Nat) : Nat := (i - 1) / 2

def Ordered (q : MinQueue) : Prop :=
  ∀ i, 0 < i → i < q.size → q.valueAt (parent i) ≤ q.valueAt i

structure WellFormed (q : MinQueue) : Prop where
  indexed : q.Indexed
  ordered : q.Ordered

theorem parent_lt (h : 0 < i) : parent i < i := by
  unfold parent
  omega

theorem wellFormed_empty : empty.WellFormed where
  indexed key i := by simp [place?, empty, size]
  ordered i _ inside := by simp [empty, size] at inside

theorem value?_empty (key : Nat) : empty.value? key = none := by
  simp [value?, place?, empty]

theorem Indexed.value?_eq_some_iff (indexed : q.Indexed) {key : Nat} {value : Int} :
    q.value? key = some value ↔ ∃ i, i < q.size ∧ q.entryAt i = (key, value) := by
  simp only [value?, Option.map_eq_some_iff, indexed key]
  constructor
  · intro ⟨i, ⟨inside, named⟩, valued⟩
    exact ⟨i, inside, Prod.ext named valued⟩
  · intro ⟨i, inside, same⟩
    exact ⟨i, ⟨inside, congrArg Prod.fst same⟩, congrArg Prod.snd same⟩

theorem Indexed.place?_keyAt (indexed : q.Indexed) (inside : i < q.size) :
    q.place? (q.keyAt i) = some i :=
  (indexed _ _).mpr ⟨inside, rfl⟩

theorem Indexed.keyAt_inj (indexed : q.Indexed) (hi : i < q.size) (hj : j < q.size)
    (same : q.keyAt i = q.keyAt j) : i = j := by
  have place := indexed.place?_keyAt hi
  rw [same, indexed.place?_keyAt hj] at place
  exact (Option.some.inj place).symm

theorem keyAt_lt_places (indexed : q.Indexed) (inside : i < q.size) :
    q.keyAt i < q.places.size := by
  have place := indexed.place?_keyAt inside
  by_contra beyond
  rw [place?, Array.getElem?_eq_none (by omega)] at place
  cases place

@[simp] theorem size_swap (q : MinQueue) (i j : Nat) : (q.swap i j).size = q.size := by
  simp [swap, size]

theorem entryAt_swap (hi : i < q.size) (hj : j < q.size) (k : Nat) :
    (q.swap i j).entryAt k =
      if k = j then q.entryAt i else if k = i then q.entryAt j else q.entryAt k := by
  unfold size at hi hj
  simp only [swap, entryAt, Array.getD_eq_getD_getElem?, Array.getElem?_setIfInBounds]
  grind

theorem keyAt_swap (hi : i < q.size) (hj : j < q.size) (k : Nat) :
    (q.swap i j).keyAt k =
      if k = j then q.keyAt i else if k = i then q.keyAt j else q.keyAt k := by
  rw [keyAt, entryAt_swap hi hj]
  split
  · rfl
  · split <;> rfl

theorem valueAt_swap (hi : i < q.size) (hj : j < q.size) (k : Nat) :
    (q.swap i j).valueAt k =
      if k = j then q.valueAt i else if k = i then q.valueAt j else q.valueAt k := by
  rw [valueAt, entryAt_swap hi hj]
  split
  · rfl
  · split <;> rfl

theorem place?_swap (indexed : q.Indexed) (hi : i < q.size) (hj : j < q.size) (key : Nat) :
    (q.swap i j).place? key =
      if key = q.keyAt j then some i else if key = q.keyAt i then some j else q.place? key := by
  have first := keyAt_lt_places indexed hi
  have second := keyAt_lt_places indexed hj
  unfold keyAt at first second ⊢
  simp only [swap, place?, Array.getElem?_setIfInBounds, Array.size_setIfInBounds]
  grind

theorem Indexed.swap (indexed : q.Indexed) (hi : i < q.size) (hj : j < q.size) :
    (q.swap i j).Indexed := by
  intro key k
  rw [place?_swap indexed hi hj, size_swap, keyAt_swap hi hj]
  have distinct := fun (hk : k < q.size) (same : q.keyAt k = q.keyAt i) =>
    indexed.keyAt_inj hk hi same
  have distinct' := fun (hk : k < q.size) (same : q.keyAt k = q.keyAt j) =>
    indexed.keyAt_inj hk hj same
  have apart := fun (same : q.keyAt i = q.keyAt j) => indexed.keyAt_inj hi hj same
  have place := indexed key k
  grind

theorem value?_swap (indexed : q.Indexed) (hi : i < q.size) (hj : j < q.size) (key : Nat) :
    (q.swap i j).value? key = q.value? key := by
  apply Option.ext
  intro value
  rw [(indexed.swap hi hj).value?_eq_some_iff, indexed.value?_eq_some_iff]
  simp only [size_swap, entryAt_swap hi hj]
  constructor
  · intro ⟨k, inside, same⟩
    split at same
    · exact ⟨i, hi, same⟩
    · split at same
      · exact ⟨j, hj, same⟩
      · exact ⟨k, inside, same⟩
  · intro ⟨k, inside, same⟩
    by_cases atI : k = i
    · subst atI
      exact ⟨j, hj, by simpa using same⟩
    · by_cases atJ : k = j
      · subst atJ
        exact ⟨i, hi, by
          by_cases both : i = k
          · exact absurd both.symm atI
          · simpa [both] using same⟩
      · exact ⟨k, inside, by simpa [atI, atJ] using same⟩

/-- What moving the entry at `hole` up needs: every other entry is in order with its parent, and the
children of the hole are in order with its parent. -/
structure UpOrder (q : MinQueue) (hole : Nat) : Prop where
  others : ∀ i, 0 < i → i < q.size → i ≠ hole → q.valueAt (parent i) ≤ q.valueAt i
  grand : 0 < hole → ∀ i, 0 < i → i < q.size → parent i = hole →
    q.valueAt (parent hole) ≤ q.valueAt i

/-- What moving the entry at `hole` down needs: every entry but the children of the hole is in order
with its parent, and these are in order with the parent of the hole. -/
structure DownOrder (q : MinQueue) (hole : Nat) : Prop where
  others : ∀ i, 0 < i → i < q.size → parent i ≠ hole → q.valueAt (parent i) ≤ q.valueAt i
  grand : 0 < hole → ∀ i, 0 < i → i < q.size → parent i = hole →
    q.valueAt (parent hole) ≤ q.valueAt i

theorem UpOrder.finish (order : q.UpOrder i) (done : i = 0 ∨ q.valueAt (parent i) ≤ q.valueAt i) :
    q.Ordered := by
  intro k positive inside
  by_cases here : k = i
  · subst here
    exact done.resolve_left (by omega)
  · exact order.others k positive inside here

theorem UpOrder.swap (order : q.UpOrder i) (positive : 0 < i) (inside : i < q.size)
    (smaller : q.valueAt i < q.valueAt (parent i)) : (q.swap (parent i) i).UpOrder (parent i) := by
  have above := parent_lt positive
  have outer : parent i < q.size := by omega
  constructor
  · intro k kpos kin other
    rw [size_swap] at kin
    rw [valueAt_swap outer inside, valueAt_swap outer inside]
    have below := parent_lt kpos
    -- After the swap `i` holds the old value of its parent, and the only place out of order is the
    -- parent.
    by_cases here : k = i
    · subst here
      rw [if_neg (by omega), if_pos rfl, if_pos rfl]
      exact smaller.le
    · rw [if_neg here, if_neg other]
      have inOrder := order.others k kpos kin here
      split
      · rename_i child
        exact order.grand positive k kpos kin child
      · split
        · rename_i sibling
          rw [sibling] at inOrder
          exact smaller.le.trans inOrder
        · exact inOrder
  · intro ppos k kpos kin child
    rw [size_swap] at kin
    have higher := parent_lt ppos
    rw [valueAt_swap outer inside, valueAt_swap outer inside, if_neg (by omega), if_neg (by omega)]
    have first := order.others (parent i) ppos outer (by omega)
    split
    · exact first
    · rename_i other
      have notParent : k ≠ parent i := by
        have := parent_lt kpos
        omega
      rw [if_neg notParent]
      have second := order.others k kpos kin other
      rw [child] at second
      exact first.trans second

theorem siftUp_succ (fuel : Nat) (q : MinQueue) (i : Nat) :
    siftUp (fuel + 1) q i =
      if i = 0 ∨ q.valueAt (parent i) ≤ q.valueAt i then q
      else siftUp fuel (q.swap (parent i) i) (parent i) := rfl

theorem siftUp_spec (fuel : Nat) (q : MinQueue) (i : Nat) (indexed : q.Indexed)
    (order : q.UpOrder i) (inside : i < q.size) (enough : i < fuel) :
    (siftUp fuel q i).WellFormed ∧ (siftUp fuel q i).size = q.size ∧
      ∀ key, (siftUp fuel q i).value? key = q.value? key := by
  induction fuel generalizing q i with
  | zero => omega
  | succ fuel ih =>
    rw [siftUp_succ]
    split
    · rename_i done
      exact ⟨⟨indexed, order.finish done⟩, rfl, fun _ => rfl⟩
    · rename_i rises
      have positive : 0 < i := by omega
      have above := parent_lt positive
      have outer : parent i < q.size := by omega
      have next := ih (q.swap (parent i) i) (parent i) (indexed.swap outer inside)
        (order.swap positive inside (by omega)) (by simpa using outer) (by omega)
      rw [size_swap] at next
      refine ⟨next.1, next.2.1, fun key => ?_⟩
      rw [← value?_swap indexed outer inside key]
      exact next.2.2 key

theorem children (h : parent i = j) (positive : 0 < i) : i = 2 * j + 1 ∨ i = 2 * j + 2 := by
  unfold parent at h
  omega

theorem smallestOfFamily_spec (q : MinQueue) (i : Nat) :
    (q.smallestOfFamily i = i ∨ 0 < q.smallestOfFamily i ∧ parent (q.smallestOfFamily i) = i ∧
      q.smallestOfFamily i < q.size ∧ q.valueAt (q.smallestOfFamily i) < q.valueAt i) ∧
    ∀ k, 0 < k → k < q.size → parent k = i → q.valueAt (q.smallestOfFamily i) ≤ q.valueAt k := by
  have left : parent (2 * i + 1) = i := by
    unfold parent
    omega
  have right : parent (2 * i + 2) = i := by
    unfold parent
    omega
  unfold smallestOfFamily
  refine ⟨by grind, fun k positive inside child => ?_⟩
  rcases children child positive with rfl | rfl <;> grind

theorem DownOrder.finish (order : q.DownOrder i)
    (done : ∀ k, 0 < k → k < q.size → parent k = i → q.valueAt i ≤ q.valueAt k) : q.Ordered := by
  intro k positive inside
  by_cases child : parent k = i
  · rw [child]
    exact done k positive inside child
  · exact order.others k positive inside child

theorem DownOrder.swap (order : q.DownOrder i) (positive : 0 < j) (child : parent j = i)
    (inside : j < q.size) (smaller : q.valueAt j < q.valueAt i)
    (least : ∀ k, 0 < k → k < q.size → parent k = i → q.valueAt j ≤ q.valueAt k) :
    (q.swap j i).DownOrder j := by
  have above := parent_lt positive
  have outer : i < q.size := by omega
  constructor
  · intro k kpos kin apart
    rw [size_swap] at kin
    have below := parent_lt kpos
    rw [valueAt_swap inside outer, valueAt_swap inside outer, if_neg apart]
    -- The smallest child has moved up to `i`, so the family of `i` is in order; the other families have
    -- not changed but for that of `j`.
    by_cases top : k = i
    · subst top
      rw [if_neg (by omega), if_pos rfl]
      exact order.grand kpos j positive inside child
    · rw [if_neg top]
      by_cases family : parent k = i
      · rw [if_pos family]
        split
        · exact smaller.le
        · exact least k kpos kin family
      · rw [if_neg family]
        have notChild : k ≠ j := by
          rintro rfl
          exact family child
        rw [if_neg notChild]
        exact order.others k kpos kin family
  · intro _ k kpos kin grandchild
    rw [size_swap] at kin
    have below := parent_lt kpos
    rw [child, valueAt_swap inside outer, valueAt_swap inside outer, if_pos rfl, if_neg (by omega),
      if_neg (by omega)]
    have inOrder := order.others k kpos kin (by omega)
    rwa [grandchild] at inOrder

theorem siftDown_spec (fuel : Nat) (q : MinQueue) (i : Nat) (indexed : q.Indexed)
    (order : q.DownOrder i) (enough : q.size ≤ fuel + i) :
    (siftDown fuel q i).WellFormed ∧ ∀ key, (siftDown fuel q i).value? key = q.value? key := by
  induction fuel generalizing q i with
  | zero =>
    refine ⟨⟨indexed, order.finish fun k positive inside child => ?_⟩, fun _ => rfl⟩
    have := parent_lt positive
    omega
  | succ fuel ih =>
    obtain ⟨place, least⟩ := smallestOfFamily_spec q i
    rw [siftDown]
    split
    · rename_i stays
      rw [stays] at least
      exact ⟨⟨indexed, order.finish least⟩, fun _ => rfl⟩
    · rename_i sinks
      obtain ⟨positive, child, inside, smaller⟩ := place.resolve_left sinks
      have above := parent_lt positive
      have outer : i < q.size := by omega
      have next := ih (q.swap (q.smallestOfFamily i) i) (q.smallestOfFamily i)
        (indexed.swap inside outer) (order.swap positive child inside smaller least)
        (by rw [size_swap]; omega)
      refine ⟨next.1, fun key => ?_⟩
      rw [← value?_swap indexed inside outer key]
      exact next.2 key

theorem entryAt_lower (hi : i < q.size) (entry : Nat × Int) (k : Nat) :
    ({ q with heap := q.heap.setIfInBounds i entry } : MinQueue).entryAt k =
      if k = i then entry else q.entryAt k := by
  unfold size at hi
  simp only [entryAt, Array.getD_eq_getD_getElem?, Array.getElem?_setIfInBounds]
  grind

theorem keyAt_lower (hi : i < q.size) (value : Int) (k : Nat) :
    ({ q with heap := q.heap.setIfInBounds i (q.keyAt i, value) } : MinQueue).keyAt k =
      q.keyAt k := by
  rw [keyAt, entryAt_lower hi]
  split
  · rename_i here
    rw [here]
  · rfl

theorem valueAt_lower (hi : i < q.size) (entry : Nat × Int) (k : Nat) :
    ({ q with heap := q.heap.setIfInBounds i entry } : MinQueue).valueAt k =
      if k = i then entry.2 else q.valueAt k := by
  rw [valueAt, entryAt_lower hi]
  split <;> rfl

theorem size_lower (q : MinQueue) (i : Nat) (entry : Nat × Int) :
    ({ q with heap := q.heap.setIfInBounds i entry } : MinQueue).size = q.size := by
  simp [size]

theorem Indexed.lower (indexed : q.Indexed) (hi : i < q.size) (value : Int) :
    ({ q with heap := q.heap.setIfInBounds i (q.keyAt i, value) } : MinQueue).Indexed := by
  intro key k
  rw [size_lower, keyAt_lower hi]
  exact indexed key k

theorem WellFormed.upOrder_lower (wf : q.WellFormed) (hi : i < q.size) {value : Int}
    (smaller : value < q.valueAt i) :
    ({ q with heap := q.heap.setIfInBounds i (q.keyAt i, value) } : MinQueue).UpOrder i := by
  constructor
  · intro k positive inside other
    rw [size_lower] at inside
    rw [valueAt_lower hi, valueAt_lower hi, if_neg other]
    have inOrder := wf.ordered k positive inside
    split
    · rename_i child
      rw [child] at inOrder
      exact smaller.le.trans inOrder
    · exact inOrder
  · intro positive k kpos inside child
    rw [size_lower] at inside
    have above := parent_lt positive
    have below := parent_lt kpos
    rw [valueAt_lower hi, valueAt_lower hi, if_neg (by omega), if_neg (by omega)]
    have inOrder := wf.ordered k kpos inside
    rw [child] at inOrder
    exact (wf.ordered i positive hi).trans inOrder

theorem value?_lower (indexed : q.Indexed) (hi : i < q.size) (value : Int) (key : Nat) :
    ({ q with heap := q.heap.setIfInBounds i (q.keyAt i, value) } : MinQueue).value? key =
      if key = q.keyAt i then some value else q.value? key := by
  have place := indexed.place?_keyAt hi
  change (q.place? key).map _ = _
  split
  · rename_i here
    rw [here, place, Option.map_some, valueAt_lower hi, if_pos rfl]
  · rename_i other
    rw [value?]
    cases found : q.place? key with
    | none => rfl
    | some k =>
      obtain ⟨_, named⟩ := (indexed key k).mp found
      rw [Option.map_some, Option.map_some, valueAt_lower hi, if_neg]
      rintro rfl
      exact other named.symm

/-- The queue with a new last entry. -/
def append (q : MinQueue) (key : Nat) (value : Int) : MinQueue :=
  ⟨q.heap.push (key, value),
    (q.places ++ Array.replicate (key + 1 - q.places.size) none).setIfInBounds key (some q.size)⟩

theorem size_append (q : MinQueue) (key : Nat) (value : Int) :
    (q.append key value).size = q.size + 1 := by
  simp [append, size]

theorem entryAt_append (q : MinQueue) (key : Nat) (value : Int) (k : Nat) :
    (q.append key value).entryAt k = if k = q.size then (key, value) else q.entryAt k := by
  simp only [append, entryAt, size, Array.getD_eq_getD_getElem?, Array.getElem?_push]
  split <;> rfl

theorem place?_append (q : MinQueue) (key : Nat) (value : Int) (other : Nat) :
    (q.append key value).place? other = if other = key then some q.size else q.place? other := by
  simp only [append, place?, Array.getElem?_setIfInBounds, Array.size_append,
    Array.size_replicate, Array.getElem?_append, Array.getElem?_replicate]
  grind

theorem Indexed.append (indexed : q.Indexed) {key : Nat} (absent : q.place? key = none)
    (value : Int) : (q.append key value).Indexed := by
  intro other k
  rw [place?_append, size_append, keyAt, entryAt_append]
  have place := indexed other k
  have missing := indexed key k
  rw [keyAt] at place missing
  rw [absent] at missing
  grind

theorem WellFormed.upOrder_append (wf : q.WellFormed) (key : Nat) (value : Int) :
    (q.append key value).UpOrder q.size := by
  constructor
  · intro k positive inside other
    rw [size_append] at inside
    have below := parent_lt positive
    rw [valueAt, valueAt, entryAt_append, entryAt_append, if_neg (by omega), if_neg other]
    exact wf.ordered k positive (by omega)
  · intro _ k positive inside child
    rw [size_append] at inside
    have below := parent_lt positive
    omega

theorem value?_append (indexed : q.Indexed) {key : Nat}
    (value : Int) (other : Nat) :
    (q.append key value).value? other = if other = key then some value else q.value? other := by
  rw [value?, place?_append]
  split
  · rw [Option.map_some, valueAt, entryAt_append, if_pos rfl]
  · rw [value?]
    cases found : q.place? other with
    | none => rfl
    | some k =>
      obtain ⟨inside, _⟩ := (indexed other k).mp found
      rw [Option.map_some, Option.map_some, valueAt, entryAt_append, if_neg (by omega)]
      rfl

/-- A key that waits keeps the lesser of its two values. -/
theorem insertOrDecrease_spec (wf : q.WellFormed) (key : Nat) (value : Int) :
    (q.insertOrDecrease key value).1.WellFormed ∧
    (∀ other, (q.insertOrDecrease key value).1.value? other =
      if other = key then some (min value ((q.value? key).getD value)) else q.value? other) ∧
    ((q.insertOrDecrease key value).2 = true ↔ ∀ old, q.value? key = some old → value < old) := by
  unfold insertOrDecrease
  cases found : q.place? key with
  | none =>
    have absent : q.value? key = none := by rw [value?, found, Option.map_none]
    have sifted := siftUp_spec (q.size + 1) (q.append key value) q.size
      (wf.indexed.append found value) (wf.upOrder_append key value)
      (by rw [size_append]; omega) (by omega)
    refine ⟨sifted.1, fun other => ?_, by simp [absent]⟩
    refine (sifted.2.2 other).trans ?_
    rw [value?_append wf.indexed, absent, Option.getD_none, min_self]
  | some i =>
    obtain ⟨inside, named⟩ := (wf.indexed key i).mp found
    have present : q.value? key = some (q.valueAt i) := by rw [value?, found, Option.map_some]
    dsimp only
    split
    · rename_i kept
      refine ⟨wf, fun other => ?_, by simpa [present] using kept⟩
      rw [present, Option.getD_some, min_eq_right kept]
      split
      · rename_i here
        rw [here, present]
      · rfl
    · rename_i lowers
      subst named
      have sifted := siftUp_spec q.size _ i (wf.indexed.lower inside value)
        (wf.upOrder_lower inside (by omega)) (by rwa [size_lower]) inside
      refine ⟨sifted.1, fun other => ?_, by simpa [present] using lowers⟩
      rw [sifted.2.2 other, value?_lower wf.indexed inside, present, Option.getD_some,
        min_eq_left (by omega)]

theorem Ordered.root_le (ordered : q.Ordered) (inside : i < q.size) :
    q.valueAt 0 ≤ q.valueAt i := by
  induction i using Nat.strongRecOn with
  | ind i ih =>
    by_cases root : i = 0
    · rw [root]
    · have positive : 0 < i := by omega
      have above := parent_lt positive
      exact (ih (parent i) above (by omega)).trans (ordered i positive inside)

/-- The queue without its last entry. -/
def dropLast (q : MinQueue) : MinQueue :=
  ⟨q.heap.pop, q.places.setIfInBounds (q.keyAt (q.size - 1)) none⟩

@[simp] theorem size_dropLast (q : MinQueue) : q.dropLast.size = q.size - 1 := by
  simp [dropLast, size]

theorem entryAt_dropLast (inside : i < q.size - 1) : q.dropLast.entryAt i = q.entryAt i := by
  unfold size at inside
  simp only [dropLast, entryAt, Array.getD_eq_getD_getElem?, Array.getElem?_pop]
  rw [if_pos inside]

theorem place?_dropLast (indexed : q.Indexed) (nonempty : 0 < q.size) (key : Nat) :
    q.dropLast.place? key = if key = q.keyAt (q.size - 1) then none else q.place? key := by
  have bound := keyAt_lt_places indexed (i := q.size - 1) (by omega)
  simp only [dropLast, place?, Array.getElem?_setIfInBounds]
  grind

theorem Indexed.dropLast (indexed : q.Indexed) (nonempty : 0 < q.size) : q.dropLast.Indexed := by
  intro key k
  rw [place?_dropLast indexed nonempty, size_dropLast]
  have place := indexed key k
  have last := fun (hk : k < q.size) (same : q.keyAt k = q.keyAt (q.size - 1)) =>
    indexed.keyAt_inj hk (by omega) same
  by_cases inside : k < q.size - 1
  · have same : q.dropLast.keyAt k = q.keyAt k := congrArg Prod.fst (entryAt_dropLast inside)
    rw [same]
    grind
  · have final := indexed.place?_keyAt (i := q.size - 1) (by omega)
    grind

theorem value?_dropLast (indexed : q.Indexed) (nonempty : 0 < q.size) (key : Nat) :
    q.dropLast.value? key = if key = q.keyAt (q.size - 1) then none else q.value? key := by
  rw [value?, place?_dropLast indexed nonempty]
  split
  · rfl
  · rename_i other
    rw [value?]
    cases found : q.place? key with
    | none => rfl
    | some k =>
      obtain ⟨inside, named⟩ := (indexed key k).mp found
      have notLast : k ≠ q.size - 1 := by
        rintro rfl
        exact other named.symm
      rw [Option.map_some, Option.map_some, valueAt, entryAt_dropLast (by omega)]
      rfl

theorem popMin_eq_none_iff (wf : q.WellFormed) :
    q.popMin = none ↔ ∀ key, q.value? key = none := by
  unfold popMin
  simp only [Array.isEmpty_iff_size_eq_zero, ite_eq_left_iff, reduceCtorEq, imp_false,
    Decidable.not_not]
  constructor
  · intro vacant key
    by_contra present
    obtain ⟨value, present⟩ := Option.ne_none_iff_exists'.mp present
    obtain ⟨i, inside, _⟩ := wf.indexed.value?_eq_some_iff.mp present
    unfold size at inside
    omega
  · intro absent
    by_contra nonempty
    have inside : 0 < q.size := by
      unfold size
      omega
    have present := wf.indexed.value?_eq_some_iff.mpr ⟨0, inside, rfl⟩
    rw [absent] at present
    cases present

theorem popMin_spec (wf : q.WellFormed) {key : Nat} {value : Int} {rest : MinQueue}
    (popped : q.popMin = some ((key, value), rest)) :
    q.value? key = some value ∧ (∀ other v, q.value? other = some v → value ≤ v) ∧
      rest.WellFormed ∧
      ∀ other, rest.value? other = if other = key then none else q.value? other := by
  unfold popMin at popped
  split at popped
  · cases popped
  · rename_i nonempty
    have inside : 0 < q.size := by
      simp only [Array.isEmpty_iff_size_eq_zero] at nonempty
      unfold size
      omega
    have last : q.size - 1 < q.size := by omega
    have swapped := wf.indexed.swap inside last
    have root : (q.swap 0 (q.size - 1)).entryAt (q.size - 1) = q.entryAt 0 := by
      rw [entryAt_swap inside last, if_pos rfl]
    simp only [size_swap, Option.some.injEq, Prod.mk.injEq] at popped
    obtain ⟨least, sank⟩ := popped
    rw [root] at least
    have first : q.valueAt 0 = value := congrArg Prod.snd least
    have named : (q.swap 0 (q.size - 1)).keyAt ((q.swap 0 (q.size - 1)).size - 1) = key := by
      rw [size_swap, keyAt, root, least]
    -- The last entry has taken the place of the root, so only the family of the root can be out of
    -- order.
    have order : (q.swap 0 (q.size - 1)).dropLast.DownOrder 0 := by
      constructor
      · intro k positive within child
        rw [size_dropLast, size_swap] at within
        have below := parent_lt positive
        rw [valueAt, valueAt, entryAt_dropLast (by rw [size_swap]; omega),
          entryAt_dropLast (by rw [size_swap]; omega), entryAt_swap inside last,
          entryAt_swap inside last, if_neg (by omega), if_neg child, if_neg (by omega),
          if_neg (by omega)]
        exact wf.ordered k positive (by omega)
      · intro positive
        omega
    have sifted := siftDown_spec (q.swap 0 (q.size - 1)).dropLast.size _ 0
      (swapped.dropLast (by rwa [size_swap])) order (by omega)
    have same : siftDown (q.swap 0 (q.size - 1)).dropLast.size (q.swap 0 (q.size - 1)).dropLast 0 =
        rest := by
      rw [← sank, dropLast, size_swap]
      rfl
    rw [same] at sifted
    refine ⟨wf.indexed.value?_eq_some_iff.mpr ⟨0, inside, least⟩, ?_, sifted.1, ?_⟩
    · intro other v present
      obtain ⟨k, within, entry⟩ := wf.indexed.value?_eq_some_iff.mp present
      rw [← first, ← show q.valueAt k = v from congrArg Prod.snd entry]
      exact wf.ordered.root_le within
    · intro other
      rw [sifted.2, value?_dropLast swapped (by rwa [size_swap]), named,
        value?_swap wf.indexed inside last]

/-- Inserts or lowers each of a list of keys. -/
def offer (q : MinQueue) (candidates : List (Nat × Int)) : MinQueue :=
  candidates.foldl (fun q c => (q.insertOrDecrease c.1 c.2).1) q

theorem offer_spec (wf : q.WellFormed) (candidates : List (Nat × Int)) :
    (q.offer candidates).WellFormed ∧
    (∀ key v, (q.offer candidates).value? key = some v →
      q.value? key = some v ∨ (key, v) ∈ candidates) ∧
    ∀ key v, q.value? key = some v ∨ (key, v) ∈ candidates →
      ∃ v', v' ≤ v ∧ (q.offer candidates).value? key = some v' := by
  induction candidates generalizing q with
  | nil =>
    refine ⟨wf, fun key v present => Or.inl present, fun key v present => ?_⟩
    simp only [List.not_mem_nil, or_false] at present
    exact ⟨v, le_refl v, present⟩
  | cons c rest ih =>
    obtain ⟨key₀, value₀⟩ := c
    obtain ⟨wf', values, _⟩ := insertOrDecrease_spec wf key₀ value₀
    obtain ⟨kept, sound, lower⟩ := ih wf'
    refine ⟨kept, fun key v present => ?_, fun key v source => ?_⟩
    · have before := sound key v present
      rw [values] at before
      cases old : q.value? key₀ <;> grind
    · have next : ∃ v', v' ≤ v ∧ ((q.insertOrDecrease key₀ value₀).1.value? key = some v' ∨
          (key, v') ∈ rest) := by
        rw [values, List.mem_cons] at *
        cases old : q.value? key₀ <;> grind
      obtain ⟨v', le, source'⟩ := next
      obtain ⟨v'', le', present⟩ := lower key v' source'
      exact ⟨v'', le'.trans le, present⟩

end TemporalNetwork.MinQueue
