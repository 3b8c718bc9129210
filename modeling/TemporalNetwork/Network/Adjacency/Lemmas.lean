import TemporalNetwork.Network.Adjacency

/-!
What the operations on a table do to its pairs. A table is well formed if it is square, has room for
the nodes, and holds nothing beyond them; every operation keeps this, and `get?` is then the view
that says everything about a table.
-/

namespace TemporalNetwork.Adjacency

structure WellFormed (t : Adjacency) : Prop where
  order_le : t.order ≤ t.capacity
  size_cells : t.cells.size = t.capacity * t.capacity
  spare : ∀ source target, source < t.capacity → target < t.capacity →
    t.order ≤ source ∨ t.order ≤ target → t.read (t.cell source target) = none

theorem cell_lt {capacity source target : Nat} (hs : source < capacity) (ht : target < capacity) :
    source * capacity + target < capacity * capacity := by
  have row : (source + 1) * capacity ≤ capacity * capacity := Nat.mul_le_mul_right capacity hs
  rw [Nat.succ_mul] at row
  omega

theorem cell_div {capacity source target : Nat} (ht : target < capacity) :
    (source * capacity + target) / capacity = source := by
  rw [Nat.mul_comm, Nat.mul_add_div (by omega), Nat.div_eq_of_lt ht, Nat.add_zero]

theorem cell_mod {capacity source target : Nat} (ht : target < capacity) :
    (source * capacity + target) % capacity = target := by
  rw [Nat.mul_comm, Nat.mul_add_mod, Nat.mod_eq_of_lt ht]

theorem cell_eq_iff {capacity a b c d : Nat} (hb : b < capacity) (hd : d < capacity) :
    a * capacity + b = c * capacity + d ↔ a = c ∧ b = d := by
  constructor
  · intro same
    have row : (a * capacity + b) / capacity = a := cell_div hb
    have column : (a * capacity + b) % capacity = b := cell_mod hb
    rw [same, cell_div hd] at row
    rw [same, cell_mod hd] at column
    exact ⟨row.symm, column.symm⟩
  · rintro ⟨rfl, rfl⟩
    rfl

theorem get?_eq_none_of_le {t : Adjacency} {source target : NodeId}
    (h : t.order ≤ source ∨ t.order ≤ target) : t.get? source target = none := by
  have outside : ¬ (source < t.order ∧ target < t.order) := by lia
  simp [get?, outside]

/-- In a well-formed table the order need not be looked at. -/
theorem WellFormed.get?_eq_read {t : Adjacency} (wf : t.WellFormed) {source target : NodeId}
    (hs : source < t.capacity) (ht : target < t.capacity) :
    t.get? source target = t.read (t.cell source target) := by
  unfold get?
  split
  · rfl
  · rename_i outside
    exact (wf.spare source target hs ht (by lia)).symm

/-- What is listed need not be between nodes. -/
theorem mem_row_iff_read {t : Adjacency} {source target : NodeId} {edge : EdgeId} :
    (target, edge) ∈ t.row source ↔ target < t.order ∧ t.read (t.cell source target) = some edge := by
  simp [row, and_left_comm]

theorem mem_column_iff_read {t : Adjacency} {source target : NodeId} {edge : EdgeId} :
    (source, edge) ∈ t.column target ↔
      source < t.order ∧ t.read (t.cell source target) = some edge := by
  simp [column, and_left_comm]

theorem mem_row {t : Adjacency} {source : NodeId} (hs : source < t.order) {target : NodeId}
    {edge : EdgeId} : (target, edge) ∈ t.row source ↔ t.get? source target = some edge := by
  rw [mem_row_iff_read, get?, Option.ite_none_right_eq_some, and_assoc, and_iff_right hs]

theorem mem_column {t : Adjacency} {target : NodeId} (ht : target < t.order) {source : NodeId}
    {edge : EdgeId} : (source, edge) ∈ t.column target ↔ t.get? source target = some edge := by
  rw [mem_column_iff_read, get?, Option.ite_none_right_eq_some, and_iff_left ht]

theorem pairwise_filterMap_range (k : Nat) (f : NodeId → Option EdgeId) :
    ((List.range k).filterMap fun n => (f n).map (n, ·)).Pairwise fun a b => a.1 < b.1 := by
  refine List.Pairwise.filterMap _ (fun n n' less a ha b hb => ?_) List.pairwise_lt_range
  obtain ⟨_, _, rfl⟩ := Option.map_eq_some_iff.mp ha
  obtain ⟨_, _, rfl⟩ := Option.map_eq_some_iff.mp hb
  exact less

theorem pairwise_row (t : Adjacency) (source : NodeId) :
    (t.row source).Pairwise fun a b => a.1 < b.1 :=
  pairwise_filterMap_range t.order fun target => t.read (t.cell source target)

theorem pairwise_column (t : Adjacency) (target : NodeId) :
    (t.column target).Pairwise fun a b => a.1 < b.1 :=
  pairwise_filterMap_range t.order fun source => t.read (t.cell source target)

theorem wellFormed_empty : empty.WellFormed where
  order_le := by decide
  size_cells := by simp [empty]
  spare source target hs ht _ := by
    simp only [read, empty, Array.getElem?_replicate]
    split <;> rfl

theorem get?_empty (source target : NodeId) : empty.get? source target = none :=
  get?_eq_none_of_le (Or.inl (Nat.zero_le source))

theorem read_set {t : Adjacency} (wf : t.WellFormed) (source : NodeId) {target a b : NodeId}
    (edge : Option EdgeId) (ht : target < t.order) (ha : a < t.capacity) (hb : b < t.capacity) :
    (t.set source target edge).read (t.cell a b) =
      if source = a ∧ target = b then edge else t.read (t.cell a b) := by
  have room := wf.order_le
  have inside : t.cell a b < t.cells.size := by
    rw [wf.size_cells]
    exact cell_lt ha hb
  have same : t.cell source target = t.cell a b ↔ source = a ∧ target = b :=
    cell_eq_iff (by lia) hb
  simp only [read, set, Array.getElem?_setIfInBounds, same]
  by_cases h : source = a ∧ target = b
  · simp [h, inside]
  · simp only [h, if_false]

theorem WellFormed.set {t : Adjacency} (wf : t.WellFormed) {source target : NodeId}
    (edge : Option EdgeId) (hs : source < t.order) (ht : target < t.order) :
    (t.set source target edge).WellFormed where
  order_le := wf.order_le
  size_cells := by simpa [Adjacency.set] using wf.size_cells
  spare a b ha hb outside := by
    have elsewhere : ¬ (source = a ∧ target = b) := by
      have := outside
      simp only [Adjacency.set] at this
      lia
    have read := read_set wf source edge ht ha hb
    rw [if_neg elsewhere] at read
    exact read.trans (wf.spare a b ha hb outside)

theorem get?_set {t : Adjacency} (wf : t.WellFormed) {source target : NodeId}
    (edge : Option EdgeId) (hs : source < t.order) (ht : target < t.order) (a b : NodeId) :
    (t.set source target edge).get? a b = if source = a ∧ target = b then edge else t.get? a b := by
  by_cases inside : a < t.order ∧ b < t.order
  · have room := wf.order_le
    have ha : a < t.capacity := by lia
    have hb : b < t.capacity := by lia
    rw [(wf.set edge hs ht).get?_eq_read ha hb, wf.get?_eq_read ha hb]
    exact read_set wf source edge ht ha hb
  · have outside : t.order ≤ a ∨ t.order ≤ b := by lia
    have elsewhere : ¬ (source = a ∧ target = b) := by lia
    rw [get?_eq_none_of_le (t := t.set source target edge) outside, get?_eq_none_of_le outside,
      if_neg elsewhere]

theorem size_rearrange (t : Adjacency) (f : NodeId → NodeId → Option EdgeId) :
    (t.rearrange f).size = t.cells.size := by
  simp [rearrange]

/-- A table of the same shape whose pairs in use are those `f` names. -/
theorem read_rearrange {t : Adjacency} (wf : t.WellFormed) (f : NodeId → NodeId → Option EdgeId)
    {a b : NodeId} (ha : a < t.capacity) (hb : b < t.capacity) :
    ((t.rearrange f)[t.cell a b]?).join =
      if a < t.order ∧ b < t.order then f a b else t.read (t.cell a b) := by
  have inside : t.cell a b < t.cells.size := by
    rw [wf.size_cells]
    exact cell_lt ha hb
  have row : t.cell a b / t.capacity = a := cell_div hb
  have column : t.cell a b % t.capacity = b := cell_mod hb
  simp only [rearrange, Array.getElem?_mapIdx, Array.getElem?_eq_getElem inside, Option.map_some,
    Option.join_some, row, column, read]

theorem WellFormed.transpose {t : Adjacency} (wf : t.WellFormed) : t.transpose.WellFormed where
  order_le := wf.order_le
  size_cells := (size_rearrange t _).trans wf.size_cells
  spare a b ha hb outside := by
    have unused : ¬ (a < t.order ∧ b < t.order) := by
      have : t.order ≤ a ∨ t.order ≤ b := outside
      lia
    have read := read_rearrange wf (fun source target => t.get? target source) ha hb
    rw [if_neg unused] at read
    exact read.trans (wf.spare a b ha hb outside)

theorem get?_transpose {t : Adjacency} (wf : t.WellFormed) (a b : NodeId) :
    t.transpose.get? a b = t.get? b a := by
  by_cases inside : a < t.order ∧ b < t.order
  · have room := wf.order_le
    have ha : a < t.capacity := by lia
    have hb : b < t.capacity := by lia
    have read := read_rearrange wf (fun source target => t.get? target source) ha hb
    rw [if_pos inside] at read
    rw [wf.transpose.get?_eq_read ha hb]
    exact read
  · have outside : t.order ≤ a ∨ t.order ≤ b := by lia
    rw [get?_eq_none_of_le (t := t.transpose) outside, get?_eq_none_of_le outside.symm]

theorem WellFormed.removeNode {t : Adjacency} (wf : t.WellFormed) (node : NodeId) :
    (t.removeNode node).WellFormed where
  order_le := by
    have room := wf.order_le
    simp only [Adjacency.removeNode]
    omega
  size_cells := (size_rearrange t _).trans wf.size_cells
  spare a b ha hb outside := by
    have gone : t.order - 1 ≤ a ∨ t.order - 1 ≤ b := outside
    have read := read_rearrange wf (fun source target =>
      if source = t.order - 1 ∨ target = t.order - 1 then none
      else t.get? (t.origin node source) (t.origin node target)) ha hb
    refine read.trans ?_
    split
    · have last : a = t.order - 1 ∨ b = t.order - 1 := by lia
      exact if_pos last
    · exact wf.spare a b ha hb (by lia)

theorem get?_removeNode {t : Adjacency} (wf : t.WellFormed) (node a b : NodeId) :
    (t.removeNode node).get? a b =
      if a < t.order - 1 ∧ b < t.order - 1 then t.get? (t.origin node a) (t.origin node b)
      else none := by
  split
  · rename_i inside
    have room := wf.order_le
    have ha : a < t.capacity := by lia
    have hb : b < t.capacity := by lia
    have read := read_rearrange wf (fun source target =>
      if source = t.order - 1 ∨ target = t.order - 1 then none
      else t.get? (t.origin node source) (t.origin node target)) ha hb
    rw [if_pos (by lia), if_neg (by lia)] at read
    rw [(wf.removeNode node).get?_eq_read ha hb]
    exact read
  · rename_i outside
    exact get?_eq_none_of_le (t := t.removeNode node) (by
      change t.order - 1 ≤ a ∨ t.order - 1 ≤ b
      lia)

theorem capacity_lt_grownCapacity (capacity : Nat) : capacity < grownCapacity capacity := by
  unfold grownCapacity
  omega

theorem read_grow (t : Adjacency) {a b : NodeId} (ha : a < grownCapacity t.capacity)
    (hb : b < grownCapacity t.capacity) : t.grow.read (t.grow.cell a b) = t.get? a b := by
  have inside : a * grownCapacity t.capacity + b <
      grownCapacity t.capacity * grownCapacity t.capacity := cell_lt ha hb
  simp [read, grow, cell, inside, cell_div hb, cell_mod hb]

theorem WellFormed.grow {t : Adjacency} (wf : t.WellFormed) : t.grow.WellFormed where
  order_le := by
    have room := wf.order_le
    have more := capacity_lt_grownCapacity t.capacity
    simp only [Adjacency.grow]
    omega
  size_cells := by simp [Adjacency.grow]
  spare a b ha hb outside := by
    rw [read_grow t ha hb]
    exact get?_eq_none_of_le outside

theorem get?_grow {t : Adjacency} (wf : t.WellFormed) (a b : NodeId) :
    t.grow.get? a b = t.get? a b := by
  by_cases inside : a < t.order ∧ b < t.order
  · have room := wf.order_le
    have more := capacity_lt_grownCapacity t.capacity
    have ha : a < grownCapacity t.capacity := by lia
    have hb : b < grownCapacity t.capacity := by lia
    rw [wf.grow.get?_eq_read ha hb, read_grow t ha hb]
  · have outside : t.order ≤ a ∨ t.order ≤ b := by lia
    rw [get?_eq_none_of_le (t := t.grow) outside, get?_eq_none_of_le outside]

/-- The table with room for one more node. -/
theorem WellFormed.makeRoom {t : Adjacency} (wf : t.WellFormed) :
    (if t.order = t.capacity then t.grow else t).WellFormed := by
  split
  · exact wf.grow
  · exact wf

theorem WellFormed.addNode {t : Adjacency} (wf : t.WellFormed) : t.addNode.WellFormed where
  order_le := by
    have room := wf.order_le
    have more := capacity_lt_grownCapacity t.capacity
    simp only [Adjacency.addNode]
    split
    · simp only [Adjacency.grow]
      omega
    · omega
  size_cells := wf.makeRoom.size_cells
  spare a b ha hb outside := by
    have unused := outside
    simp only [Adjacency.addNode] at unused
    exact wf.makeRoom.spare a b ha hb (by omega)

theorem get?_addNode {t : Adjacency} (wf : t.WellFormed) (a b : NodeId) :
    t.addNode.get? a b = t.get? a b := by
  have kept : (if t.order = t.capacity then t.grow else t).get? a b = t.get? a b := by
    split
    · exact get?_grow wf a b
    · rfl
  rw [← kept]
  by_cases inside : a < t.addNode.order ∧ b < t.addNode.order
  · have room := wf.addNode.order_le
    have ha : a < t.addNode.capacity := by lia
    have hb : b < t.addNode.capacity := by lia
    rw [wf.addNode.get?_eq_read ha hb, wf.makeRoom.get?_eq_read ha hb]
    rfl
  · have outside : t.addNode.order ≤ a ∨ t.addNode.order ≤ b := by lia
    have less : (if t.order = t.capacity then t.grow else t).order ≤ t.addNode.order := by
      simp only [addNode]
      omega
    rw [get?_eq_none_of_le outside, get?_eq_none_of_le (by lia)]

end TemporalNetwork.Adjacency
