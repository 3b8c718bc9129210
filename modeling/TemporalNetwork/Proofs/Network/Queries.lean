import TemporalNetwork.Proofs.Network.Edits

/-!
The edge between two nodes, the edges that leave a node and those that enter it are read from one table,
but only the first query compares the numbers it is given with the number of nodes. Inside the table this
makes no difference: what lies beyond the nodes is empty, and the table never shrinks, so the three
queries agree on every number that is or has been that of a node. Beyond the table there is no row, and a
column runs on into the rows that follow.
-/

namespace TemporalNetwork

namespace Adjacency

variable {t : Adjacency} {source target : NodeId} {edge : EdgeId}

/-- A position that lies beyond the end of its row is in a later one. -/
theorem cell_eq_wrapped (t : Adjacency) (source target : NodeId) :
    t.cell source target = t.cell (source + target / t.capacity) (target % t.capacity) := by
  rw [cell, cell, Nat.add_mul, Nat.add_assoc, Nat.div_add_mod']

theorem WellFormed.cell_lt_iff (wf : t.WellFormed) (used : source < t.order) :
    t.cell source target < t.cells.size ↔ source + target / t.capacity < t.capacity := by
  have room : 0 < t.capacity := by
    have := wf.order_le
    lia
  rw [wf.size_cells, cell_eq_wrapped]
  constructor
  · intro inside
    have row : (source + target / t.capacity) * t.capacity < t.capacity * t.capacity :=
      Nat.lt_of_le_of_lt (Nat.le_add_right _ _) inside
    exact Nat.lt_of_mul_lt_mul_right row
  · exact fun row => cell_lt row (Nat.mod_lt target room)

theorem WellFormed.hasRow_iff (wf : t.WellFormed) :
    t.hasRow source = true ↔ t.order = 0 ∨ source < t.capacity := by
  simp only [hasRow, List.all_eq_true, List.mem_range, decide_eq_true_eq, wf.size_cells]
  constructor
  · intro inside
    refine (Nat.eq_zero_or_pos t.order).imp_right fun used => ?_
    have first := inside 0 used
    rw [cell, Nat.add_zero] at first
    exact Nat.lt_of_mul_lt_mul_right first
  · rintro (unused | inside) target used
    · lia
    · exact cell_lt inside (Nat.lt_of_lt_of_le used wf.order_le)

theorem WellFormed.hasColumn_iff (wf : t.WellFormed) : t.hasColumn target = true ↔
    t.order = 0 ∨ t.order + target / t.capacity ≤ t.capacity := by
  simp only [hasColumn, List.all_eq_true, List.mem_range, decide_eq_true_eq]
  constructor
  · intro inside
    refine (Nat.eq_zero_or_pos t.order).imp_right fun used => ?_
    have last := (wf.cell_lt_iff (Nat.sub_lt used Nat.one_pos)).mp (inside _ (Nat.sub_lt used Nat.one_pos))
    lia
  · rintro (unused | inside) source used
    · lia
    · exact (wf.cell_lt_iff used).mpr (by lia)

theorem WellFormed.mem_row (wf : t.WellFormed) (inside : source < t.capacity) :
    (target, edge) ∈ t.row source ↔ t.get? source target = some edge := by
  rw [mem_row_iff_read]
  constructor
  · rintro ⟨used, stored⟩
    rwa [wf.get?_eq_read inside (Nat.lt_of_lt_of_le used wf.order_le)]
  · intro found
    have ends : source < t.order ∧ target < t.order := by
      by_contra outside
      rw [get?_eq_none_of_le (by lia)] at found
      cases found
    rw [get?, if_pos ends] at found
    exact ⟨ends.2, found⟩

theorem WellFormed.mem_column (wf : t.WellFormed) (inside : t.hasColumn target = true) :
    (source, edge) ∈ t.column target ↔ source < t.order ∧
      t.get? (source + target / t.capacity) (target % t.capacity) = some edge := by
  rw [mem_column_iff_read]
  refine and_congr_right fun used => ?_
  have row : source + target / t.capacity < t.capacity := by
    rcases wf.hasColumn_iff.mp inside with unused | within
    · lia
    · lia
  have room : 0 < t.capacity := Nat.lt_of_le_of_lt (Nat.zero_le _) row
  rw [wf.get?_eq_read row (Nat.mod_lt target room), ← cell_eq_wrapped]

end Adjacency

namespace Network

variable {E : Type} {g h : Network E}

/-- Whether `e` is an edge from `u` to `v`. -/
def Connects (g : Network E) (e : EdgeId) (u v : NodeId) : Prop :=
  ∃ slot, g.slot? e = some slot ∧ slot.source = u ∧ slot.target = v

/-- What the queries say about the edges, for every number. -/
structure Queried (g : Network E) : Prop where
  findEdge?_iff : ∀ u v e, g.findEdge? u v = some e ↔ g.Connects e u v
  outEdges? : ∀ u < g.adjacency.capacity,
    ∃ es, g.outEdges? u = .ok es ∧ ∀ v e, (v, e) ∈ es ↔ g.Connects e u v
  inEdges? : ∀ v < g.adjacency.capacity,
    ∃ es, g.inEdges? v = .ok es ∧ ∀ u e, (u, e) ∈ es ↔ g.Connects e u v
  /-- What is no node has no edges. -/
  absent : ∀ n, g.nodeCount ≤ n → n < g.adjacency.capacity →
    g.outEdges? n = .ok [] ∧ g.inEdges? n = .ok []
  outEdges?_beyond : ∀ n, g.adjacency.capacity ≤ n →
    g.outEdges? n = if g.nodeCount = 0 then .ok [] else .error .outOfRange
  /-- In the column of a number beyond the table stand edges between other nodes. -/
  inEdges?_beyond : ∀ n, g.adjacency.capacity ≤ n →
    if g.nodeCount = 0 ∨ g.nodeCount + n / g.adjacency.capacity ≤ g.adjacency.capacity then
      ∃ es, g.inEdges? n = .ok es ∧ ∀ u e, (u, e) ∈ es ↔ u < g.nodeCount ∧
        g.Connects e (u + n / g.adjacency.capacity) (n % g.adjacency.capacity)
    else g.inEdges? n = .error .outOfRange

namespace WellFormed

theorem nodeCount_le_capacity (wf : g.WellFormed) : g.nodeCount ≤ g.adjacency.capacity :=
  wf.order ▸ wf.table.order_le

theorem lt_of_connects (wf : g.WellFormed) {e : EdgeId} {u v : NodeId} (connects : g.Connects e u v) :
    u < g.nodeCount ∧ v < g.nodeCount :=
  wf.lt_of_findEdge? ((wf.listed u v e).mpr connects)

theorem exists_outEdges? (wf : g.WellFormed) {u : NodeId} (inside : u < g.adjacency.capacity) :
    ∃ es, g.outEdges? u = .ok es ∧ ∀ v e, (v, e) ∈ es ↔ g.Connects e u v := by
  have row : g.adjacency.hasRow u = true := wf.table.hasRow_iff.mpr (Or.inr inside)
  exact ⟨g.outEdges u, if_pos row, fun v e => (wf.table.mem_row inside).trans (wf.listed u v e)⟩

theorem exists_inEdges?_wrapped (wf : g.WellFormed) {n : NodeId}
    (column : g.adjacency.hasColumn n = true) :
    ∃ es, g.inEdges? n = .ok es ∧ ∀ u e, (u, e) ∈ es ↔ u < g.nodeCount ∧
      g.Connects e (u + n / g.adjacency.capacity) (n % g.adjacency.capacity) := by
  refine ⟨g.inEdges n, if_pos column, fun u e => (wf.table.mem_column column).trans ?_⟩
  rw [wf.order]
  exact and_congr_right fun _ => wf.listed _ _ e

theorem exists_inEdges? (wf : g.WellFormed) {v : NodeId} (inside : v < g.adjacency.capacity) :
    ∃ es, g.inEdges? v = .ok es ∧ ∀ u e, (u, e) ∈ es ↔ g.Connects e u v := by
  have column : g.adjacency.hasColumn v = true := by
    have room := wf.table.order_le
    rw [wf.table.hasColumn_iff, Nat.div_eq_of_lt inside]
    exact Or.inr room
  obtain ⟨es, answer, mem⟩ := wf.exists_inEdges?_wrapped column
  rw [Nat.div_eq_of_lt inside, Nat.mod_eq_of_lt inside] at mem
  refine ⟨es, answer, fun u e => (mem u e).trans (and_iff_right_of_imp fun connects => ?_)⟩
  exact (wf.lt_of_connects connects).1

theorem queried (wf : g.WellFormed) : g.Queried where
  findEdge?_iff := wf.listed
  outEdges? _ inside := wf.exists_outEdges? inside
  inEdges? _ inside := wf.exists_inEdges? inside
  absent n absent inside := by
    obtain ⟨out, leaving, mem⟩ := wf.exists_outEdges? inside
    obtain ⟨ins, entering, mem'⟩ := wf.exists_inEdges? inside
    have noneLeaves : out = [] := List.eq_nil_iff_forall_not_mem.mpr fun ⟨v, e⟩ listed =>
      absurd (wf.lt_of_connects ((mem v e).mp listed)).1 (Nat.not_lt.mpr absent)
    have noneEnters : ins = [] := List.eq_nil_iff_forall_not_mem.mpr fun ⟨u, e⟩ listed =>
      absurd (wf.lt_of_connects ((mem' u e).mp listed)).2 (Nat.not_lt.mpr absent)
    exact ⟨noneLeaves ▸ leaving, noneEnters ▸ entering⟩
  outEdges?_beyond n beyond := by
    -- Past the order of the table a row is read only as far as the table has room.
    have row : g.adjacency.hasRow n = true ↔ g.nodeCount = 0 ∨ n < g.adjacency.capacity :=
      wf.order ▸ wf.table.hasRow_iff
    split
    · rename_i empty
      have none : g.outEdges n = [] := by
        rw [Network.outEdges, Adjacency.row, wf.order, empty]
        rfl
      exact (if_pos (row.mpr (Or.inl empty))).trans (congrArg Except.ok none)
    · rename_i full
      exact if_neg fun holds => (row.mp holds).elim full (Nat.not_lt.mpr beyond)
  inEdges?_beyond n beyond := by
    have column : g.adjacency.hasColumn n = true ↔
        g.nodeCount = 0 ∨ g.nodeCount + n / g.adjacency.capacity ≤ g.adjacency.capacity :=
      wf.order ▸ wf.table.hasColumn_iff
    split
    · rename_i inside
      exact wf.exists_inEdges?_wrapped (column.mpr inside)
    · rename_i outside
      exact if_neg fun holds => outside (column.mp holds)

end WellFormed

theorem capacity_removeEdges (es : List EdgeId) (g : Network E) :
    (g.removeEdges es).adjacency.capacity = g.adjacency.capacity := by
  induction es generalizing g with
  | nil => rfl
  | cons e rest ih =>
    refine (ih (g.removeEdge e).1).trans ?_
    unfold removeEdge
    split <;> rfl

theorem capacity_insertEdge (g : Network E) (name : String) (payload : E) (source target : NodeId) :
    (g.insertEdge name payload source target).1.adjacency.capacity = g.adjacency.capacity := by
  unfold insertEdge
  split <;> rfl

theorem capacity_le_addNode {n : Node} {id : NodeId} (added : g.addNode n = some (h, id)) :
    g.adjacency.capacity ≤ h.adjacency.capacity := by
  unfold addNode at added
  split at added
  · cases added
  · cases added
    show g.adjacency.capacity ≤ g.adjacency.addNode.capacity
    unfold Adjacency.addNode
    dsimp only
    split
    · exact Nat.le_of_lt (Adjacency.capacity_lt_grownCapacity g.adjacency.capacity)
    · exact Nat.le_refl _

theorem capacity_removeNode [EdgePayload E] {n : NodeId} {removed : Node}
    (gone : g.removeNode n = some (h, removed)) : h.adjacency.capacity = g.adjacency.capacity := by
  rw [removeNode_eq] at gone
  obtain ⟨_, _, same⟩ := Option.map_eq_some_iff.mp gone
  cases same
  exact capacity_removeEdges (g.incident n) g

end Network

variable {E : Type} [EdgePayload E]

theorem Edit.capacity_le {g h : Network E} {edit : Edit E} (done : edit.apply g = .ok h) :
    g.adjacency.capacity ≤ h.adjacency.capacity := by
  cases outcome_of_apply done with
  | refused => exact Nat.le_refl _
  | addNode added => exact Network.capacity_le_addNode added
  | modifyNode n f => exact Nat.le_refl _
  | renameNode n name => exact Nat.le_refl _
  | removeNode gone => exact Nat.le_of_eq (Network.capacity_removeNode gone).symm
  | insertEdge name => exact Nat.le_of_eq (g.capacity_insertEdge name _ _ _).symm
  | modifyEdge e f => exact Nat.le_refl _
  | renameEdge e name =>
    exact Nat.le_of_eq (congrArg Adjacency.capacity (g.renameEdge_frame e name).1).symm
  | removeEdge e => exact Nat.le_of_eq (Network.capacity_removeEdges [e] g).symm
  | reverse => exact Nat.le_refl _
  | setZ z => exact Nat.le_refl _
  | setActivation contingent activation => exact Nat.le_refl _

namespace IndexedNetwork

variable {m : IndexedNetwork E}

theorem Built.queried {edits : List (Edit E)} (built : Built edits m) : m.network.Queried :=
  built.faithful.1.wellFormed.queried

/-- The number of a node stays inside the table, whatever becomes of the node. -/
theorem Built.lt_capacity {earlier later : List (Edit E)} {m₀ : IndexedNetwork E}
    (before : Built earlier m₀) (built : Built (earlier ++ later) m) {n : NodeId}
    (present : n < m₀.network.nodeCount) : n < m.network.adjacency.capacity := by
  obtain ⟨faithful, run₀⟩ := before.faithful
  have run := built.faithful.2
  rw [List.foldlM_append, run₀] at run
  have grown : m₀.network.adjacency.capacity ≤ m.network.adjacency.capacity :=
    foldlM_keeps (P := fun g => m₀.network.adjacency.capacity ≤ g.adjacency.capacity)
      (fun g edit _ h le done => Nat.le_trans le (Edit.capacity_le done)) (Nat.le_refl _) run
  exact Nat.lt_of_lt_of_le present (Nat.le_trans faithful.wellFormed.nodeCount_le_capacity grown)

/-- In every network that edits have built, the three queries agree on all numbers inside the table, and
every number that has ever been a node's is inside. -/
theorem queries_agree_within_table {edits : List (Edit E)} (built : Built edits m) :
    m.network.Queried ∧
      ∀ earlier later m₀, edits = earlier ++ later → Built earlier m₀ →
        ∀ n < m₀.network.nodeCount, n < m.network.adjacency.capacity := by
  refine ⟨built.queried, fun earlier later m₀ split before n present => ?_⟩
  subst split
  exact before.lt_capacity built present

/-- A is removed and B takes its number; nothing is listed for the number that B has had. -/
theorem queries_agree_within_table_after_removal : ∃ m : IndexedNetwork PlainEdge,
    Built [.addNode (.named "Z"), .addNode (.named "A"), .addNode (.named "B"),
      .addEdgeBetween "AB" (.ofKind .ordinary) 1 2,
      .addEdgeBetween "ZB" (.ofKind .ordinary) 0 2, .removeNode 1] m ∧
    m.network.Queried ∧ m.network.findEdge? 0 1 = some 1 ∧
    m.network.outEdges? 2 = .ok [] ∧ m.network.inEdges? 2 = .ok [] := by
  have z := Built.edit (E := PlainEdge) (.addNode (.named "Z")) .empty trivial rfl
  have a := z.edit (.addNode (.named "A")) trivial rfl
  have b := a.edit (.addNode (.named "B")) trivial rfl
  have gone := b.edit (.addEdgeBetween "AB" (.ofKind .ordinary) 1 2) trivial rfl
  have stays := gone.edit (.addEdgeBetween "ZB" (.ofKind .ordinary) 0 2) trivial rfl
  have removed := stays.edit (.removeNode 1) trivial rfl
  obtain ⟨queried, within⟩ := queries_agree_within_table removed
  have inside := within _ [.addEdgeBetween "AB" (.ofKind .ordinary) 1 2,
    .addEdgeBetween "ZB" (.ofKind .ordinary) 0 2, .removeNode 1] _ rfl b 2 (by decide +kernel)
  have nothing := queried.absent 2 (by decide +kernel) inside
  exact ⟨_, removed, queried, by decide +kernel, nothing.1, nothing.2⟩

/-- The table has ten rows; the edge from A, which has the number 1, to Z is also found where the column
of 10 would begin. -/
example :
    let edits : List (Edit PlainEdge) := [.addNode (.named "Z"), .addNode (.named "A"),
      .addEdgeBetween "AZ" (.ofKind .ordinary) 1 0]
    let g := (edits.foldlM (fun g (edit : Edit PlainEdge) => edit.apply g) .empty).toOption.getD .empty
    g.findEdge? 0 10 = none ∧ g.inEdges? 10 = .ok [(0, 0)] ∧ g.outEdges? 10 = .error .outOfRange := by
  decide +kernel

end IndexedNetwork

end TemporalNetwork
