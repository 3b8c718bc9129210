import Mathlib.Data.Int.ConditionallyCompleteOrder
import Mathlib.Order.ConditionallyCompleteLattice.Basic
import Mathlib.Tactic.Linarith

/-!
Moving one time-point while difference constraints go on being satisfied. An edge `u → v` of weight `x`
says that `v` is at most `x` after `u`. A node that is moved takes the nodes along to which a walk
leads, and no others.
-/

namespace TemporalNetwork

variable {α : Type}

/-- Whether the times satisfy the constraints. -/
def Satisfies (E : α → α → Int → Prop) (t : α → Int) : Prop :=
  ∀ u v x, E u v x → t v ≤ t u + x

/-- Walks from `c` along the constraints, with their weights. -/
inductive Walk (E : α → α → Int → Prop) (c : α) : α → Int → Prop
  | here : Walk E c c 0
  | step {u v : α} {p x : Int} (walk : Walk E c u p) (edge : E u v x) : Walk E c v (p + x)

variable {E : α → α → Int → Prop} {t : α → Int} {a b c v : α} {p q x : Int}

theorem Walk.trans (first : Walk E a b p) (second : Walk E b c q) : Walk E a c (p + q) := by
  induction second with
  | here => simpa using first
  | step _ edge ih =>
    rw [← Int.add_assoc]
    exact ih.step edge

theorem Walk.of_edge (edge : E a b x) : Walk E a b x := by simpa using Walk.here.step edge

theorem Walk.mono {F : α → α → Int → Prop} (sub : ∀ u v x, E u v x → F u v x)
    (walk : Walk E c v p) : Walk F c v p := by
  induction walk with
  | here => exact .here
  | step _ edge ih => exact ih.step (sub _ _ _ edge)

theorem Satisfies.le_of_walk (satisfies : Satisfies E t) (walk : Walk E c v p) : t v ≤ t c + p := by
  induction walk with
  | here => omega
  | step _ edge ih =>
    have := satisfies _ _ _ edge
    omega

/-- The times after `c` has been moved to `b` or before. -/
noncomputable def preponed (E : α → α → Int → Prop) (t : α → Int) (c : α) (b : Int) (v : α) : Int :=
  sInf (insert (t v) {y | ∃ p, Walk E c v p ∧ y = b + p})

section

variable (satisfies : Satisfies E t) (b : Int)

include satisfies in
theorem bddBelow_preponed (v : α) :
    BddBelow (insert (t v) {y | ∃ p, Walk E c v p ∧ y = b + p}) := by
  refine BddBelow.insert (t v) ⟨b + t v - t c, ?_⟩
  rintro y ⟨p, walk, rfl⟩
  have := satisfies.le_of_walk walk
  omega

include satisfies in
theorem preponed_le (v : α) : preponed E t c b v ≤ t v :=
  csInf_le (bddBelow_preponed satisfies b v) (Set.mem_insert _ _)

include satisfies in
theorem preponed_le_of_walk (walk : Walk E c v p) : preponed E t c b v ≤ b + p :=
  csInf_le (bddBelow_preponed satisfies b v) (Set.mem_insert_of_mem _ ⟨p, walk, rfl⟩)

theorem le_preponed {y : Int} (before : y ≤ t v) (walks : ∀ p, Walk E c v p → y ≤ b + p) :
    y ≤ preponed E t c b v := by
  refine le_csInf (Set.insert_nonempty _ _) ?_
  rintro z (rfl | ⟨p, walk, rfl⟩)
  · exact before
  · exact walks p walk

include satisfies in
theorem Satisfies.preponed (c : α) : Satisfies E (preponed E t c b) := by
  intro u v x edge
  have kept : TemporalNetwork.preponed E t c b v - x ≤ TemporalNetwork.preponed E t c b u := by
    refine le_preponed b ?_ fun p walk => ?_
    · have := preponed_le (c := c) satisfies b v
      have := satisfies u v x edge
      omega
    · have := preponed_le_of_walk satisfies b (walk.step edge)
      omega
  omega

include satisfies in
/-- A node can be moved forward without the nodes which all walks from it leave enough room. -/
theorem exists_preponed (c : α) : ∃ t', Satisfies E t' ∧ t' c ≤ b ∧
    ∀ v, (∀ p, Walk E c v p → t v ≤ b + p) → t' v = t v := by
  refine ⟨preponed E t c b, satisfies.preponed b c, ?_, fun v far => le_antisymm ?_ ?_⟩
  · have := preponed_le_of_walk satisfies b (Walk.here (E := E) (c := c))
    omega
  · exact preponed_le satisfies b v
  · exact le_preponed b le_rfl far

include satisfies in
/-- A node can be postponed without the nodes all walks from which leave enough room. -/
theorem exists_postponed (c : α) : ∃ t', Satisfies E t' ∧ b ≤ t' c ∧
    ∀ v, (∀ p, Walk (fun u v => E v u) c v p → b - p ≤ t v) → t' v = t v := by
  have reversed : Satisfies (fun u v => E v u) fun v => -t v := by
    intro u v x edge
    have := satisfies v u x edge
    dsimp only
    omega
  obtain ⟨t', satisfies', moved, others⟩ := exists_preponed reversed (-b) c
  refine ⟨fun v => -t' v, fun u v x edge => ?_, Int.le_neg_of_le_neg moved, fun v near => ?_⟩
  · have := satisfies' v u x edge
    dsimp only
    omega
  · have same := others v fun p walk => by
      have := near p walk
      omega
    dsimp only at same ⊢
    omega

end

end TemporalNetwork
