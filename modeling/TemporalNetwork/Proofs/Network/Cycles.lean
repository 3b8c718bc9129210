import TemporalNetwork.Proofs.Network.Shifting

/-!
Finitely many difference constraints can be satisfied unless some of them form a negative cycle. They
are taken in one after the other: the node an edge leads to is moved forward, and the node it starts
from stays, since every walk from the one back to the other is long enough.
-/

namespace TemporalNetwork

variable {α : Type}

/-- Whether some constraints contradict each other along a cycle. -/
def NegativeCycle (E : α → α → Int → Prop) : Prop := ∃ v p, Walk E v v p ∧ p < 0

variable {E : α → α → Int → Prop} {t : α → Int} {u v : α} {w : Int}

theorem NegativeCycle.mono {F : α → α → Int → Prop} (sub : ∀ u v x, E u v x → F u v x) :
    NegativeCycle E → NegativeCycle F := by
  rintro ⟨v, p, walk, negative⟩
  exact ⟨v, p, walk.mono sub, negative⟩

theorem Satisfies.not_negativeCycle (satisfies : Satisfies E t) : ¬ NegativeCycle E := by
  rintro ⟨v, p, walk, negative⟩
  have := satisfies.le_of_walk walk
  omega

/-- One more constraint is satisfied, if it closes no negative cycle with the others. -/
theorem Satisfies.exists_cons (satisfies : Satisfies E t)
    (nonneg : ∀ p, Walk E v u p → 0 ≤ w + p) :
    ∃ t', Satisfies E t' ∧ t' v ≤ t' u + w := by
  obtain ⟨t', satisfies', moved, kept⟩ := exists_preponed satisfies (t u + w) v
  have same := kept u fun p walk => by
    have := nonneg p walk
    omega
  exact ⟨t', satisfies', by omega⟩

theorem exists_satisfies_of_list (edges : List (α × α × Int))
    (nonneg : ¬ NegativeCycle fun u v x => (u, v, x) ∈ edges) :
    ∃ t, Satisfies (fun u v x => (u, v, x) ∈ edges) t := by
  induction edges with
  | nil => exact ⟨fun _ => 0, fun u v x mem => absurd mem List.not_mem_nil⟩
  | cons first rest ih =>
    obtain ⟨u, v, w⟩ := first
    have sub : ∀ a b x, (a, b, x) ∈ rest → (a, b, x) ∈ (u, v, w) :: rest :=
      fun a b x mem => List.mem_cons_of_mem _ mem
    obtain ⟨t, satisfies⟩ := ih fun cycle => nonneg (cycle.mono sub)
    obtain ⟨t', satisfies', here⟩ := satisfies.exists_cons (u := u) (v := v) (w := w) fun p walk => by
      by_contra negative
      exact nonneg ⟨u, w + p, (Walk.of_edge List.mem_cons_self).trans (walk.mono sub),
        not_le.mp negative⟩
    refine ⟨t', fun a b x mem => ?_⟩
    rcases List.mem_cons.mp mem with same | there
    · cases same
      exact here
    · exact satisfies' a b x there

end TemporalNetwork
