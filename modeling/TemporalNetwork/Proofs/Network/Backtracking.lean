import TemporalNetwork.Proofs.Network.Shifting

/-!
When difference constraints can be satisfied although some of them are negative. The negative edges into
a node are followed backwards along edges that are not negative, as long as the path is negative; where
it ceases to be, there is an edge that is no longer than the path. If a path that meets a further
negative edge has come to a node of lower rank, the negative edges can be satisfied one after the
other: each time the node it starts at is postponed.
-/

namespace TemporalNetwork

variable {α : Type}

/-- `near s v p` tells that a negative path from `v` to `s` has been followed, and that no path which it
stands for is longer than `p`. -/
structure Backtracked (E : α → α → Int → Prop) (near : α → α → Int → Prop) (rank : α → Nat) : Prop where
  start : ∀ {u s w}, E u s w → w < 0 → near s u w
  step : ∀ {s v p u w}, near s v p → E u v w → 0 ≤ w →
    near s u (p + w) ∨ u = s ∧ 0 ≤ p + w ∨ ∃ e, E u s e ∧ 0 ≤ e ∧ e ≤ p + w
  earlier : ∀ {s v p u w}, near s v p → E u v w → w < 0 → rank v < rank s
  mono : ∀ {s v p q}, near s v p → p ≤ q → near s v q

/-- Paths that are composed of ones that have been followed. -/
inductive Followed (E : α → α → Int → Prop) (near : α → α → Int → Prop) : α → α → Int → Prop
  | direct {s v : α} {p : Int} (path : near s v p) : Followed E near s v p
  | nested {s k v u : α} {q r p w : Int} (outer : Followed E near s k q) (edge : E u k w)
    (negative : w < 0) (inner : near k v r) (le : q + r ≤ p) : Followed E near s v p

/-- The constraints that are not negative, and some of those that are. -/
def Allowed (E : α → α → Int → Prop) (done : List (α × α × Int)) (u v : α) (w : Int) : Prop :=
  E u v w ∧ (0 ≤ w ∨ (u, v, w) ∈ done)

variable {E : α → α → Int → Prop} {near : α → α → Int → Prop} {rank : α → Nat}
  {done : List (α × α × Int)} {s u v : α} {p q w : Int}

variable (tracked : Backtracked E near rank)

include tracked in
theorem Followed.mono (path : Followed E near s v p) (le : p ≤ q) : Followed E near s v q := by
  cases path with
  | direct path => exact .direct (tracked.mono path le)
  | nested outer edge negative inner le' => exact .nested outer edge negative inner (le'.trans le)

include tracked in
theorem Followed.rank_lt (path : Followed E near s v p) (edge : E u v w) (negative : w < 0) :
    rank v < rank s := by
  induction path generalizing u w with
  | direct path => exact tracked.earlier path edge negative
  | nested _ edge' negative' inner _ ih =>
    exact (tracked.earlier inner edge negative).trans (ih edge' negative')

include tracked in
theorem Followed.step (path : Followed E near s v p) (edge : E u v w) :
    Followed E near s u (p + w) ∨ u = s ∧ 0 ≤ p + w ∨ ∃ e, E u s e ∧ 0 ≤ e ∧ e ≤ p + w := by
  rcases lt_or_ge w 0 with negative | nonneg
  · exact Or.inl (.nested path edge negative (tracked.start edge negative) le_rfl)
  · induction path generalizing u w with
    | direct path => exact (tracked.step path edge nonneg).imp_left .direct
    | @nested k v x q r p y outer edge' negative inner le ih =>
      rcases tracked.step inner edge nonneg with onward | ⟨rfl, far⟩ | ⟨e, edge'', nonneg', far⟩
      · exact Or.inl (.nested outer edge' negative onward (by linarith))
      · exact Or.inl (outer.mono tracked (by linarith))
      · rcases ih edge'' nonneg' with onward | ⟨same, far'⟩ | ⟨e', edge', nonneg', far'⟩
        · exact Or.inl (onward.mono tracked (by linarith))
        · exact Or.inr (Or.inl ⟨same, by linarith⟩)
        · exact Or.inr (Or.inr ⟨e', edge', nonneg', by linarith⟩)

include tracked in
/-- A node with a negative edge into it is not postponed when the node is at which the edge starts. -/
theorem nonneg_of_walk {t : α → Int} (satisfies : Satisfies (Allowed E done) t) (edge : E u s w)
    (negative : w < 0) (walk : Walk (fun a b => Allowed E done b a) u s p) : 0 ≤ w + p := by
  have followed : ∀ {v p}, Walk (fun a b => Allowed E done b a) u v p →
      Followed E near s v (w + p) ∨ t s ≤ t v + (w + p) := by
    intro v p walk
    induction walk with
    | here => exact Or.inl (.direct (tracked.mono (tracked.start edge negative) (by linarith)))
    | @step v x p y _ onward ih =>
      rcases ih with path | settled
      · rcases path.step tracked onward.1 with path | ⟨rfl, far⟩ | ⟨e, shortcut, nonneg, far⟩
        · exact Or.inl (path.mono tracked (by linarith))
        · exact Or.inr (by linarith)
        · have := satisfies x s e ⟨shortcut, Or.inl nonneg⟩
          exact Or.inr (by linarith)
      · have := satisfies x v y onward
        exact Or.inr (by linarith)
  rcases followed walk with path | settled
  · exact absurd (path.rank_lt tracked edge negative) (lt_irrefl _)
  · linarith

include tracked in
theorem exists_satisfies_cons {t : α → Int} (satisfies : Satisfies (Allowed E done) t)
    (edge : E u s w) (negative : w < 0) : ∃ t', Satisfies (Allowed E ((u, s, w) :: done)) t' := by
  obtain ⟨t', satisfies', moved, kept⟩ := exists_postponed satisfies (t s - w) u
  have same := kept s fun p walk => by
    have := nonneg_of_walk tracked satisfies edge negative walk
    linarith
  refine ⟨t', fun a b x ⟨edge', allowed⟩ => ?_⟩
  rcases allowed with nonneg | mem
  · exact satisfies' a b x ⟨edge', Or.inl nonneg⟩
  · rcases List.mem_cons.mp mem with here | before
    · cases here
      linarith
    · exact satisfies' a b x ⟨edge', Or.inr before⟩

include tracked in
/-- Constraints of which finitely many are negative can be satisfied if all of those have been followed
backwards. -/
theorem Backtracked.exists_satisfies (edges : List (α × α × Int))
    (finite : ∀ u v w, E u v w → w < 0 → (u, v, w) ∈ edges) : ∃ t, Satisfies E t := by
  have some : ∀ done : List (α × α × Int), ∃ t, Satisfies (Allowed E done) t := by
    intro done
    induction done with
    | nil => exact ⟨fun _ => 0, fun u v w ⟨_, nonneg⟩ => by simpa using nonneg⟩
    | cons first done ih =>
      obtain ⟨t, satisfies⟩ := ih
      obtain ⟨u, v, w⟩ := first
      by_cases negative : E u v w ∧ w < 0
      · exact exists_satisfies_cons tracked satisfies negative.1 negative.2
      · refine ⟨t, fun a b x ⟨edge, allowed⟩ => satisfies a b x ⟨edge, ?_⟩⟩
        rcases allowed with nonneg | mem
        · exact Or.inl nonneg
        · rcases List.mem_cons.mp mem with here | before
          · cases here
            exact Or.inl (not_lt.mp fun less => negative ⟨edge, less⟩)
          · exact Or.inr before
  obtain ⟨t, satisfies⟩ := some edges
  refine ⟨t, fun u v w edge => satisfies u v w ⟨edge, ?_⟩⟩
  rcases lt_or_ge w 0 with negative | nonneg
  · exact Or.inr (finite u v w edge negative)
  · exact Or.inl nonneg

end TemporalNetwork
