import TemporalNetwork.Proofs.Conditional.Derivations
import TemporalNetwork.Proofs.Conditional.Plain

/-!
Passes over all pairs of nodes. Every pass allows one more node as a stop on the way: after `k` passes
the edge from `u` to `v` covers the length of each walk whose inner nodes are below `k`, and no walk of
that kind is a negative loop. When all nodes are allowed, the lengths of walks are closed under
composition, no sum of values is less than them, and nothing is left to be added.
-/

namespace TemporalNetwork

namespace Network

/-- Whether the edge from `u` to `v` holds a value other than `+∞` that is at most `c`. -/
def Limits (g : LabeledNetwork) (u v : NodeId) (c : Int) : Prop :=
  ∃ x ≤ c, x < Value.posInf ∧ g.Holds u v x

/-- Whether a walk from `u` to `v` whose inner nodes are below `k` has at most the length `c`. -/
def WalkWithin (g : LabeledNetwork) : (k : Nat) → NodeId → NodeId → Int → Prop
  | 0, u, v, c => g.Limits u v c
  | k + 1, u, v, c =>
    g.WalkWithin k u v c ∨ ∃ a b, g.WalkWithin k u k a ∧ g.WalkWithin k k v b ∧ a + b ≤ c

/-- Whether no walk whose inner nodes are below `k` returns to where it started with a negative
length. -/
def LoopsNonneg (g : LabeledNetwork) (k : Nat) : Prop := ∀ u c, g.WalkWithin k u u c → 0 ≤ c

variable {g h : LabeledNetwork} {u v m : NodeId} {k : Nat} {a b c d : Int}

theorem Limits.le (limits : g.Limits u v c) (le : c ≤ d) : g.Limits u v d := by
  obtain ⟨x, below, finite, holds⟩ := limits
  exact ⟨x, below.trans le, finite, holds⟩

theorem Limits.grows (limits : g.Limits u v c) (grows : g.Grows h) : h.Limits u v c := by
  obtain ⟨x, below, finite, holds⟩ := limits
  obtain ⟨y, le, holds'⟩ := HoldsIn.grows holds grows
  exact ⟨y, le.trans below, lt_of_le_of_lt le finite, holds'⟩

namespace WalkWithin

theorem le (walk : g.WalkWithin k u v c) (le : c ≤ d) : g.WalkWithin k u v d := by
  induction k generalizing u v c d with
  | zero => exact Limits.le walk le
  | succ k ih =>
    rcases walk with walk | ⟨a, b, first, second, within⟩
    · exact Or.inl (ih walk le)
    · exact Or.inr ⟨a, b, first, second, within.trans le⟩

theorem of_limits (limits : g.Limits u v c) (k : Nat) : g.WalkWithin k u v c := by
  induction k with
  | zero => exact limits
  | succ k ih => exact Or.inl ih

theorem lt (walk : g.WalkWithin k u v c) (wf : g.WellFormed) :
    u < g.nodeCount ∧ v < g.nodeCount := by
  induction k generalizing u v c with
  | zero =>
    obtain ⟨x, _, _, holds⟩ := walk
    exact holds.lt wf
  | succ k ih =>
    rcases walk with walk | ⟨a, b, first, second, _⟩
    · exact ih walk
    · exact ⟨(ih first).1, (ih second).2⟩

theorem to_newest (loops : g.LoopsNonneg k) (walk : g.WalkWithin (k + 1) u k c) :
    g.WalkWithin k u k c := by
  rcases walk with walk | ⟨a, b, first, loop, within⟩
  · exact walk
  · have nonneg := loops k b loop
    exact first.le (by linarith)

theorem from_newest (loops : g.LoopsNonneg k) (walk : g.WalkWithin (k + 1) k v c) :
    g.WalkWithin k k v c := by
  rcases walk with walk | ⟨a, b, loop, second, within⟩
  · exact walk
  · have nonneg := loops k a loop
    exact second.le (by linarith)

theorem trans (loops : g.LoopsNonneg k) (inner : m < k) (first : g.WalkWithin k u m a)
    (second : g.WalkWithin k m v b) : g.WalkWithin k u v (a + b) := by
  induction k generalizing u v m a b with
  | zero => exact absurd inner (Nat.not_lt_zero m)
  | succ k ih =>
    have loops' : g.LoopsNonneg k := fun u c walk => loops u c (Or.inl walk)
    rcases Nat.lt_succ_iff_lt_or_eq.mp inner with older | rfl
    · rcases first with first | ⟨a₁, a₂, first₁, first₂, le⟩
      · rcases second with second | ⟨b₁, b₂, second₁, second₂, le'⟩
        · exact Or.inl (ih loops' older first second)
        · exact Or.inr ⟨a + b₁, b₂, ih loops' older first second₁, second₂, by linarith⟩
      · rcases second with second | ⟨b₁, b₂, second₁, second₂, le'⟩
        · exact Or.inr ⟨a₁, a₂ + b, first₁, ih loops' older first₂ second, by linarith⟩
        · -- Between its two visits of the newest node the walk is a loop.
          have nonneg := loops' k _ (ih loops' older first₂ second₁)
          exact Or.inr ⟨a₁, b₂, first₁, second₂, by linarith⟩
    · exact Or.inr ⟨a, b, first.to_newest loops', second.from_newest loops', le_rfl⟩

end WalkWithin

end Network

/-- What a network that has grown from `start` covers after `k` passes. -/
structure Network.Tight (start : LabeledNetwork) (k : Nat) (g : LabeledNetwork) : Prop where
  loops : start.LoopsNonneg k
  limits : ∀ u v c, start.WalkWithin k u v c → u ≠ v → g.Limits u v (max c Value.negInf)

/-- The values that propagation gives to the edge from `u` to `v`, unless there is a negative loop. -/
def Network.WalkValue (start : LabeledNetwork) (u v : NodeId) (x : Value) : Prop :=
  x.InRange ∧ (start.LoopsNonneg start.nodeCount →
    x = Value.posInf ∨ start.WalkWithin start.nodeCount u v x)

namespace PlainProblem

variable {ctx : RuleContext} {start g h : LabeledNetwork} {u v m x y w : NodeId} {k : Nat}
  {a b t : Value} {c d : Int}

theorem negInf_lt (problem : PlainProblem ctx start) : Value.negInf < -ctx.horizon := by
  have finite : ctx.horizon < 2147483647 := problem.finite
  have below : (-2147483648 : Int) < -ctx.horizon := by linarith
  exact below

theorem clamp_le_max (t : Value) : ctx.clamp t ≤ max t Value.negInf := by
  unfold RuleContext.clamp
  split
  · exact le_max_right _ _
  · exact le_max_left _ _

theorem clamp_sum_le (sum : Value.sum? a b = some t) (ha : a ≤ max c Value.negInf)
    (hb : b ≤ max d Value.negInf) (range : a.InRange) (range' : b.InRange)
    (finite : a < Value.posInf) (finite' : b < Value.posInf) :
    ctx.clamp t ≤ max (c + d) Value.negInf ∧ ctx.clamp t < Value.posInf := by
  have small : (Value.negInf : Value) < Value.posInf := by decide
  have le : t ≤ max (c + d) Value.negInf ∧ t < Value.posInf := by
    rcases Value.sum?_cases sum with ⟨infinite | infinite, _⟩ | ⟨_, _, _, rfl⟩ |
        ⟨rfl, inside, _, _, low, low'⟩
    · exact absurd infinite (ne_of_lt finite)
    · exact absurd infinite (ne_of_lt finite')
    · exact ⟨le_max_right _ _, small⟩
    · have above := lt_of_le_of_ne range.1 (Ne.symm low)
      have above' := lt_of_le_of_ne range'.1 (Ne.symm low')
      have le : a ≤ c := (le_max_iff.mp ha).resolve_right (not_le.mpr above)
      have le' : b ≤ d := (le_max_iff.mp hb).resolve_right (not_le.mpr above')
      exact ⟨le_max_of_le_left (by linarith), inside.2⟩
  have clamped : ctx.clamp t ≤ max t Value.negInf := clamp_le_max t
  exact ⟨clamped.trans (max_le le.1 (le_max_right _ _)), lt_of_le_of_lt clamped (max_lt le.2 small)⟩

theorem walk_toZ (problem : PlainProblem ctx start) (inside : m < start.nodeCount)
    (apart : m ≠ ctx.z) : start.WalkWithin start.nodeCount m ctx.z 0 := by
  obtain ⟨r, le, holds⟩ := problem.plain.covers_iff.mp (problem.early m inside apart)
  exact .of_limits ⟨r, le, lt_of_le_of_lt le (by decide), holds⟩ _

theorem walk_fromZ (problem : PlainProblem ctx start) (inside : m < start.nodeCount)
    (apart : m ≠ ctx.z) : start.WalkWithin start.nodeCount ctx.z m ctx.horizon := by
  obtain ⟨r, le, holds⟩ := problem.plain.covers_iff.mp (problem.late m inside apart)
  exact .of_limits ⟨r, le, lt_of_le_of_lt le problem.finite, holds⟩ _

theorem neg_horizon_le_toZ (problem : PlainProblem ctx start)
    (loops : start.LoopsNonneg start.nodeCount)
    (walk : start.WalkWithin start.nodeCount u ctx.z c) : -ctx.horizon ≤ c := by
  by_cases here : u = ctx.z
  · subst here
    have nonneg := loops ctx.z c walk
    linarith [problem.nonneg]
  · -- The bound of the node by the horizon closes the walk to a loop.
    have inside := (walk.lt problem.wellFormed).1
    have nonneg := loops ctx.z _ ((problem.walk_fromZ inside here).trans loops inside walk)
    linarith

theorem neg_horizon_le (problem : PlainProblem ctx start) (loops : start.LoopsNonneg start.nodeCount)
    (walk : start.WalkWithin start.nodeCount u v c) : -ctx.horizon ≤ c := by
  by_cases here : v = ctx.z
  · subst here
    exact problem.neg_horizon_le_toZ loops walk
  · have inside := (walk.lt problem.wellFormed).2
    have whole := walk.trans loops inside (problem.walk_toZ inside here)
    linarith [problem.neg_horizon_le_toZ loops whole]

/-- Without a negative loop, sums along paths are lengths of walks, and the clamp leaves them alone. -/
theorem walk_of_sums (problem : PlainProblem ctx start) (loops : start.LoopsNonneg start.nodeCount)
    (grows : start.Grows g) (wf : g.WellFormed) (plain : g.Plain start.WalkValue)
    (sums : g.Sums x y w t) :
    ctx.clamp t = t ∧ (t = Value.posInf ∨ start.WalkWithin start.nodeCount x w t) := by
  obtain ⟨a, b, first, second, sum⟩ := sums
  have infinite : ctx.clamp Value.posInf = Value.posInf :=
    Closed.clamp_of_le ((neg_nonpos.mpr problem.nonneg).trans (by decide))
  have inside : y < start.nodeCount := by
    rw [← grows.nodeCount]
    exact (first.lt wf).2
  have known := (plain.holds first).2.2 loops
  have known' := (plain.holds second).2.2 loops
  have above : ∀ {u v x}, start.WalkWithin start.nodeCount u v x → x ≠ Value.negInf :=
    fun walk same => absurd (problem.neg_horizon_le loops walk) (not_le.mpr (same ▸ problem.negInf_lt))
  rcases Value.sum?_cases sum with ⟨_, rfl⟩ | ⟨low, notInf, notInf', _⟩ | ⟨rfl, _, notInf, notInf', _⟩
  · exact ⟨infinite, Or.inl rfl⟩
  · rcases low with low | low
    · exact absurd low (above (known.resolve_left notInf))
    · exact absurd low (above (known'.resolve_left notInf'))
  · have walk := (known.resolve_left notInf).trans loops inside (known'.resolve_left notInf')
    exact ⟨Closed.clamp_of_le (problem.neg_horizon_le loops walk), Or.inr walk⟩

theorem plain_walkValue (problem : PlainProblem ctx start) : start.Plain start.WalkValue := by
  intro u v e joined
  obtain ⟨apart, upper, values⟩ := problem.plain u v e joined
  refine ⟨apart, upper, fun l x mem => ?_⟩
  obtain ⟨rfl, range⟩ := values l x mem
  refine ⟨rfl, range, fun _ => ?_⟩
  rcases eq_or_lt_of_le range.2 with infinite | finite
  · exact Or.inl infinite
  · exact Or.inr (.of_limits ⟨x, le_rfl, finite, Network.holds_of_mem joined mem⟩ _)

theorem performs_walkValue (problem : PlainProblem ctx start) :
    Propagation.Performs ctx start (Network.Plain start.WalkValue) Halt.Derived := by
  refine Propagation.performs_plain problem.unlinked fun g x y w t wf grows plain _ sums => ?_
  have ⟨_, _, _, _, sum⟩ := sums
  refine ⟨RuleContext.clamp_inRange sum, fun loops => ?_⟩
  obtain ⟨clamped, walk⟩ := problem.walk_of_sums loops grows wf plain sums
  rwa [clamped]

theorem limits_of_settledAt (problem : PlainProblem ctx start) (plain : g.Plain start.WalkValue)
    (settled : ∀ d ∈ (Application.labelPropagation x y w).derivations ctx g, d.SettledAt h x w)
    (first : g.Limits x y (max c Value.negInf)) (second : g.Limits y w (max d Value.negInf)) :
    (x = w → 0 ≤ c + d) ∧ (x ≠ w → h.Limits x w (max (c + d) Value.negInf)) := by
  obtain ⟨a, ha, finite, holds⟩ := first
  obtain ⟨b, hb, finite', holds'⟩ := second
  obtain ⟨apart, range, _⟩ := plain.holds holds
  obtain ⟨apart', range', _⟩ := plain.holds holds'
  obtain ⟨t, label, sum, sub, loop, other⟩ := Application.path_of_settledAt settled problem.enabled
    Label.isComplete_allStraight (Network.HoldsIn.holdsCase holds) (Network.HoldsIn.holdsCase holds')
    apart apart'
  obtain ⟨le, below⟩ := clamp_sum_le sum ha hb range range' finite finite'
  constructor
  · intro same
    have nonneg := (loop same rfl).trans le
    exact (le_max_iff.mp nonneg).resolve_right (by decide)
  · intro away
    obtain ⟨r, le', holds⟩ := ((other away).resolve_left (ne_of_lt below)).holdsIn sub
    exact ⟨r, le'.trans le, lt_of_le_of_lt le' below, holds⟩

theorem limits_of_passed (problem : PlainProblem ctx start) (everywhere : ctx.onlyToZ = false)
    (passed : Propagation.Passed ctx (Network.Plain start.WalkValue) g h)
    (first : g.Limits x y (max c Value.negInf)) (second : g.Limits y w (max d Value.negInf)) :
    (x = w → 0 ≤ c + d) ∧ (x ≠ w → h.Limits x w (max (c + d) Value.negInf)) := by
  obtain ⟨k, between, settled⟩ := passed.made (.labelPropagation x y w) fun toZ => by
    rw [everywhere] at toZ
    cases toZ
  exact problem.limits_of_settledAt between.holds settled (first.grows between.after)
    (second.grows between.after)

theorem tight_zero (problem : PlainProblem ctx start) : start.Tight 0 start where
  loops u c walk := by
    obtain ⟨x, _, _, holds⟩ := walk
    exact absurd rfl (problem.plain.holds holds).1
  limits u v c walk _ := Network.Limits.le walk (le_max_left _ _)

theorem tight_succ (problem : PlainProblem ctx start) (everywhere : ctx.onlyToZ = false)
    (passed : Propagation.Passed ctx (Network.Plain start.WalkValue) g h) (tight : start.Tight k g) :
    start.Tight (k + 1) h where
  loops u c walk := by
    by_cases here : u = k
    · subst here
      exact tight.loops u c (walk.from_newest tight.loops)
    · rcases walk with walk | ⟨a, b, first, second, le⟩
      · exact tight.loops u c walk
      · have whole := (problem.limits_of_passed everywhere passed (tight.limits u k a first here)
          (tight.limits k u b second (Ne.symm here))).1 rfl
        linarith
  limits u v c walk apart := by
    have older : start.WalkWithin k u v c → h.Limits u v (max c Value.negInf) :=
      fun walk => (tight.limits u v c walk apart).grows passed.grows
    by_cases here : u = k
    · subst here
      exact older (walk.from_newest tight.loops)
    · by_cases there : v = k
      · subst there
        exact older (walk.to_newest tight.loops)
      · rcases walk with walk | ⟨a, b, first, second, le⟩
        · exact older walk
        · have whole := (problem.limits_of_passed everywhere passed (tight.limits u k a first here)
            (tight.limits k v b second (Ne.symm there))).2 apart
          exact whole.le (max_le_max_right _ le)

/-- When all nodes are allowed as inner nodes, no pass adds anything. -/
theorem not_passed (problem : PlainProblem ctx start) (grows : start.Grows g)
    (tight : start.Tight start.nodeCount g) :
    ¬ Propagation.Passed ctx (Network.Plain start.WalkValue) g h := by
  intro passed
  obtain ⟨k, a, between, possible, d, mem, unsettled, settled⟩ := passed.advanced
  cases d with
  | negativeLoop loop => exact settled
  | sumOverflow lhs rhs => exact settled
  | value case label s =>
    obtain ⟨x, y, w, t, rfl, _, apart, sums, rfl, rfl, rfl⟩ :=
      between.holds.exists_sum problem.unlinked possible mem
    obtain ⟨clamped, infinite | walk⟩ := problem.walk_of_sums tight.loops (grows.trans between.after)
      between.wellFormed between.holds sums
    · exact unsettled (Or.inl (clamped.trans infinite))
    · obtain ⟨r, le, _, holds⟩ := (tight.limits x w t walk apart).grows between.after
      have above := problem.negInf_lt.le.trans (problem.neg_horizon_le tight.loops walk)
      rw [max_eq_left above] at le
      exact unsettled (Or.inr (between.holds.covers_iff.mpr ⟨r, le.trans clamped.ge, holds⟩))

/-- For all pairs of nodes, propagation ends within one pass more than there are nodes. -/
theorem toFixpoint_ends_everywhere {p : Progress} {limit : Nat} (problem : PlainProblem ctx p.network)
    (everywhere : ctx.onlyToZ = false)
    (enough : p.network.edgeIds ≠ [] → p.network.nodeCount < limit) :
    Ends (Propagation.toFixpoint ctx .never limit) p (fun _ _ => True)
      (fun halt _ => halt.Derived) := by
  refine Propagation.toFixpoint_ends_within (fun n g => ∃ k ≤ p.network.nodeCount,
      p.network.Tight k g ∧ p.network.nodeCount < k + n) problem.performs_walkValue
    (fun link mem => ?_) ?_ ?_ problem.wellFormed ?_ ?_
  · rw [problem.unlinked] at mem
    cases mem
  · rintro g ⟨k, le, _, lt⟩
    lia
  · rintro n g h wf grows plain passed ⟨k, le, tight, lt⟩
    have next : k < p.network.nodeCount := by
      refine lt_of_le_of_ne le ?_
      rintro rfl
      exact problem.not_passed grows tight passed
    exact ⟨k + 1, next, problem.tight_succ everywhere passed tight, by lia⟩
  · exact problem.plain_walkValue
  · intro some
    exact ⟨0, Nat.zero_le _, problem.tight_zero, by simpa using enough some⟩

end PlainProblem

end TemporalNetwork
