import TemporalNetwork.Proofs.Stnu.Preparation
import TemporalNetwork.Proofs.Strategy.Unforeseeing

/-!
Strategies that schedule a network without knowing how long its links will take.
-/

namespace TemporalNetwork

section strategies

variable {T : Type*} [Field T] [LinearOrder T] [IsStrictOrderedRing T]

/-- A strategy that controls a network: `σ ω n` is the time of `n` if the links take the durations
`ω`. No node is before the reference node, the constraints that are not those of a link hold, and a
node that is not contingent has the same time for durations with which the same contingent nodes have
occurred by then, at the same times. -/
structure ControlStrategy (g : PlainNetwork) (links : List StnuLink) (σ : (Nat → T) → NodeId → T) :
    Prop where
  first : ∀ ω, Admissible links ω → ∀ n, g.Scheduled n → σ ω g.origin ≤ σ ω n
  constraint : ∀ ω, Admissible links ω → ∀ u v edge w, g.edgeBetween? u v = some edge →
    edge.kind ≠ .contingent → edge.value? = some w → σ ω v ≤ σ ω u + w
  lasts : ∀ ω, Admissible links ω → ∀ (i : Nat) (link : StnuLink), links[i]? = some link →
    σ ω link.contingent = σ ω link.activation + ω i
  dynamic : ∀ ω ω', Admissible links ω → Admissible links ω' → ∀ n, g.Scheduled n →
    (∀ link ∈ links, n ≠ link.contingent) →
    (∀ link ∈ links, σ ω link.contingent ≤ σ ω n ∨ σ ω' link.contingent ≤ σ ω n →
      σ ω' link.contingent = σ ω link.contingent) →
    σ ω' n = σ ω n

/-- The ends of the links are scheduled. -/
def LinksScheduled (links : List StnuLink) (g : PlainNetwork) : Prop :=
  ∀ link ∈ links, g.Scheduled link.activation ∧ g.Scheduled link.contingent

/-- The nodes that are scheduled. -/
def Network.scheduled (g : PlainNetwork) : Finset NodeId := insert g.origin (Finset.range g.nodeCount)

theorem Network.mem_scheduled {g : PlainNetwork} {n : NodeId} :
    n ∈ g.scheduled ↔ g.Scheduled n := by
  rw [scheduled, Finset.mem_insert, Finset.mem_range, Scheduled, or_comm]

namespace ControlStrategy

variable {g : PlainNetwork} {links : List StnuLink} {σ : (Nat → T) → NodeId → T} {ω : Nat → T}
  {n : NodeId} {i : Nat} {link : StnuLink}

omit [IsStrictOrderedRing T] in
theorem unforeseeing (strategy : ControlStrategy g links σ) (inside : LinksScheduled links g) :
    Unforeseeing g.scheduled links σ := by
  refine ⟨fun link mem => ?_, strategy.lasts, fun ω ω' admissible admissible' n mem => ?_⟩
  · exact ⟨Network.mem_scheduled.mpr (inside link mem).1, Network.mem_scheduled.mpr (inside link mem).2⟩
  · exact strategy.dynamic ω ω' admissible admissible' n (Network.mem_scheduled.mp mem)

/-- If a node is always before the end of a link by some distance, it is so for the shortest duration
of the link. -/
theorem le_of_before (strategy : ControlStrategy g links σ) (inside : LinksScheduled links g)
    (listed : links[i]? = some link) (nonneg : 0 ≤ link.lower) (scheduled : g.Scheduled n) {d : T}
    (negative : d < 0)
    (before : ∀ ω, Proper links ω → σ ω n ≤ σ ω link.contingent + d) (proper : Proper links ω) :
    σ ω n ≤ σ ω link.activation + (link.lower + d) :=
  (strategy.unforeseeing inside).le_of_before listed nonneg (Network.mem_scheduled.mpr scheduled)
    negative proper fun _ proper' => before _ proper'

/-- If a node is always at or after the end of a link but for some distance, the link must not start
until the node is near enough for its longest duration. -/
theorem le_of_after (strategy : ControlStrategy g links σ) (inside : LinksScheduled links g)
    (listed : links[i]? = some link) (nonneg : 0 ≤ link.lower) (range : link.lower < link.upper)
    (scheduled : g.Scheduled n) {d : T} (far : (link.upper : T) - link.lower ≤ d)
    (after : ∀ ω, Proper links ω → σ ω link.contingent ≤ σ ω n + d) (proper : Proper links ω) :
    σ ω link.activation ≤ σ ω n + (d - link.upper) :=
  (strategy.unforeseeing inside).le_of_after listed nonneg range (Network.mem_scheduled.mpr scheduled)
    far proper (after _)

end ControlStrategy

end strategies

end TemporalNetwork
