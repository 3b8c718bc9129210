import TemporalNetwork.Proofs.Stnu.NormalStrategy

/-!
Times for the normal form of a network are times for the network: a link that was started at a new node
takes the shortest duration more. The normal form keeps the negative edges into an activation node apart
from one another, if the links without a shortest duration were so before.
-/

namespace TemporalNetwork

/-- Times that satisfy the ordinary constraints and with which the links take the given durations. -/
structure Solves (g : PlainNetwork) (links : List StnuLink) (durations : Nat → Int)
    (t : NodeId → Int) : Prop where
  ordinary : ∀ u v w, g.ordinary? u v = some w → t v ≤ t u + w
  lasts : ∀ (i : Nat) (link : StnuLink), links[i]? = some link →
    t link.contingent = t link.activation + durations i

/-- A network in which no negative edge leads into the activation node of a link that may take no time,
and no other link is activated there. -/
structure Separated (g : PlainNetwork) (links : List StnuLink) : Prop where
  carries : Carries g links
  finite : ∀ link ∈ links, link.lower < Value.posInf
  back : ∀ link ∈ links, g.bound link.contingent link.activation ≤ -link.lower
  nonneg : ∀ link ∈ links, link.lower = 0 → ∀ u, 0 ≤ g.bound u link.activation
  alone : ∀ link ∈ links, link.lower = 0 → ∀ other ∈ links, other.activation = link.activation →
    other = link

section shift

open NormalForm

variable {before rest : List StnuLink} {link : StnuLink} {g h : PlainNetwork} {durations : Nat → Int}
  {t : NodeId → Int}

theorem NormalForm.Shifted.bound_of_lt (shift : Shifted g link h) {u v : NodeId} (hu : u < g.nodeCount)
    (hv : v < g.nodeCount) : h.bound u v = g.bound u v := by
  rw [shift.bound, if_neg fun same => hv.ne' same.2, if_neg fun same => hu.ne' same.1,
    if_neg fun same => hu.ne' same.1, if_neg fun same => hv.ne' same.2]

theorem Separated.shift (separated : Separated g (before ++ link :: rest)) (positive : 0 < link.lower)
    (shift : Shifted g link h) : Separated h (before ++ shifted g link :: rest) := by
  have carries := separated.carries
  have here : link ∈ before ++ link :: rest := by simp
  obtain ⟨ha, hc⟩ := carries.inside link here
  have range := carries.range link here
  -- The shifted link starts at a new node, with which no other link shares an end.
  have old : ∀ {other}, other ∈ before ++ shifted g link :: rest →
      other = shifted g link ∨ other ∈ before ++ rest ∧ other ∈ before ++ link :: rest := by
    intro other mem
    simp only [List.mem_append, List.mem_cons] at mem ⊢
    tauto
  have inside : ∀ {other}, other ∈ before ++ link :: rest →
      other.activation < g.nodeCount ∧ other.contingent < g.nodeCount := carries.inside _
  refine ⟨carries.shift shift, fun other mem => ?_, fun other mem => ?_, fun other mem none u => ?_,
    fun other mem none other' mem' same => ?_⟩
  · rcases old mem with rfl | ⟨_, mem⟩
    · change (0 : Value) < Value.posInf
      decide
    · exact separated.finite other mem
  · rcases old mem with rfl | ⟨_, mem⟩
    · rw [shift.bound, shifted, if_pos ⟨rfl, rfl⟩]
      exact le_rfl
    · rw [shift.bound_of_lt (inside mem).2 (inside mem).1]
      exact separated.back other mem
  · rw [shift.bound]
    have posInf : (0 : Value) ≤ Value.posInf := by decide
    rcases old mem with rfl | ⟨_, mem⟩
    · change 0 ≤ if link.contingent = u ∧ g.nodeCount = g.nodeCount then _ else _
      split
      · exact le_rfl
      · rw [if_neg fun same => hc.ne same.2, if_neg fun same => ha.ne same.2]
        split
        · exact le_min positive.le posInf
        · exact posInf.trans_eq (Network.bound_of_le_right carries.wellFormed u le_rfl).symm
    · have apart : ¬ link.activation = other.activation := by
        intro same
        rw [separated.alone other mem none link here same] at positive
        exact positive.ne' none
      rw [if_neg fun same => (inside mem).1.ne' same.2]
      split
      · exact le_min (sub_nonneg.mpr range.le) posInf
      · rw [if_neg fun same => apart same.2, if_neg fun same => (inside mem).1.ne' same.2]
        exact separated.nonneg other mem none u
  · rcases old mem with rfl | ⟨_, mem⟩ <;> rcases old mem' with rfl | ⟨_, mem'⟩
    · rfl
    · exact absurd same (inside mem').1.ne
    · exact absurd same.symm (inside mem).1.ne
    · exact separated.alone other mem none other' mem' same

theorem Solves.unshift (separated : Separated g (before ++ link :: rest)) (positive : 0 < link.lower)
    (shift : Shifted g link h)
    (solves : Solves h (before ++ shifted g link :: rest)
      (Function.update durations before.length (durations before.length - link.lower)) t) :
    Solves g (before ++ link :: rest) durations t := by
  have carries := separated.carries
  have here : link ∈ before ++ link :: rest := by simp
  obtain ⟨ha, hc⟩ := carries.inside link here
  refine ⟨fun u v w weight => ?_, fun i other listed => ?_⟩
  · obtain ⟨hu, hv⟩ := Network.lt_of_ordinary? carries.wellFormed weight
    obtain ⟨bound, finite⟩ := Network.ordinary?_eq_some_iff.mp weight
    exact solves.ordinary u v w
      (Network.ordinary?_eq_some_iff.mpr ⟨(shift.bound_of_lt hu hv).trans bound, finite⟩)
  · rcases listed_shifted (g := g) listed with ⟨rfl, rfl⟩ | ⟨apart, listed'⟩
    · have finite := separated.finite other here
      have lasts := solves.lasts _ _ (listed_middle before (shifted g other) rest)
      rw [Function.update_self] at lasts
      obtain ⟨later, sooner⟩ := shift.ordinary?_around (carries.inside other here)
        (carries.apart other here) positive.le finite
      have := solves.ordinary _ _ _ later
      have := solves.ordinary _ _ _ sooner
      change t other.contingent = t g.nodeCount + _ at lasts
      linarith
    · have lasts := solves.lasts i other listed'
      rwa [Function.update_of_ne apart] at lasts

/-- Times for the normal form are times for the network. -/
theorem Separated.ofLinks {links : List StnuLink} (separated : Separated g links)
    (within : ∀ (i : Nat) (link : StnuLink), links[i]? = some link →
      link.lower ≤ durations i ∧ durations i ≤ link.upper) :
    Separated (ofLinks g links).1 (ofLinks g links).2.1 ∧ ∃ durations',
      (∀ (i : Nat) (link : StnuLink), (ofLinks g links).2.1[i]? = some link →
        link.lower ≤ durations' i ∧ durations' i ≤ link.upper) ∧
      ∀ t, Solves (ofLinks g links).1 (ofLinks g links).2.1 durations' t →
        Solves g links durations t := by
  refine ofLinks_induct (I := fun h links' => Separated h links' ∧ ∃ durations' : Nat → Int,
    (∀ (i : Nat) (link : StnuLink), links'[i]? = some link →
      link.lower ≤ durations' i ∧ durations' i ≤ link.upper) ∧
    ∀ t, Solves h links' durations' t → Solves g links durations t) ?_ links [] g
    ⟨separated, durations, within, fun _ => id⟩
  rintro h before link rest ⟨separated, durations', within, solves⟩ positive
  have here : link ∈ before ++ link :: rest := by simp
  have shift := shifted_shiftLink separated.carries.wellFormed (separated.carries.inside link here)
    (separated.carries.apart link here)
  refine ⟨separated.shift positive shift,
    Function.update durations' before.length (durations' before.length - link.lower),
    fun i other listed => ?_, fun t solves' => solves t (solves'.unshift separated positive shift)⟩
  by_cases same : i = before.length
  · subst same
    rw [listed_middle] at listed
    cases listed
    obtain ⟨least, most⟩ := within _ _ (listed_middle before link rest)
    rw [Function.update_self, shifted]
    constructor <;> dsimp only <;> linarith
  · rw [listed_other same (shifted h link) link] at listed
    rw [Function.update_of_ne same]
    exact within i other listed

end shift

end TemporalNetwork
