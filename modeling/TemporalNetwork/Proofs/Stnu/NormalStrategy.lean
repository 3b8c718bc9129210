import TemporalNetwork.Proofs.Stnu.NormalForm
import TemporalNetwork.Proofs.Strategy.Unforeseeing

/-!
Strategies for the normal form of a network. A link that is started at a new node takes the shortest
duration less; the new node is executed that time after the activation node.
-/

namespace TemporalNetwork

section listed

variable {before rest : List StnuLink} {link : StnuLink} {g : PlainNetwork}

theorem listed_middle (before : List StnuLink) (link : StnuLink) (rest : List StnuLink) :
    (before ++ link :: rest)[before.length]? = some link := by simp

theorem listed_other {k : Nat} (other : k ≠ before.length) (link link' : StnuLink) :
    (before ++ link :: rest)[k]? = (before ++ link' :: rest)[k]? := by
  have same : before ++ link' :: rest = (before ++ link :: rest).set before.length link' := by simp
  rw [same, List.getElem?_set_ne (Ne.symm other)]

theorem listed_shifted {k : Nat} {other : StnuLink}
    (listed : (before ++ link :: rest)[k]? = some other) :
    k = before.length ∧ other = link ∨
      k ≠ before.length ∧ (before ++ NormalForm.shifted g link :: rest)[k]? = some other := by
  by_cases same : k = before.length
  · subst same
    rw [listed_middle] at listed
    exact Or.inl ⟨rfl, (Option.some.inj listed).symm⟩
  · rw [listed_other same link (NormalForm.shifted g link)] at listed
    exact Or.inr ⟨same, listed⟩

end listed

section times

variable {T : Type*} [Field T]

/-- The durations of the links before one of them was started at a new node. -/
def prolonged (i : Nat) (lower : Value) (ω : Nat → T) : Nat → T :=
  Function.update ω i (ω i + lower)

theorem prolonged_self (i : Nat) (lower : Value) (ω : Nat → T) :
    prolonged i lower ω i = ω i + lower := Function.update_self ..

theorem prolonged_of_ne {i k : Nat} (other : k ≠ i) (lower : Value) (ω : Nat → T) :
    prolonged i lower ω k = ω k := Function.update_of_ne other ..

/-- The strategy in which the new node is executed the shortest duration after the activation node. -/
def shiftedTimes (g : PlainNetwork) (link : StnuLink) (i : Nat) (σ : (Nat → T) → NodeId → T)
    (ω : Nat → T) (n : NodeId) : T :=
  if n = g.nodeCount then σ (prolonged i link.lower ω) link.activation + link.lower
  else σ (prolonged i link.lower ω) n

theorem shiftedTimes_new (g : PlainNetwork) (link : StnuLink) (i : Nat) (σ : (Nat → T) → NodeId → T)
    (ω : Nat → T) : shiftedTimes g link i σ ω g.nodeCount =
      σ (TemporalNetwork.prolonged i link.lower ω) link.activation + link.lower := if_pos rfl

theorem shiftedTimes_of_lt {n : NodeId} (inside : n < g.nodeCount) (link : StnuLink) (i : Nat)
    (σ : (Nat → T) → NodeId → T) (ω : Nat → T) :
    shiftedTimes g link i σ ω n = σ (TemporalNetwork.prolonged i link.lower ω) n := if_neg inside.ne

end times

variable {T : Type*} [Field T] [LinearOrder T] [IsStrictOrderedRing T]

/-- What a strategy for the links of a network tells of the network: the ordinary constraints hold. -/
structure Respects (links : List StnuLink) (σ : (Nat → T) → NodeId → T) (h : PlainNetwork) :
    Prop where
  carries : Carries h links
  unforeseeing : Unforeseeing (Finset.range h.nodeCount) links σ
  ordinary : ∀ ω, Proper links ω → ∀ u v w, h.ordinary? u v = some w → σ ω v ≤ σ ω u + w

section shift

variable {before rest : List StnuLink} {link : StnuLink} {g h : PlainNetwork} {ω : Nat → T}
  {σ : (Nat → T) → NodeId → T}

theorem Admissible.prolonged
    (admissible : Admissible (before ++ NormalForm.shifted g link :: rest) ω) :
    Admissible (before ++ link :: rest) (prolonged before.length link.lower ω) := by
  intro k other listed
  rcases listed_shifted (g := g) listed with ⟨rfl, rfl⟩ | ⟨apart, listed'⟩
  · obtain ⟨least, most⟩ := admissible _ _ (listed_middle before (NormalForm.shifted g other) rest)
    simp only [NormalForm.shifted, Int.cast_zero, Int.cast_sub] at least most
    rw [prolonged_self]
    constructor <;> linarith
  · rw [prolonged_of_ne apart]
    exact admissible k other listed'

theorem Proper.prolonged (nonneg : 0 ≤ link.lower)
    (proper : Proper (before ++ NormalForm.shifted g link :: rest) ω) :
    Proper (before ++ link :: rest) (prolonged before.length link.lower ω) := by
  refine ⟨proper.admissible.prolonged, fun k other listed => ?_⟩
  rcases listed_shifted (g := g) listed with ⟨rfl, rfl⟩ | ⟨apart, listed'⟩
  · have positive := proper.positive _ _ (listed_middle before (NormalForm.shifted g other) rest)
    have : (0 : T) ≤ other.lower := by exact_mod_cast nonneg
    rw [prolonged_self]
    linarith
  · rw [prolonged_of_ne apart]
    exact proper.positive k other listed'

theorem Respects.unforeseeing_shift (respects : Respects (before ++ link :: rest) σ g)
    (shift : NormalForm.Shifted g link h) :
    Unforeseeing (Finset.range h.nodeCount) (before ++ NormalForm.shifted g link :: rest)
      (shiftedTimes g link before.length σ) := by
  have here : link ∈ before ++ link :: rest := by simp
  have carries := respects.carries
  have carries' := carries.shift shift
  have nonneg : (0 : T) ≤ link.lower := by exact_mod_cast carries.nonneg link here
  have contingents : ∀ {p : NodeId → Prop},
      (∀ other ∈ before ++ NormalForm.shifted g link :: rest, p other.contingent) ↔
        ∀ other ∈ before ++ link :: rest, p other.contingent := by
    intro p
    simp only [List.mem_append, List.mem_cons, or_imp, forall_and, forall_eq, NormalForm.shifted]
  have time : ∀ ω, ∀ other ∈ before ++ link :: rest,
      shiftedTimes g link before.length σ ω other.contingent =
        σ (TemporalNetwork.prolonged before.length link.lower ω) other.contingent :=
    fun ω other mem => shiftedTimes_of_lt (carries.inside other mem).2 link _ σ ω
  refine ⟨fun other mem => ?_, fun ω admissible k other listed => ?_, ?_⟩
  · simpa using carries'.inside other mem
  · by_cases same : k = before.length
    · subst same
      rw [listed_middle] at listed
      cases listed
      have lasts := respects.unforeseeing.lasts _ admissible.prolonged _ _
        (listed_middle before link rest)
      rw [prolonged_self] at lasts
      rw [show (NormalForm.shifted g link).contingent = link.contingent from rfl, time ω link here,
        show (NormalForm.shifted g link).activation = g.nodeCount from rfl, shiftedTimes_new, lasts]
      rw [add_comm (ω _), add_assoc]
    · rw [listed_other same (NormalForm.shifted g link) link] at listed
      obtain ⟨ha, hc⟩ := carries.inside other (List.mem_of_getElem? listed)
      have lasts := respects.unforeseeing.lasts _ admissible.prolonged _ _ listed
      rw [prolonged_of_ne same] at lasts
      rw [shiftedTimes_of_lt hc, shiftedTimes_of_lt ha, lasts]
  · intro ω ω' admissible admissible' n mem other agrees
    rw [contingents (p := fun c => n ≠ c)] at other
    replace agrees := (contingents (p := fun c =>
      shiftedTimes g link before.length σ ω c ≤ shiftedTimes g link before.length σ ω n ∨
        shiftedTimes g link before.length σ ω' c ≤ shiftedTimes g link before.length σ ω n →
      shiftedTimes g link before.length σ ω' c = shiftedTimes g link before.length σ ω c)).mp agrees
    have dynamic := respects.unforeseeing.dynamic _ _ admissible.prolonged admissible'.prolonged
    have agrees' : ∀ t, t ≤ shiftedTimes g link before.length σ ω n →
        ∀ other ∈ before ++ link :: rest,
        σ (TemporalNetwork.prolonged before.length link.lower ω) other.contingent ≤ t ∨
          σ (TemporalNetwork.prolonged before.length link.lower ω') other.contingent ≤ t →
        σ (TemporalNetwork.prolonged before.length link.lower ω') other.contingent =
          σ (TemporalNetwork.prolonged before.length link.lower ω) other.contingent := by
      intro t le other mem occurs
      have agrees := agrees other mem
      rw [time ω other mem, time ω' other mem] at agrees
      exact agrees (occurs.imp le.trans' le.trans')
    rw [Finset.mem_range, shift.nodeCount, Nat.lt_succ_iff_lt_or_eq] at mem
    rcases mem with inside | rfl
    · rw [shiftedTimes_of_lt inside] at agrees' ⊢
      rw [shiftedTimes_of_lt inside]
      exact dynamic n (by simpa using inside) other (agrees' _ le_rfl)
    · rw [shiftedTimes_new] at agrees' ⊢
      rw [shiftedTimes_new]
      have agrees := agrees' _ (le_add_of_nonneg_right nonneg)
      congr 1
      -- The activation node may be the contingent node of another link.
      by_cases chained : ∃ other ∈ before ++ link :: rest, link.activation = other.contingent
      · obtain ⟨other, mem, same⟩ := chained
        rw [same] at agrees ⊢
        exact agrees other mem (Or.inl le_rfl)
      · push Not at chained
        exact dynamic _ (by simpa using (carries.inside link here).1) chained agrees

theorem Respects.shift (respects : Respects (before ++ link :: rest) σ g)
    (shift : NormalForm.Shifted g link h) :
    Respects (before ++ NormalForm.shifted g link :: rest) (shiftedTimes g link before.length σ) h := by
  refine ⟨respects.carries.shift shift, respects.unforeseeing_shift shift,
    fun ω proper u v w weight => ?_⟩
  have here : link ∈ before ++ link :: rest := by simp
  have carries := respects.carries
  obtain ⟨ha, hc⟩ := carries.inside link here
  have proper' := proper.prolonged (carries.nonneg link here)
  have lasts := respects.unforeseeing.lasts _ proper'.admissible _ _
    (listed_middle before link rest)
  rw [prolonged_self] at lasts
  obtain ⟨least, most⟩ := proper.admissible _ _
    (listed_middle before (NormalForm.shifted g link) rest)
  simp only [NormalForm.shifted, Int.cast_zero, Int.cast_sub] at least most
  rcases shift.ordinary?_cases carries.wellFormed weight with ⟨rfl, rfl, rfl⟩ | ⟨rfl, rfl, rfl⟩ |
    ⟨rfl, rfl, rfl⟩ | ⟨rfl, rfl, rfl⟩ | ⟨hu, hv, weight'⟩
  · rw [shiftedTimes_new, shiftedTimes_of_lt hc, Int.cast_zero]
    linarith
  · rw [shiftedTimes_new, shiftedTimes_of_lt hc, Int.cast_sub]
    linarith
  · rw [shiftedTimes_new, shiftedTimes_of_lt ha, Int.cast_neg]
    linarith
  · rw [shiftedTimes_new, shiftedTimes_of_lt ha]
  · rw [shiftedTimes_of_lt hu, shiftedTimes_of_lt hv]
    exact respects.ordinary _ proper' u v w weight'

/-- A strategy for a network becomes one for its normal form. -/
theorem Respects.ofLinks {links : List StnuLink} (respects : Respects links σ g) :
    ∃ σ' : (Nat → T) → NodeId → T,
      Respects (NormalForm.ofLinks g links).2.1 σ' (NormalForm.ofLinks g links).1 := by
  refine NormalForm.ofLinks_induct (I := fun g links => ∃ σ : (Nat → T) → NodeId → T,
    Respects links σ g) ?_ links [] g ⟨σ, respects⟩
  rintro g before link rest ⟨σ, respects⟩ _
  have here : link ∈ before ++ link :: rest := by simp
  exact ⟨_, respects.shift (NormalForm.shifted_shiftLink respects.carries.wellFormed
    (respects.carries.inside link here) (respects.carries.apart link here))⟩

end shift

end TemporalNetwork
