import TemporalNetwork.Proofs.Strategy.Compression
import TemporalNetwork.Proofs.Strategy.Unforeseeing

/-!
Compression of a strategy that does not know how long the links will take. If no link takes longer than
the gap, the links keep their durations; what a node has to wait for is decided by the links that have
ended before it, and these end before it all the same.
-/

namespace TemporalNetwork

/-- The strategy with no distance between consecutive times larger than `gap`. -/
def hasten (σ : (Nat → ℚ) → NodeId → ℚ) (n : Nat) (gap : ℚ) (ω : Nat → ℚ) (x : NodeId) : ℚ :=
  Timing.compress (fun _ => σ ω) n gap (fun _ => false) x

section

variable {links : List StnuLink} {σ : (Nat → ℚ) → NodeId → ℚ} {n : Nat} {gap : ℚ} {ω ω' : Nat → ℚ}
  {x y : NodeId}

theorem hasten_of_lt (nonneg : 0 ≤ gap) (hx : x < n) (lt : σ ω x < σ ω y) :
    min gap (σ ω y - σ ω x) ≤ hasten σ n gap ω y - hasten σ n gap ω x ∧
      hasten σ n gap ω y - hasten σ n gap ω x ≤ σ ω y - σ ω x :=
  Timing.compress_of_lt nonneg hx lt

theorem hasten_of_eq (same : σ ω x = σ ω y) : hasten σ n gap ω x = hasten σ n gap ω y :=
  Timing.compress_of_eq same

theorem hasten_nonneg (nonneg : 0 ≤ gap) : 0 ≤ hasten σ n gap ω x := Timing.compress_nonneg nonneg

theorem hasten_le (nonneg : 0 ≤ gap) : hasten σ n gap ω x ≤ gap * n := Timing.compress_le nonneg

theorem hasten_of_first (first : ∀ y < n, σ ω x ≤ σ ω y) : hasten σ n gap ω x = 0 :=
  Timing.compress_of_first first

/-- A bound that is not wider than the gap is kept, and so is one that is not negative. -/
theorem hasten_le_of_le (nonneg : 0 ≤ gap) (hx : x < n) (hy : y < n) {w : ℚ} (narrow : -w ≤ gap)
    (le : σ ω y - σ ω x ≤ w) : hasten σ n gap ω y - hasten σ n gap ω x ≤ w := by
  rcases lt_trichotomy (σ ω x) (σ ω y) with later | same | earlier
  · exact (hasten_of_lt nonneg hx later).2.trans le
  · rw [same, sub_self] at le
    rw [hasten_of_eq same, sub_self]
    exact le
  · have apart := (hasten_of_lt nonneg hy earlier).1
    have wide : -w ≤ min gap (σ ω x - σ ω y) := le_min narrow (by linarith)
    linarith

theorem hasten_congr (here : σ ω' x = σ ω x)
    (before : ∀ y < n, min (σ ω y) (σ ω' y) < σ ω x → σ ω' y = σ ω y) :
    hasten σ n gap ω' x = hasten σ n gap ω x := by
  have same : Timing.timesBefore (fun _ => σ ω') n (fun _ => false) x =
      Timing.timesBefore (fun _ => σ ω) n (fun _ => false) x := by
    ext t
    rw [Timing.mem_timesBefore, Timing.mem_timesBefore, here]
    constructor
    · rintro ⟨⟨y, hy, rfl⟩, early⟩
      exact ⟨⟨y, hy, (before y hy ((min_le_right _ _).trans_lt early)).symm⟩, early⟩
    · rintro ⟨⟨y, hy, rfl⟩, early⟩
      exact ⟨⟨y, hy, before y hy ((min_le_left _ _).trans_lt early)⟩, early⟩
  rw [hasten, hasten, Timing.compress, Timing.compress, same, here]

variable (strategy : Unforeseeing (Finset.range n) links σ)
  (positive : ∀ link ∈ links, (0 : ℚ) < link.lower) (wide : ∀ link ∈ links, (link.upper : ℚ) ≤ gap)

include positive in
theorem Admissible.proper (admissible : Admissible links ω) : Proper links ω :=
  ⟨admissible, fun i link listed =>
    (positive link (List.mem_of_getElem? listed)).trans_le (admissible i link listed).1⟩

include strategy positive wide in
theorem hasten_lasts (nonneg : 0 ≤ gap) (admissible : Admissible links ω) {i : Nat} {link : StnuLink}
    (listed : links[i]? = some link) :
    hasten σ n gap ω link.contingent = hasten σ n gap ω link.activation + ω i := by
  have mem := List.mem_of_getElem? listed
  have lasts := strategy.lasts ω admissible i link listed
  have starts : link.activation < n := Finset.mem_range.mp (strategy.ends link mem).1
  have := positive link mem
  have := (admissible i link listed).1
  obtain ⟨least, greatest⟩ := hasten_of_lt nonneg starts (show σ ω link.activation <
    σ ω link.contingent by linarith)
  have within : ω i ≤ gap := (admissible i link listed).2.trans (wide link mem)
  rw [lasts, add_sub_cancel_left, min_eq_right within] at least
  linarith

include strategy positive wide in
theorem Unforeseeing.hasten (nonneg : 0 ≤ gap) :
    Unforeseeing (Finset.range n) links (TemporalNetwork.hasten σ n gap) where
  ends := strategy.ends
  lasts ω admissible i link listed := hasten_lasts strategy positive wide nonneg admissible listed
  dynamic ω ω' admissible admissible' x mem other shared := by
    have proper := admissible.proper positive
    have proper' := admissible'.proper positive
    -- If a node differs by the time of `x`, so does the end of a link, in the hastened strategy too.
    have alike : ∀ y < n, min (σ ω y) (σ ω' y) ≤ σ ω x → σ ω' y = σ ω y := by
      intro y hy early
      by_contra differs
      obtain ⟨i, link, listed, unequal, activation, first, before⟩ :=
        strategy.first_to_differ proper proper' (Finset.mem_range.mpr hy) differs
      have mem' := List.mem_of_getElem? listed
      obtain ⟨starts, ends⟩ := strategy.ends link mem'
      rw [Finset.mem_range] at starts ends
      have short := proper.positive i link listed
      have short' := proper'.positive i link listed
      have started : TemporalNetwork.hasten σ n gap ω' link.activation =
          TemporalNetwork.hasten σ n gap ω link.activation := by
        refine hasten_congr activation fun m hm less => before m (Finset.mem_range.mpr hm) ?_
        exact less.trans (lt_add_of_pos_right _ (lt_min short short'))
      have lasts := hasten_lasts strategy positive wide nonneg admissible listed
      have lasts' := hasten_lasts strategy positive wide nonneg admissible' listed
      have ended : TemporalNetwork.hasten σ n gap ω link.contingent ≤
          TemporalNetwork.hasten σ n gap ω x ∨ TemporalNetwork.hasten σ n gap ω' link.contingent ≤
          TemporalNetwork.hasten σ n gap ω x := by
        have later : σ ω link.activation < σ ω x := by
          have := lt_min short short'
          linarith
        have apart := hasten_of_lt nonneg starts later
        have enough : min (ω i) (ω' i) ≤ min gap (σ ω x - σ ω link.activation) := by
          refine le_min ((min_le_left _ _).trans ?_) (by linarith)
          exact (admissible i link listed).2.trans (wide link mem')
        rcases le_total (ω i) (ω' i) with less | less
        · rw [min_eq_left less] at enough
          exact Or.inl (by linarith)
        · rw [min_eq_right less] at enough
          exact Or.inr (by linarith)
      have same := shared link mem' ended
      rw [lasts, lasts', started] at same
      exact unequal (add_left_cancel same)
    have here := alike x (Finset.mem_range.mp mem) (min_le_left _ _)
    exact hasten_congr here fun y hy early => alike y hy early.le

end

end TemporalNetwork
