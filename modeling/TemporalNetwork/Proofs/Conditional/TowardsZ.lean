import Mathlib.Data.Finset.Prod
import TemporalNetwork.Proofs.Conditional.Plain

/-!
Passes towards Z only. The edges into Z can only be given values between `−horizon` and `0`, and `−∞`.
A pass that calls for another one has given one of these edges one of these values, which it did not
cover before; so there are at most as many such passes as there are nodes and values.
-/

namespace TemporalNetwork

instance (e : LabeledEdge) (case : CaseLabel) (label : Label) (x : Value) :
    Decidable (e.Covers case label x) :=
  inferInstanceAs (Decidable (_ ∨ _))

instance (g : LabeledNetwork) (u v : NodeId) (case : CaseLabel) (label : Label) (x : Value) :
    Decidable (g.Covers u v case label x) :=
  match h : g.edgeBetween? u v with
  | none => isFalse fun ⟨_, joined, _⟩ => by
    rw [h] at joined
    cases joined
  | some e => decidable_of_iff (e.Covers case label x) ⟨fun covers => ⟨e, h, covers⟩,
    fun ⟨_, joined, covers⟩ => by
      rw [h] at joined
      cases joined
      exact covers⟩

/-- The values that propagation can still give to the edges into Z. -/
def RuleContext.openValues (ctx : RuleContext) (g : LabeledNetwork) : Finset (NodeId × Value) :=
  ((Finset.range g.nodeCount).erase ctx.z ×ˢ
    insert Value.negInf ((Finset.range ctx.horizon.toNat).image Int.negSucc)).filter fun b =>
      ¬ g.Covers b.1 ctx.z .empty .empty b.2

namespace PlainProblem

variable {ctx : RuleContext} {start g h : LabeledNetwork} {n : NodeId} {x : Value}

theorem mem_openValues : (n, x) ∈ ctx.openValues g ↔
    (n ≠ ctx.z ∧ n < g.nodeCount) ∧ (x = Value.negInf ∨ -ctx.horizon ≤ x ∧ x < 0) ∧
      ¬ g.Covers n ctx.z .empty .empty x := by
  have range : (∃ k < ctx.horizon.toNat, Int.negSucc k = x) ↔ -ctx.horizon ≤ x ∧ x < 0 := by
    constructor
    · rintro ⟨k, below, rfl⟩
      exact ⟨by lia, Int.negSucc_lt_zero k⟩
    · rintro ⟨lower, negative⟩
      obtain ⟨k, rfl⟩ := Int.eq_negSucc_of_lt_zero negative
      exact ⟨k, by lia, rfl⟩
  simp only [RuleContext.openValues, Finset.mem_filter, Finset.mem_product, Finset.mem_erase,
    Finset.mem_range, Finset.mem_insert, Finset.mem_image, range, and_assoc]

theorem openValues_anti (grows : g.Grows h) : ctx.openValues h ⊆ ctx.openValues g := by
  rintro ⟨n, x⟩ mem
  obtain ⟨⟨apart, inside⟩, range, uncovered⟩ := mem_openValues.mp mem
  rw [grows.nodeCount] at inside
  exact mem_openValues.mpr ⟨⟨apart, inside⟩, range, fun covers => uncovered (grows.covers covers)⟩

theorem clamp_cases (t : Value) : ctx.clamp t = Value.negInf ∨ -ctx.horizon ≤ ctx.clamp t := by
  unfold RuleContext.clamp
  split
  · exact Or.inl rfl
  · rename_i above
    exact Or.inr (not_lt.mp above)

theorem openValues_ssubset (problem : PlainProblem ctx start) (toZ : ctx.onlyToZ = true)
    (grows : start.Grows g)
    (passed : Propagation.Passed ctx (Network.Plain fun _ _ _ => True) g h) :
    ctx.openValues h ⊂ ctx.openValues g := by
  refine Finset.ssubset_iff_subset_ne.mpr ⟨openValues_anti passed.grows, fun same => ?_⟩
  obtain ⟨k, a, between, possible, d, mem, unsettled, settled⟩ := passed.advanced
  cases d with
  | negativeLoop loop => exact settled
  | sumOverflow lhs rhs => exact settled
  | value case label s =>
    obtain ⟨x, y, w, t, rfl, onlyToZ, apart, ⟨u, _, first, _, _⟩, rfl, rfl, rfl⟩ :=
      between.holds.exists_sum problem.unlinked possible mem
    obtain rfl := onlyToZ toZ
    obtain ⟨infinite, uncovered⟩ := not_or.mp unsettled
    have covered := settled.resolve_left infinite
    have inside : x < k.nodeCount := (first.lt between.wellFormed).1
    rw [between.after.nodeCount, grows.nodeCount] at inside
    have early := (grows.trans between.after).covers (problem.early x inside apart)
    have negative : ctx.clamp t < 0 := by
      by_contra positive
      obtain ⟨r, le, holds⟩ := between.holds.covers_iff.mp early
      exact uncovered (between.holds.covers_iff.mpr ⟨r, le.trans (not_lt.mp positive), holds⟩)
    have isOpen : (x, ctx.clamp t) ∈ ctx.openValues g := by
      rw [← grows.nodeCount] at inside
      refine mem_openValues.mpr ⟨⟨apart, inside⟩, ?_, fun covers =>
        uncovered (between.after.covers covers)⟩
      exact (clamp_cases t).imp_right fun above => ⟨above, negative⟩
    -- The pass has added the value, so it is not open any more.
    rw [← same] at isOpen
    exact (mem_openValues.mp isOpen).2.2 covered

theorem card_openValues (problem : PlainProblem ctx start) :
    (ctx.openValues start).card ≤ (start.nodeCount - 1) * (ctx.horizon.toNat + 1) := by
  refine (Finset.card_filter_le _ _).trans ?_
  rw [Finset.card_product, Finset.card_erase_of_mem (Finset.mem_range.mpr problem.inside),
    Finset.card_range]
  refine Nat.mul_le_mul_left _ ((Finset.card_insert_le _ _).trans (Nat.succ_le_succ ?_))
  exact Finset.card_image_le.trans (Finset.card_range _).le

/-- Towards Z only, propagation ends within as many passes as there are values to be given. -/
theorem toFixpoint_ends_toZ {p : Progress} {limit : Nat} (problem : PlainProblem ctx p.network)
    (toZ : ctx.onlyToZ = true)
    (enough : (p.network.nodeCount - 1) * (ctx.horizon.toNat + 1) < limit) :
    Ends (Propagation.toFixpoint ctx .never limit) p (fun _ _ => True)
      (fun halt _ => halt.Derived) := by
  refine Propagation.toFixpoint_ends_within (I := Network.Plain fun _ _ _ => True)
    (fun n g => (ctx.openValues g).card < n)
    (Propagation.performs_plain problem.unlinked fun _ _ _ _ _ _ _ _ _ _ => trivial)
    (Propagation.linksFunctional_of_no_links problem.unlinked) (fun _ => Nat.not_lt_zero _)
    (fun n g h wf grows plain passed some => ?_) problem.wellFormed
    (problem.plain.mono fun _ _ _ _ => trivial) fun _ => ?_
  · have fewer := Finset.card_lt_card (problem.openValues_ssubset toZ grows passed)
    exact Nat.lt_of_lt_of_le fewer (Nat.lt_succ_iff.mp some)
  · exact lt_of_le_of_lt problem.card_openValues enough

end PlainProblem

end TemporalNetwork
