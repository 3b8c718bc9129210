import TemporalNetwork.Check.Preparation
import TemporalNetwork.Proofs.Runs

/-!
What the steps of a preparation do.
-/

namespace TemporalNetwork

namespace Preparation

variable {E : Type} {d : Draft E} {err : Failure → Draft E → Prop}

@[simp] theorem ends_network {ok : Network E → Draft E → Prop} :
    Ends (network : Preparation E (Network E)) d ok err ↔ ok d.network d := Iff.rfl

@[simp] theorem ends_modifyNetwork {f : Network E → Network E} {ok : Unit → Draft E → Prop} :
    Ends (modifyNetwork f) d ok err ↔ ok () { d with network := f d.network } := Iff.rfl

@[simp] theorem ends_noteFix {fix : String} {ok : Unit → Draft E → Prop} :
    Ends (noteFix fix : Preparation E Unit) d ok err ↔
      ok () { d with fixes := d.fixes ++ [fix] } := Iff.rfl

/-- Only `−∞` has no negation. -/
theorem negate_overflows {v : Value} :
    Ends (negate v : Preparation E Value) d (fun w d' => d' = d ∧ w = -v ∧ v ≠ Value.negInf)
      (fun failure d' => d' = d ∧ failure = .fault .overflow ∧ v = Value.negInf) := by
  unfold negate Value.neg?
  by_cases lowest : v = Value.negInf
  · rw [if_pos lowest]
    exact ⟨rfl, rfl, lowest⟩
  · rw [if_neg lowest]
    exact ⟨rfl, rfl, lowest⟩

theorem negate_ends {v : Value} :
    Ends (negate v : Preparation E Value) d (fun w d' => d' = d ∧ w = -v) (fun _ _ => True) :=
  negate_overflows.mono (fun _ _ ⟨same, negated, _⟩ => ⟨same, negated⟩) fun _ _ _ => trivial

theorem nodeName_ends {n : NodeId} :
    Ends (nodeName n : Preparation E String) d (fun _ d' => d' = d) (fun _ _ => True) := by
  unfold nodeName
  rw [ends_bind, ends_network]
  cases d.network.node? n with
  | none => exact trivial
  | some node => exact rfl

end Preparation

end TemporalNetwork
