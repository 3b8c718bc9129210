import Mathlib.Data.List.Nodup
import TemporalNetwork.Stnu.BackPropagation
import TemporalNetwork.Stnu.NegativeEdge

/-!
The table of statuses of a run. What is at work is on a stack: it gets its status when it is put there
and another one when it is taken off.
-/

namespace TemporalNetwork

section tables

variable {τ : Type} {statuses : Array τ} {i : Nat} {status old new : τ} {stack rest : List Nat}

theorem getElem?_setStatus (inside : i < statuses.size) (status : τ) (k : Nat) :
    (statuses.setIfInBounds i status)[k]? = if k = i then some status else statuses[k]? := by
  rw [Array.getElem?_setIfInBounds]
  by_cases same : i = k
  · simp [← same, inside]
  · rw [if_neg same, if_neg (Ne.symm same)]

theorem lt_of_status (held : statuses[i]? = some status) : i < statuses.size := by
  obtain ⟨inside, _⟩ := Array.getElem?_eq_some_iff.mp held
  exact inside

/-- The entries with the given status are those on the stack, and each is there once. -/
structure OnStack (status : τ) (statuses : Array τ) (stack : List Nat) : Prop where
  mem_iff : ∀ i, statuses[i]? = some status ↔ i ∈ stack
  nodup : stack.Nodup

namespace OnStack

theorem replicate (other : old ≠ status) (n : Nat) : OnStack status (Array.replicate n old) [] := by
  refine ⟨fun i => iff_of_false (fun held => ?_) List.not_mem_nil, List.nodup_nil⟩
  rw [Array.getElem?_replicate] at held
  split at held
  · exact other (Option.some.inj held)
  · cases held

theorem push (on : OnStack status statuses stack) (held : statuses[i]? = some old)
    (other : old ≠ status) : OnStack status (statuses.setIfInBounds i status) (i :: stack) := by
  have fresh : i ∉ stack := by
    intro mem
    rw [(on.mem_iff i).mpr mem] at held
    exact other (Option.some.inj held).symm
  refine ⟨fun k => ?_, List.nodup_cons.mpr ⟨fresh, on.nodup⟩⟩
  rw [getElem?_setStatus (lt_of_status held), List.mem_cons]
  split
  · rename_i same
    exact iff_of_true rfl (Or.inl same)
  · rename_i apart
    rw [on.mem_iff, or_iff_right apart]

theorem pop (on : OnStack status statuses (i :: rest)) (other : new ≠ status) :
    OnStack status (statuses.setIfInBounds i new) rest := by
  have held := (on.mem_iff i).mpr List.mem_cons_self
  obtain ⟨gone, nodup⟩ := List.nodup_cons.mp on.nodup
  refine ⟨fun k => ?_, nodup⟩
  rw [getElem?_setStatus (lt_of_status held)]
  split
  · rename_i same
    exact iff_of_false (fun held => other (Option.some.inj held)) (same ▸ gone)
  · rename_i apart
    rw [on.mem_iff, List.mem_cons, or_iff_right apart]

end OnStack

end tables

inductive LinkStatus.Next : LinkStatus → LinkStatus → Prop
  | start : Next .unstarted .started
  | finish : Next .started .finished

inductive NodeStatus.Next : NodeStatus → NodeStatus → Prop
  | begin : Next .unvisited .inProgress
  | finish : Next .inProgress .done

/-- What a part of a run does to the statuses if it changes at most one of them. -/
inductive Moved {σ : Type} (next : σ → σ → Prop) (s t : StnuRun σ) : Prop
  | none (statuses : t.statuses = s.statuses) (moves : t.moves = s.moves)
  | one {i : Nat} {old new : σ} (held : s.statuses[i]? = some old) (allowed : next old new)
      (statuses : t.statuses = s.statuses.setIfInBounds i new)
      (moves : t.moves = (i, new) :: s.moves)

end TemporalNetwork
