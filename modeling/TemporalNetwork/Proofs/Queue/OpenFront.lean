import TemporalNetwork.Proofs.Queue.SearchFront

/-!
Searches that settle each node at most once, in whatever order the keys come. A node that waits is not
settled, so it is settled when it comes out of the queue and does not wait again.
-/

namespace TemporalNetwork

structure OpenFront (size : Nat) (queue : MinQueue) (settled : Array Bool) : Prop where
  wellFormed : queue.WellFormed
  size_settled : settled.size = size
  waiting : ∀ n k, queue.value? n = some k → n < size ∧ settled.getD n false = false

variable {size : Nat} {queue rest : MinQueue} {settled : Array Bool} {n : Nat} {key : Int}

namespace OpenFront

theorem blank (size : Nat) : OpenFront size .empty (Array.replicate size false) :=
  ⟨MinQueue.wellFormed_empty, Array.size_replicate, fun n k waits => by
    rw [MinQueue.value?_empty] at waits
    cases waits⟩

theorem offer (f : OpenFront size queue settled) (candidates : List (Nat × Int))
    (fresh : ∀ m k, (m, k) ∈ candidates → m < size ∧ settled.getD m false = false) :
    OpenFront size (queue.offer candidates) settled := by
  obtain ⟨kept, sound, _⟩ := MinQueue.offer_spec f.wellFormed candidates
  refine ⟨kept, f.size_settled, fun m k waits => ?_⟩
  rcases sound m k waits with before | offered
  · exact f.waiting m k before
  · exact fresh m k offered

theorem start (size n : Nat) (inside : n < size) (key : Int) :
    OpenFront size (MinQueue.empty.insertOrDecrease n key).1 (Array.replicate size false) := by
  refine (blank size).offer [(n, key)] fun m k mem => ?_
  cases List.mem_singleton.mp mem
  exact ⟨inside, by simp [Array.getD_eq_getD_getElem?, inside]⟩

theorem popped (f : OpenFront size queue settled) (pop : queue.popMin = some ((n, key), rest)) :
    n < size ∧ settled.getD n false = false :=
  f.waiting n key (MinQueue.popMin_spec f.wellFormed pop).1

theorem unsettled_lt (f : OpenFront size queue settled)
    (pop : queue.popMin = some ((n, key), rest)) :
    unsettled (settled.setIfInBounds n true) < unsettled settled := by
  obtain ⟨inside, fresh⟩ := f.popped pop
  have within : n < settled.size := f.size_settled ▸ inside
  exact Nat.lt_of_succ_le (unsettled_setIfInBounds within fresh).le

theorem settle (f : OpenFront size queue settled) (pop : queue.popMin = some ((n, key), rest)) :
    OpenFront size rest (settled.setIfInBounds n true) := by
  obtain ⟨inside, _⟩ := f.popped pop
  obtain ⟨_, _, wf, values⟩ := MinQueue.popMin_spec f.wellFormed pop
  have within : n < settled.size := f.size_settled ▸ inside
  refine ⟨wf, Array.size_setIfInBounds.trans f.size_settled, fun m k waits => ?_⟩
  rw [values] at waits
  split at waits
  · cases waits
  · rename_i other
    rw [SearchFront.getD_setIfInBounds within, if_neg other]
    exact f.waiting m k waits

end OpenFront

end TemporalNetwork
