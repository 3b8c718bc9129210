import TemporalNetwork.Proofs.Queue.MinQueue

/-!
Searches that settle nodes by increasing key. The nodes that have been settled keep the keys with
which they came out of the queue; those that wait are not settled, and their keys are not smaller.
-/

namespace TemporalNetwork

structure SearchFront (size : Nat) (keys : Nat → Option Int) (queue : MinQueue)
    (settled : Array Bool) (least : Int) : Prop where
  wellFormed : queue.WellFormed
  size_settled : settled.size = size
  marked : ∀ n, n < size → (settled.getD n false = true ↔ (keys n).isSome = true)
  passed : ∀ n k, keys n = some k → n < size ∧ k ≤ least
  waiting : ∀ n k, queue.value? n = some k → n < size ∧ keys n = none ∧ least ≤ k

/-- Whether a node is settled or waits with a key that is at most `k`. -/
def Covers (keys : Nat → Option Int) (queue : MinQueue) (n : Nat) (k : Int) : Prop :=
  ∃ k', k' ≤ k ∧ (keys n = some k' ∨ queue.value? n = some k')

def settleKey (keys : Nat → Option Int) (n : Nat) (k : Int) : Nat → Option Int := fun m =>
  if m = n then some k else keys m

/-- Whether a search from `n` with key zero has settled `n` or has only that to do. -/
def StartsFrom (keys : Nat → Option Int) (queue : MinQueue) (n : Nat) : Prop :=
  keys n = some 0 ∨ (∀ m, keys m = none) ∧ ∀ m k, queue.value? m = some k ↔ m = n ∧ k = 0

/-- The number of nodes that are not settled. -/
def unsettled (settled : Array Bool) : Nat := settled.countP fun b => !b

theorem countP_setIfInBounds {α : Type} (p : α → Bool) {xs : Array α} {i : Nat} {old : α}
    (held : xs[i]? = some old) (new : α) :
    (xs.setIfInBounds i new).countP p + (p old).toNat = xs.countP p + (p new).toNat := by
  obtain ⟨inside, same⟩ := Array.getElem?_eq_some_iff.mp held
  rw [Array.setIfInBounds, dif_pos inside, Array.countP_set, same]
  cases here : p old with
  | false => cases p new <;> simp
  | true =>
    have present : 0 < xs.countP p := Array.countP_pos_iff.mpr ⟨old, same ▸ xs.getElem_mem inside, here⟩
    cases p new <;> simp <;> omega

theorem unsettled_setIfInBounds {settled : Array Bool} {n : Nat} (inside : n < settled.size)
    (fresh : settled.getD n false = false) :
    unsettled (settled.setIfInBounds n true) + 1 = unsettled settled := by
  have held : settled[n]? = some false := by
    rw [Array.getD_eq_getD_getElem?, Array.getElem?_eq_getElem inside, Option.getD_some] at fresh
    rw [Array.getElem?_eq_getElem inside, fresh]
  exact countP_setIfInBounds _ held true

namespace SearchFront

variable {size : Nat} {keys : Nat → Option Int} {queue rest : MinQueue} {settled : Array Bool}
  {least key : Int} {n : Nat}

theorem start (size n : Nat) (inside : n < size) (key : Int) :
    SearchFront size (fun _ => none) (MinQueue.empty.insertOrDecrease n key).1
      (Array.replicate size false) key := by
  have inserted := MinQueue.insertOrDecrease_spec MinQueue.wellFormed_empty n key
  constructor
  · exact inserted.1
  · exact Array.size_replicate
  · intro m within
    simp [Array.getD_eq_getD_getElem?, within]
  · intro m k settled
    cases settled
  · intro m k present
    rw [inserted.2.1] at present
    split at present
    · rename_i same
      subst same
      rw [MinQueue.value?_empty, Option.getD_none, min_self, Option.some.injEq] at present
      exact ⟨inside, rfl, present.le⟩
    · rw [MinQueue.value?_empty] at present
      cases present

theorem start_offer {candidates : List (Nat × Int)}
    (inside : ∀ n k, (n, k) ∈ candidates → n < size ∧ least ≤ k) :
    SearchFront size (fun _ => none) (MinQueue.empty.offer candidates) (Array.replicate size false)
      least := by
  obtain ⟨wf, sound, _⟩ := MinQueue.offer_spec MinQueue.wellFormed_empty candidates
  refine ⟨wf, Array.size_replicate, fun m within => ?_, nofun, fun m k present => ?_⟩
  · simp [Array.getD_eq_getD_getElem?, within]
  · rcases sound m k present with waits | offered
    · rw [MinQueue.value?_empty] at waits
      cases waits
    · exact ⟨(inside m k offered).1, rfl, (inside m k offered).2⟩

theorem startsFrom (n : Nat) :
    StartsFrom (fun _ => none) (MinQueue.empty.insertOrDecrease n 0).1 n := by
  have inserted := MinQueue.insertOrDecrease_spec MinQueue.wellFormed_empty n 0
  refine Or.inr ⟨fun _ => rfl, fun m k => ?_⟩
  rw [inserted.2.1]
  split
  · rename_i same
    rw [MinQueue.value?_empty, Option.getD_none, min_self, Option.some.injEq]
    exact ⟨fun zero => ⟨same, zero.symm⟩, fun both => both.2.symm⟩
  · rename_i other
    rw [MinQueue.value?_empty]
    constructor
    · intro present
      cases present
    · intro both
      exact absurd both.1 other

theorem getD_setIfInBounds (inside : n < settled.size) (m : Nat) :
    (settled.setIfInBounds n true).getD m false =
      if m = n then true else settled.getD m false := by
  simp only [Array.getD_eq_getD_getElem?, Array.getElem?_setIfInBounds]
  grind

theorem popped (f : SearchFront size keys queue settled least)
    (pop : queue.popMin = some ((n, key), rest)) : n < size ∧ keys n = none ∧ least ≤ key :=
  f.waiting n key (MinQueue.popMin_spec f.wellFormed pop).1

theorem origin_settled (f : SearchFront size keys queue settled least)
    (pop : queue.popMin = some ((n, key), rest)) {m : Nat} (starts : StartsFrom keys queue m) :
    settleKey keys n key m = some 0 := by
  obtain ⟨_, fresh, _⟩ := f.popped pop
  rw [settleKey]
  rcases starts with done | ⟨_, only⟩
  · rw [if_neg, done]
    intro same
    rw [same, fresh] at done
    cases done
  · obtain ⟨same, zero⟩ := (only n key).mp (MinQueue.popMin_spec f.wellFormed pop).1
    rw [if_pos same.symm, zero]

theorem origin_marked (f : SearchFront size keys queue settled least)
    (pop : queue.popMin = some ((n, key), rest)) {m : Nat} (starts : StartsFrom keys queue m) :
    (settled.setIfInBounds n true).getD m false = true := by
  obtain ⟨hn, _⟩ := f.popped pop
  have first := f.origin_settled pop starts
  rw [getD_setIfInBounds (by rw [f.size_settled]; exact hn)]
  rw [settleKey] at first
  split at first
  · rename_i same
    rw [if_pos same]
  · rename_i other
    obtain ⟨inside, _⟩ := f.passed m 0 first
    rw [if_neg other]
    exact (f.marked m inside).mpr (by rw [first]; rfl)

theorem origin_of_empty (f : SearchFront size keys queue settled least) (done : queue.popMin = none)
    {m : Nat} (starts : StartsFrom keys queue m) : keys m = some 0 := by
  rcases starts with settled | ⟨_, only⟩
  · exact settled
  · have waits := (only m 0).mpr ⟨rfl, rfl⟩
    rw [(MinQueue.popMin_eq_none_iff f.wellFormed).mp done] at waits
    cases waits

theorem unsettled_lt (f : SearchFront size keys queue settled least)
    (pop : queue.popMin = some ((n, key), rest)) :
    unsettled (settled.setIfInBounds n true) + 1 = unsettled settled := by
  obtain ⟨inside, fresh, _⟩ := f.popped pop
  have marked := f.marked n inside
  rw [fresh] at marked
  exact unsettled_setIfInBounds (f.size_settled ▸ inside) (by simpa using marked)

/-- A key that is known when a node has been settled is the one it came out of the queue with, or it was
settled before. -/
theorem settleKey_cases {m : Nat} {k : Int} (known : settleKey keys n key m = some k) :
    m = n ∧ k = key ∨ keys m = some k := by
  rw [settleKey] at known
  split at known
  · rename_i same
    exact Or.inl ⟨same, (Option.some.inj known).symm⟩
  · exact Or.inr known

/-- A key was known before, too, or it has been offered. -/
theorem known_or_offered (f : SearchFront size keys queue settled least)
    (pop : queue.popMin = some ((n, key), rest)) (candidates : List (Nat × Int)) {m : Nat} {k : Int}
    (known : settleKey keys n key m = some k ∨ (rest.offer candidates).value? m = some k) :
    (keys m = some k ∨ queue.value? m = some k) ∨ (m, k) ∈ candidates := by
  obtain ⟨value, _, wf, values⟩ := MinQueue.popMin_spec f.wellFormed pop
  rcases known with settled | waits
  · rcases settleKey_cases settled with ⟨rfl, rfl⟩ | before
    · exact Or.inl (Or.inr value)
    · exact Or.inl (Or.inl before)
  · rcases (MinQueue.offer_spec wf candidates).2.1 m k waits with before | offered
    · rw [values] at before
      split at before
      · cases before
      · exact Or.inl (Or.inr before)
    · exact Or.inr offered

/-- Settling the node that comes out of the queue and offering others that are not settled. -/
theorem advance (f : SearchFront size keys queue settled least)
    (pop : queue.popMin = some ((n, key), rest)) (candidates : List (Nat × Int))
    (fresh : ∀ m k, (m, k) ∈ candidates →
      m < size ∧ (settled.setIfInBounds n true).getD m false = false ∧ key ≤ k) :
    SearchFront size (settleKey keys n key) (rest.offer candidates) (settled.setIfInBounds n true)
      key := by
  obtain ⟨inside, _, above⟩ := f.popped pop
  obtain ⟨_, minimal, wf, values⟩ := MinQueue.popMin_spec f.wellFormed pop
  obtain ⟨kept, sound, _⟩ := MinQueue.offer_spec wf candidates
  have within : n < settled.size := by rw [f.size_settled]; exact inside
  -- The marks are those of the settled keys, with `n` among both now.
  have marked : ∀ m, m < size → ((settled.setIfInBounds n true).getD m false = true ↔
      (settleKey keys n key m).isSome = true) := by
    intro m hm
    rw [getD_setIfInBounds within, settleKey]
    split
    · simp
    · exact f.marked m hm
  constructor
  · exact kept
  · rw [Array.size_setIfInBounds]
    exact f.size_settled
  · exact marked
  · intro m k settled
    rcases settleKey_cases settled with ⟨rfl, rfl⟩ | before
    · exact ⟨inside, le_refl _⟩
    · obtain ⟨hm, le⟩ := f.passed m k before
      exact ⟨hm, le.trans above⟩
  · intro m k present
    rcases sound m k present with waited | offered
    · rw [values] at waited
      split at waited
      · cases waited
      · rename_i other
        obtain ⟨hm, unmarked, _⟩ := f.waiting m k waited
        rw [settleKey, if_neg other]
        exact ⟨hm, unmarked, minimal m k waited⟩
    · obtain ⟨hm, unmarked, le⟩ := fresh m k offered
      refine ⟨hm, ?_, le⟩
      have mark := marked m hm
      rw [unmarked] at mark
      simpa using mark

theorem covers_advance (f : SearchFront size keys queue settled least)
    (pop : queue.popMin = some ((n, key), rest)) (candidates : List (Nat × Int)) {m : Nat} {k : Int}
    (covered : Covers keys queue m k) :
    Covers (settleKey keys n key) (rest.offer candidates) m k := by
  obtain ⟨_, fresh, _⟩ := f.popped pop
  obtain ⟨value, _, wf, values⟩ := MinQueue.popMin_spec f.wellFormed pop
  obtain ⟨_, _, lower⟩ := MinQueue.offer_spec wf candidates
  obtain ⟨k', le, settled | waits⟩ := covered
  · refine ⟨k', le, Or.inl ?_⟩
    rw [settleKey, if_neg]
    · exact settled
    · intro same
      rw [same, fresh] at settled
      cases settled
  · by_cases same : m = n
    · subst same
      rw [value] at waits
      cases waits
      exact ⟨key, le, Or.inl (if_pos rfl)⟩
    · have stays : rest.value? m = some k' := by
        rw [values, if_neg same]
        exact waits
      obtain ⟨k'', le', present⟩ := lower m k' (Or.inl stays)
      exact ⟨k'', le'.trans le, Or.inr present⟩

/-- An edge out of the node that is settled leads to a node that is offered, or to one that has been
settled with no larger key. -/
theorem covers_next (f : SearchFront size keys queue settled least)
    (pop : queue.popMin = some ((n, key), rest)) (candidates : List (Nat × Int)) {m : Nat} {k : Int}
    (inside : m < size) (above : key ≤ k)
    (offered : (settled.setIfInBounds n true).getD m false = false → (m, k) ∈ candidates) :
    Covers (settleKey keys n key) (rest.offer candidates) m k := by
  obtain ⟨hn, _, le⟩ := f.popped pop
  obtain ⟨_, _, wf, _⟩ := MinQueue.popMin_spec f.wellFormed pop
  have within : n < settled.size := by rw [f.size_settled]; exact hn
  cases mark : (settled.setIfInBounds n true).getD m false with
  | false =>
    obtain ⟨k', le', present⟩ :=
      (MinQueue.offer_spec wf candidates).2.2 m k (Or.inr (offered mark))
    exact ⟨k', le', Or.inr present⟩
  | true =>
    rw [getD_setIfInBounds within] at mark
    split at mark
    · rename_i same
      exact ⟨key, above, Or.inl (by rw [settleKey, if_pos same])⟩
    · rename_i other
      obtain ⟨k', settled'⟩ := Option.isSome_iff_exists.mp ((f.marked m inside).mp mark)
      obtain ⟨_, before⟩ := f.passed m k' settled'
      exact ⟨k', (before.trans le).trans above, Or.inl (by rw [settleKey, if_neg other, settled'])⟩

theorem settled_of_covers (f : SearchFront size keys queue settled least) (done : queue.popMin = none)
    {m : Nat} {k : Int} (covered : Covers keys queue m k) : ∃ k', k' ≤ k ∧ keys m = some k' := by
  obtain ⟨k', le, settled | waits⟩ := covered
  · exact ⟨k', le, settled⟩
  · rw [(MinQueue.popMin_eq_none_iff f.wellFormed).mp done] at waits
    cases waits

end SearchFront

end TemporalNetwork
