import Mathlib.Logic.Function.Basic
import TemporalNetwork.Proofs.Queue.MinQueue

/-!
Runs of the queue. Whatever is asked of a queue that starts empty, it replies like a finite map from
keys to values: an insertion stores a value that is new or smaller than the stored one, and a removal
takes out some key with the least value. Which one of several such keys that is, the map leaves open.
-/

namespace TemporalNetwork.MinQueue

inductive Call where
  | insertOrDecrease (key : Nat) (value : Int)
  | popMin
  deriving DecidableEq, Repr

inductive Reply where
  | changed (changed : Bool)
  | popped (entry : Option (Nat × Int))
  deriving DecidableEq, Repr

def call (q : MinQueue) : Call → MinQueue × Reply
  | .insertOrDecrease key value =>
    ((q.insertOrDecrease key value).1, .changed (q.insertOrDecrease key value).2)
  | .popMin =>
    match q.popMin with
    | none => (q, .popped none)
    | some (entry, rest) => (rest, .popped (some entry))

/-- The queue after some calls, and its replies. -/
def run (q : MinQueue) : List Call → MinQueue × List Reply
  | [] => (q, [])
  | c :: cs => (((q.call c).1.run cs).1, (q.call c).2 :: ((q.call c).1.run cs).2)

/-- What a map of keys to values replies to a call, and what becomes of it. -/
inductive Answers : (Nat → Option Int) → Call → Reply → (Nat → Option Int) → Prop
  | inserts {m : Nat → Option Int} {key : Nat} {value : Int} (absent : m key = none) :
    Answers m (.insertOrDecrease key value) (.changed true) (Function.update m key (some value))
  | decreases {m : Nat → Option Int} {key : Nat} {old value : Int} (present : m key = some old)
      (smaller : value < old) :
    Answers m (.insertOrDecrease key value) (.changed true) (Function.update m key (some value))
  | keeps {m : Nat → Option Int} {key : Nat} {old value : Int} (present : m key = some old)
      (enough : old ≤ value) :
    Answers m (.insertOrDecrease key value) (.changed false) m
  | pops {m : Nat → Option Int} {key : Nat} {value : Int} (present : m key = some value)
      (least : ∀ other v, m other = some v → value ≤ v) :
    Answers m .popMin (.popped (some (key, value))) (Function.update m key none)
  | vacant {m : Nat → Option Int} (nothing : ∀ key, m key = none) :
    Answers m .popMin (.popped none) m

inductive AnswersAll : (Nat → Option Int) → List Call → List Reply → (Nat → Option Int) → Prop
  | nil (m : Nat → Option Int) : AnswersAll m [] [] m
  | cons {m n k : Nat → Option Int} {c : Call} {r : Reply} {cs : List Call} {rs : List Reply}
      (first : Answers m c r n) (rest : AnswersAll n cs rs k) : AnswersAll m (c :: cs) (r :: rs) k

variable {q : MinQueue}

theorem insertOrDecrease_of_lower (wf : q.WellFormed) (key : Nat) (value : Int)
    (lower : ∀ old, q.value? key = some old → value < old) :
    (q.insertOrDecrease key value).2 = true ∧
      (q.insertOrDecrease key value).1.value? = Function.update q.value? key (some value) := by
  obtain ⟨_, values, changed⟩ := insertOrDecrease_spec wf key value
  have least : min value ((q.value? key).getD value) = value := by
    cases present : q.value? key with
    | none => rw [Option.getD_none, min_self]
    | some old => rw [Option.getD_some, min_eq_left (lower old present).le]
  refine ⟨changed.mpr lower, ?_⟩
  funext other
  rw [values, least, Function.update_apply]

theorem insertOrDecrease_of_le (wf : q.WellFormed) {key : Nat} {old value : Int}
    (present : q.value? key = some old) (enough : old ≤ value) :
    (q.insertOrDecrease key value).2 = false ∧
      (q.insertOrDecrease key value).1.value? = q.value? := by
  obtain ⟨_, values, changed⟩ := insertOrDecrease_spec wf key value
  constructor
  · rw [← Bool.not_eq_true, changed]
    intro lower
    exact not_lt.mpr enough (lower old present)
  · funext other
    rw [values, present, Option.getD_some, min_eq_right enough]
    split
    · rename_i same
      rw [same, present]
    · rfl

theorem answers_insertOrDecrease (wf : q.WellFormed) (key : Nat) (value : Int) :
    Answers q.value? (.insertOrDecrease key value)
      (.changed (q.insertOrDecrease key value).2) (q.insertOrDecrease key value).1.value? := by
  cases present : q.value? key with
  | none =>
    obtain ⟨yes, stored⟩ := insertOrDecrease_of_lower wf key value (by simp [present])
    rw [stored, yes]
    exact .inserts present
  | some old =>
    rcases Int.lt_or_le value old with smaller | enough
    · obtain ⟨yes, stored⟩ := insertOrDecrease_of_lower wf key value (by simp [present, smaller])
      rw [stored, yes]
      exact .decreases present smaller
    · obtain ⟨no, kept⟩ := insertOrDecrease_of_le wf present enough
      rw [kept, no]
      exact .keeps present enough

theorem answers_call (wf : q.WellFormed) (c : Call) :
    (q.call c).1.WellFormed ∧ Answers q.value? c (q.call c).2 (q.call c).1.value? := by
  cases c with
  | insertOrDecrease key value =>
    exact ⟨(insertOrDecrease_spec wf key value).1, answers_insertOrDecrease wf key value⟩
  | popMin =>
    unfold call
    cases popped : q.popMin with
    | none => exact ⟨wf, .vacant ((popMin_eq_none_iff wf).mp popped)⟩
    | some result =>
      obtain ⟨⟨key, value⟩, rest⟩ := result
      obtain ⟨present, least, wf', values⟩ := popMin_spec wf popped
      have removed : rest.value? = Function.update q.value? key none := by
        funext other
        rw [values, Function.update_apply]
      dsimp only
      rw [removed]
      exact ⟨wf', .pops present least⟩

theorem answersAll_run (wf : q.WellFormed) (cs : List Call) :
    (q.run cs).1.WellFormed ∧ AnswersAll q.value? cs (q.run cs).2 (q.run cs).1.value? := by
  induction cs generalizing q with
  | nil => exact ⟨wf, .nil _⟩
  | cons c cs ih =>
    -- The map that the queue is after one call is the one that the others start from.
    obtain ⟨wf', answer⟩ := answers_call wf c
    obtain ⟨wf'', answers⟩ := ih wf'
    exact ⟨wf'', .cons answer answers⟩

theorem Indexed.value?_eq_some_iff_mem (indexed : q.Indexed) {key : Nat} {value : Int} :
    q.value? key = some value ↔ (key, value) ∈ q.heap := by
  have entries : ∀ i, ∀ inside : i < q.heap.size, q.entryAt i = q.heap[i] := by
    intro i inside
    rw [entryAt, Array.getD_eq_getD_getElem?, Array.getElem?_eq_getElem inside, Option.getD_some]
  rw [indexed.value?_eq_some_iff, Array.mem_iff_getElem]
  constructor
  · rintro ⟨i, inside, entry⟩
    exact ⟨i, inside, (entries i inside).symm.trans entry⟩
  · rintro ⟨i, inside, entry⟩
    exact ⟨i, inside, (entries i inside).trans entry⟩

/-- A key that has come out of the queue can be inserted again. -/
theorem insertOrDecrease_popped (wf : q.WellFormed) {key : Nat} {least : Int} {rest : MinQueue}
    (popped : q.popMin = some ((key, least), rest)) (value : Int) :
    (rest.insertOrDecrease key value).2 = true ∧
      (rest.insertOrDecrease key value).1.value? key = some value := by
  obtain ⟨_, _, wf', values⟩ := popMin_spec wf popped
  have absent : rest.value? key = none := by rw [values, if_pos rfl]
  obtain ⟨yes, stored⟩ := insertOrDecrease_of_lower wf' key value (by simp [absent])
  rw [stored, Function.update_self]
  exact ⟨yes, rfl⟩

/-- After any calls on an empty queue the heap is ordered, the table of places is the inverse of the
heap, and the queue has replied like a map that starts empty and has become the map of the waiting
keys. -/
theorem run_refines_map (calls : List Call) :
    (empty.run calls).1.Ordered ∧ (empty.run calls).1.Indexed ∧
    AnswersAll (fun _ => none) calls (empty.run calls).2 (empty.run calls).1.value? ∧
    (∀ key value, (empty.run calls).1.value? key = some value ↔
      (key, value) ∈ (empty.run calls).1.heap) ∧
    ∀ key least rest, (empty.run calls).1.popMin = some ((key, least), rest) → ∀ value,
      (rest.insertOrDecrease key value).2 = true ∧
        (rest.insertOrDecrease key value).1.value? key = some value := by
  obtain ⟨wf, answers⟩ := answersAll_run wellFormed_empty calls
  have start : empty.value? = fun _ => none := funext value?_empty
  rw [start] at answers
  exact ⟨wf.ordered, wf.indexed, answers, fun _ _ => wf.indexed.value?_eq_some_iff_mem,
    fun _ _ _ popped => insertOrDecrease_popped wf popped⟩

end TemporalNetwork.MinQueue
