/-!
A priority queue over numbered keys whose values can be lowered while they wait: a binary heap of
the waiting keys, and for each key its place in the heap. Of several keys with the least value, the
one on top of the heap comes out first.
-/

namespace TemporalNetwork

structure MinQueue where
  /-- The heap: the entries `2 * i + 1` and `2 * i + 2` are not smaller than entry `i`. -/
  heap : Array (Nat × Int)
  /-- The place of each key in the heap, if it waits. -/
  places : Array (Option Nat)
  deriving Repr

namespace MinQueue

def empty : MinQueue := ⟨#[], #[]⟩

instance : Inhabited MinQueue := ⟨empty⟩

def size (q : MinQueue) : Nat := q.heap.size

def place? (q : MinQueue) (key : Nat) : Option Nat := (q.places[key]?).join

def entryAt (q : MinQueue) (i : Nat) : Nat × Int := q.heap.getD i (0, 0)

def keyAt (q : MinQueue) (i : Nat) : Nat := (q.entryAt i).1

def valueAt (q : MinQueue) (i : Nat) : Int := (q.entryAt i).2

/-- The value of a waiting key. -/
def value? (q : MinQueue) (key : Nat) : Option Int := (q.place? key).map q.valueAt

def swap (q : MinQueue) (i j : Nat) : MinQueue :=
  let a := q.entryAt i
  let b := q.entryAt j
  ⟨(q.heap.setIfInBounds i b).setIfInBounds j a,
    (q.places.setIfInBounds a.1 (some j)).setIfInBounds b.1 (some i)⟩

/-- Moves the entry at `i` up to where its parent is not larger; it rises at most `fuel` times. -/
def siftUp : (fuel : Nat) → MinQueue → (i : Nat) → MinQueue
  | 0, q, _ => q
  | fuel + 1, q, i =>
    let parent := (i - 1) / 2
    if i = 0 ∨ q.valueAt parent ≤ q.valueAt i then q
    else siftUp fuel (q.swap parent i) parent

/-- The place of the smallest of an entry and its children; the earlier one of equals. -/
def smallestOfFamily (q : MinQueue) (i : Nat) : Nat :=
  let left := 2 * i + 1
  let right := 2 * i + 2
  let best := if left < q.size ∧ q.valueAt left < q.valueAt i then left else i
  if right < q.size ∧ q.valueAt right < q.valueAt best then right else best

/-- Moves the entry at `i` down to where no child is smaller; it sinks at most `fuel` times. -/
def siftDown : (fuel : Nat) → MinQueue → (i : Nat) → MinQueue
  | 0, q, _ => q
  | fuel + 1, q, i =>
    let best := q.smallestOfFamily i
    if best = i then q else siftDown fuel (q.swap best i) best

/-- Inserts a key, or lowers its value; the second component tells whether the queue changed. -/
def insertOrDecrease (q : MinQueue) (key : Nat) (value : Int) : MinQueue × Bool :=
  match q.place? key with
  | some i =>
    if q.valueAt i ≤ value then (q, false)
    else (siftUp q.size { q with heap := q.heap.setIfInBounds i (key, value) } i, true)
  | none =>
    let i := q.size
    let places := q.places ++ Array.replicate (key + 1 - q.places.size) none
    (siftUp (i + 1) ⟨q.heap.push (key, value), places.setIfInBounds key (some i)⟩ i, true)

/-- Takes out a key with the least value. -/
def popMin (q : MinQueue) : Option ((Nat × Int) × MinQueue) :=
  if q.heap.isEmpty then none
  else
    let q := q.swap 0 (q.size - 1)
    let least := q.entryAt (q.size - 1)
    let rest : MinQueue := ⟨q.heap.pop, q.places.setIfInBounds least.1 none⟩
    some (least, siftDown rest.size rest 0)

end MinQueue

end TemporalNetwork
