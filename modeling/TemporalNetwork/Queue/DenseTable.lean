import TemporalNetwork.Fault

/-!
A growing table whose keys are the numbers from zero.
-/

namespace TemporalNetwork

structure DenseTable (α : Type) where
  rows : Array α
  deriving Repr

namespace DenseTable

variable {α : Type}

def empty : DenseTable α := ⟨#[]⟩

def size (t : DenseTable α) : Nat := t.rows.size

def keys (t : DenseTable α) : List Nat := List.range t.size

def toList (t : DenseTable α) : List α := t.rows.toList

def get? (t : DenseTable α) (key : Nat) : Option α := t.rows[key]?

def get (t : DenseTable α) (key : Nat) : Except Fault α :=
  match t.get? key with
  | some a => .ok a
  | none => .error .outOfRange

/-- Adds a row under the next key. -/
def push (t : DenseTable α) (a : α) : DenseTable α × Nat := (⟨t.rows.push a⟩, t.size)

/-- Replaces a row; the second component is the old one. -/
def set (t : DenseTable α) (key : Nat) (a : α) : Except Fault (DenseTable α × α) :=
  (t.get key).map fun old => (⟨t.rows.setIfInBounds key a⟩, old)

end DenseTable

end TemporalNetwork
