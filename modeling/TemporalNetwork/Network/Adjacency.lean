import TemporalNetwork.Edge.Payload

/-!
The edge between each ordered pair of nodes, in a square table stored row by row. The table has room
for more rows than there are nodes; when it is full it grows by a factor of 8/5.
-/

namespace TemporalNetwork

structure Adjacency where
  /-- The length of a row. -/
  capacity : Nat
  /-- The number of nodes. -/
  order : Nat
  cells : Array (Option EdgeId)
  deriving Repr

namespace Adjacency

def empty : Adjacency := ⟨10, 0, Array.replicate 100 none⟩

instance : Inhabited Adjacency := ⟨empty⟩

/-- The position of a pair in `cells`. -/
def cell (t : Adjacency) (source target : NodeId) : Nat := source * t.capacity + target

/-- What is stored at a position; nothing beyond the end of the table. -/
def read (t : Adjacency) (i : Nat) : Option EdgeId := (t.cells[i]?).join

def get? (t : Adjacency) (source target : NodeId) : Option EdgeId :=
  if source < t.order ∧ target < t.order then t.read (t.cell source target) else none

def set (t : Adjacency) (source target : NodeId) (edge : Option EdgeId) : Adjacency :=
  { t with cells := t.cells.setIfInBounds (t.cell source target) edge }

/-- The rows of a table that replaces a full one, rounded up. -/
def grownCapacity (capacity : Nat) : Nat := max ((8 * capacity + 4) / 5) (capacity + 1)

def grow (t : Adjacency) : Adjacency :=
  let capacity := grownCapacity t.capacity
  { t with
    capacity := capacity
    cells := Array.ofFn fun i : Fin (capacity * capacity) =>
      t.get? (i.val / capacity) (i.val % capacity) }

/-- Adds an empty row and column. -/
def addNode (t : Adjacency) : Adjacency :=
  let t := if t.order = t.capacity then t.grow else t
  { t with order := t.order + 1 }

/-- The table in which the pair at each place in use is replaced by the one `f` names. -/
def rearrange (t : Adjacency) (f : NodeId → NodeId → Option EdgeId) : Array (Option EdgeId) :=
  t.cells.mapIdx fun i e =>
    let source := i / t.capacity
    let target := i % t.capacity
    if source < t.order ∧ target < t.order then f source target else e

/-- The node that has the number `k` once `node` is removed: the last node takes the free number. -/
def origin (t : Adjacency) (node k : NodeId) : NodeId := if k = node then t.order - 1 else k

/-- Removes the row and column of `node`, whose edges are gone; the last node takes its place. -/
def removeNode (t : Adjacency) (node : NodeId) : Adjacency :=
  { t with
    order := t.order - 1
    cells := t.rearrange fun source target =>
      if source = t.order - 1 ∨ target = t.order - 1 then none
      else t.get? (t.origin node source) (t.origin node target) }

def transpose (t : Adjacency) : Adjacency :=
  { t with cells := t.rearrange fun source target => t.get? target source }

/-- The edges leaving `source`, by increasing target. -/
def row (t : Adjacency) (source : NodeId) : List (NodeId × EdgeId) :=
  (List.range t.order).filterMap fun target => (t.read (t.cell source target)).map (target, ·)

/-- The edges entering `target`, by increasing source. -/
def column (t : Adjacency) (target : NodeId) : List (NodeId × EdgeId) :=
  (List.range t.order).filterMap fun source => (t.read (t.cell source target)).map (source, ·)

/-- Whether `row source` stays within the table. -/
def hasRow (t : Adjacency) (source : NodeId) : Bool :=
  (List.range t.order).all fun target => t.cell source target < t.cells.size

/-- Whether `column target` stays within the table. -/
def hasColumn (t : Adjacency) (target : NodeId) : Bool :=
  (List.range t.order).all fun source => t.cell source target < t.cells.size

end Adjacency

end TemporalNetwork
