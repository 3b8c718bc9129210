/-!
The propagation rules of conditional networks, sets of them, and counts of their applications.
-/

namespace TemporalNetwork

inductive Rule where
  /-- Adds the values along a path of two edges. -/
  | labelPropagation
  /-- Removes the observed proposition from a value that leaves its observer. -/
  | r0
  /-- `r0` for edges into Z, where labels can have unknown literals. -/
  | qr0
  /-- Removes a proposition from a value with the help of an observation edge into the same node. -/
  | r3
  /-- `r3` for edges into Z, where labels can have unknown literals. -/
  | qr3
  /-- Moves a lower-case value past its contingent node. -/
  | crossLowerCase
  /-- Drops a case letter from an upper-case value. -/
  | letterRemoval
  deriving DecidableEq, Repr

namespace Rule

def all : List Rule := [labelPropagation, r0, qr0, r3, qr3, crossLowerCase, letterRemoval]

def name : Rule → String
  | labelPropagation => "LP"
  | r0 => "R0"
  | qr0 => "qR0"
  | r3 => "R3"
  | qr3 => "qR3"
  | crossLowerCase => "crossLowerCase"
  | letterRemoval => "letterRemoval"

def index : Rule → Fin 7
  | labelPropagation => 0
  | r0 => 1
  | qr0 => 2
  | r3 => 3
  | qr3 => 4
  | crossLowerCase => 5
  | letterRemoval => 6

theorem index_injective {r s : Rule} (h : r.index = s.index) : r = s := by
  cases r <;> cases s <;> first | rfl | cases h

end Rule

/-- The rules a checker applies. -/
abbrev RuleSet := List Rule

namespace RuleSet

/-- Labelled propagation and all observation rules. -/
def full : RuleSet := [.labelPropagation, .r0, .qr0, .r3, .qr3]

/-- Labelled propagation and the observation rules for edges into Z. -/
def restricted : RuleSet := [.labelPropagation, .qr0, .qr3]

/-- The full rules and those for contingent links. -/
def withCases : RuleSet := Rule.all

end RuleSet

/-- How often each rule has changed an edge. -/
structure RuleCounts where
  counts : Vector Nat 7
  deriving DecidableEq, Repr

namespace RuleCounts

def zero : RuleCounts := ⟨Vector.replicate 7 0⟩

instance : Inhabited RuleCounts := ⟨zero⟩

def count (c : RuleCounts) (r : Rule) : Nat := c.counts[r.index]

def record (c : RuleCounts) (r : Rule) : RuleCounts :=
  ⟨c.counts.set r.index (c.counts[r.index] + 1)⟩

def add (c d : RuleCounts) : RuleCounts := ⟨Vector.zipWith (· + ·) c.counts d.counts⟩

def total (c : RuleCounts) : Nat := Rule.all.foldr (fun r n => c.count r + n) 0

@[simp] theorem count_zero (r : Rule) : zero.count r = 0 := by
  cases r <;> rfl

theorem count_record (c : RuleCounts) (r s : Rule) :
    (c.record r).count s = c.count s + if r = s then 1 else 0 := by
  by_cases h : r = s
  · subst h; simp [record, count]
  · have : ¬ r.index = s.index := fun e => h (Rule.index_injective e)
    simp only [record, count, h, if_false, Nat.add_zero]
    grind

@[simp] theorem count_add (c d : RuleCounts) (r : Rule) :
    (c.add d).count r = c.count r + d.count r := by
  simp [add, count]

end RuleCounts

end TemporalNetwork
