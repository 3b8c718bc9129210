/-!
The propositions a network can observe, and sets of them.
-/

namespace TemporalNetwork

/-- One of the 32 propositions whose truth value becomes known at run time. -/
abbrev Proposition := Fin 32

namespace Proposition

/-- The propositions are written `a` to `z`, then `A` to `F`. -/
def toChar (p : Proposition) : Char :=
  if p.val < 26 then Char.ofNat (97 + p.val) else Char.ofNat (65 + (p.val - 26))

def ofNat? (n : Nat) : Option Proposition := if h : n < 32 then some ⟨n, h⟩ else none

def ofChar? (c : Char) : Option Proposition :=
  if 'a' ≤ c ∧ c ≤ 'z' then ofNat? (c.toNat - 97)
  else if 'A' ≤ c ∧ c ≤ 'F' then ofNat? (c.toNat - 65 + 26)
  else none

def text (p : Proposition) : String := String.singleton p.toChar

/-- All propositions, in increasing order. -/
def all : List Proposition := List.finRange 32

end Proposition

/-- A set of propositions, one bit each. -/
structure PropositionSet where
  mask : BitVec 32
  deriving DecidableEq, Repr, Inhabited

namespace PropositionSet

def empty : PropositionSet := ⟨0⟩

def singleton (p : Proposition) : PropositionSet := ⟨BitVec.twoPow 32 p.val⟩

def contains (s : PropositionSet) (p : Proposition) : Bool := s.mask.getLsbD p.val

instance : Membership Proposition PropositionSet := ⟨fun s p => s.contains p = true⟩

instance (p : Proposition) (s : PropositionSet) : Decidable (p ∈ s) :=
  inferInstanceAs (Decidable (s.contains p = true))

def union (s t : PropositionSet) : PropositionSet := ⟨s.mask ||| t.mask⟩

instance : Union PropositionSet := ⟨union⟩

def insert (s : PropositionSet) (p : Proposition) : PropositionSet := s ∪ singleton p

def ofList (ps : List Proposition) : PropositionSet := ps.foldl insert empty

/-- The members in increasing order. -/
def toList (s : PropositionSet) : List Proposition := Proposition.all.filter s.contains

def size (s : PropositionSet) : Nat := Proposition.all.countP s.contains

def isEmpty (s : PropositionSet) : Bool := s.mask == 0

def text (s : PropositionSet) : String := String.ofList (s.toList.map Proposition.toChar)

@[simp] theorem contains_empty (p : Proposition) : empty.contains p = false := by
  simp [empty, contains]

@[simp] theorem contains_singleton (p q : Proposition) :
    (singleton p).contains q = decide (p = q) := by
  simp only [singleton, contains, BitVec.getLsbD_twoPow, Fin.ext_iff]
  have := q.isLt
  grind

@[simp] theorem contains_union (s t : PropositionSet) (p : Proposition) :
    (s ∪ t).contains p = (s.contains p || t.contains p) := by
  simp [Union.union, union, contains]

@[simp] theorem contains_insert (s : PropositionSet) (p q : Proposition) :
    (s.insert p).contains q = (s.contains q || decide (p = q)) := by
  simp [insert]

theorem contains_ofList (ps : List Proposition) (q : Proposition) :
    (ofList ps).contains q = true ↔ q ∈ ps := by
  have all : ∀ s : PropositionSet, (ps.foldl insert s).contains q = true ↔
      s.contains q = true ∨ q ∈ ps := by
    induction ps with
    | nil => simp
    | cons p ps ih =>
      intro s
      rw [List.foldl_cons, ih, contains_insert, Bool.or_eq_true, decide_eq_true_eq, List.mem_cons,
        or_assoc, eq_comm (a := p)]
  rw [ofList, all, contains_empty, Bool.false_eq_true, false_or]

theorem ext_contains {s t : PropositionSet} (h : ∀ p, s.contains p = t.contains p) : s = t := by
  cases s; cases t
  simp only [mk.injEq]
  apply BitVec.eq_of_getLsbD_eq
  intro i hi
  exact h ⟨i, hi⟩

end PropositionSet

end TemporalNetwork
