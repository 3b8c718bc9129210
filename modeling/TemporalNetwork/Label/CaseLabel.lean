/-!
Case letters name contingent nodes; a case label is the set of contingent durations an upper-case
value depends on. The empty case label marks an ordinary value.
-/

namespace TemporalNetwork

/-- The letter of a contingent node; a network has at most 64 of them. -/
abbrev CaseLetter := Fin 64

namespace CaseLetter

def ofNat? (n : Nat) : Option CaseLetter := if h : n < 64 then some ⟨n, h⟩ else none

/-- The letters are written `A` to `Z`, then `C26`, `C27` and so on. -/
def text (c : CaseLetter) : String :=
  if c.val < 26 then String.singleton (Char.ofNat (65 + c.val)) else "C" ++ toString c.val

/-- The written form of the letter in a lower-case value. -/
def lowerText (c : CaseLetter) : String :=
  if c.val < 26 then String.singleton (Char.ofNat (97 + c.val)) else "c" ++ toString c.val

def all : List CaseLetter := List.finRange 64

end CaseLetter

/-- A set of case letters, one bit each. -/
structure CaseLabel where
  mask : BitVec 64
  deriving DecidableEq, Repr, Inhabited

namespace CaseLabel

def empty : CaseLabel := ⟨0⟩

def ofLetter (c : CaseLetter) : CaseLabel := ⟨BitVec.twoPow 64 c.val⟩

def contains (a : CaseLabel) (c : CaseLetter) : Bool := a.mask.getLsbD c.val

def isEmpty (a : CaseLabel) : Bool := a.mask == 0

def union (a b : CaseLabel) : CaseLabel := ⟨a.mask ||| b.mask⟩

instance : Union CaseLabel := ⟨union⟩

def ofLetters (cs : List CaseLetter) : CaseLabel := cs.foldl (fun a c => a ∪ ofLetter c) empty

def intersects (a b : CaseLabel) : Bool := a.mask &&& b.mask != 0

def erase (a : CaseLabel) (c : CaseLetter) : CaseLabel := ⟨a.mask &&& ~~~(BitVec.twoPow 64 c.val)⟩

def subset (a b : CaseLabel) : Bool := a.mask &&& ~~~b.mask == 0

/-- The letters in increasing order. -/
def letters (a : CaseLabel) : List CaseLetter := CaseLetter.all.filter a.contains

def size (a : CaseLabel) : Nat := CaseLetter.all.countP a.contains

/-- Case labels are ordered as the binary numbers of their masks. -/
instance : Ord CaseLabel where
  compare a b := compare a.mask.toNat b.mask.toNat

def text (a : CaseLabel) : String :=
  if a.isEmpty then "◇" else String.join (a.letters.map CaseLetter.text)

@[simp] theorem contains_empty (c : CaseLetter) : empty.contains c = false := by
  simp [empty, contains]

@[simp] theorem contains_union (a b : CaseLabel) (c : CaseLetter) :
    (a ∪ b).contains c = (a.contains c || b.contains c) := by
  simp [Union.union, union, contains]

@[simp] theorem contains_ofLetter (c d : CaseLetter) :
    (ofLetter c).contains d = decide (c = d) := by
  simp only [ofLetter, contains, BitVec.getLsbD_twoPow, Fin.ext_iff]
  have within := d.isLt
  grind

@[simp] theorem contains_erase (a : CaseLabel) (c d : CaseLetter) :
    (a.erase c).contains d = (a.contains d && decide (c ≠ d)) := by
  have bit := contains_ofLetter c d
  have within := d.isLt
  simp only [ofLetter, contains] at bit
  simp only [erase, contains, BitVec.getLsbD_and, BitVec.getLsbD_not, bit, within, decide_true,
    Bool.true_and, ne_eq, decide_not]

theorem ext_contains {a b : CaseLabel} (h : ∀ c, a.contains c = b.contains c) : a = b := by
  cases a; cases b
  simp only [mk.injEq]
  apply BitVec.eq_of_getLsbD_eq
  intro i hi
  exact h ⟨i, hi⟩

theorem isEmpty_iff {a : CaseLabel} : a.isEmpty = true ↔ a = empty := by
  obtain ⟨mask⟩ := a
  simp [isEmpty, empty]

theorem subset_iff {a b : CaseLabel} :
    a.subset b = true ↔ ∀ c, a.contains c = true → b.contains c = true := by
  simp only [subset, beq_iff_eq, contains]
  constructor
  · intro outside c inside
    have bit : (a.mask &&& ~~~b.mask).getLsbD c.val = false := by
      rw [outside]
      exact BitVec.getLsbD_zero
    have within := c.isLt
    simpa only [BitVec.getLsbD_and, BitVec.getLsbD_not, inside, within, decide_true, Bool.true_and,
      Bool.not_eq_eq_eq_not, Bool.not_false] using bit
  · intro included
    apply BitVec.eq_of_getLsbD_eq
    intro i hi
    have bit := included ⟨i, hi⟩
    cases h : a.mask.getLsbD i with
    | false => simp [h]
    | true => simp [h, bit h]

theorem intersects_iff {a b : CaseLabel} :
    a.intersects b = true ↔ ∃ c, a.contains c = true ∧ b.contains c = true := by
  have disjoint : a.intersects b = false ↔ ∀ c, a.contains c = true → b.contains c = false := by
    simp only [intersects, bne_eq_false_iff_eq, contains]
    constructor
    · intro common c inside
      have bit : (a.mask &&& b.mask).getLsbD c.val = false := by
        rw [common]
        exact BitVec.getLsbD_zero
      simpa only [BitVec.getLsbD_and, inside, Bool.true_and] using bit
    · intro apart
      apply BitVec.eq_of_getLsbD_eq
      intro i hi
      have bit := apart ⟨i, hi⟩
      cases h : a.mask.getLsbD i with
      | false => simp [h]
      | true => simp [h, bit h]
  rw [← Bool.not_eq_false, disjoint]
  constructor
  · intro meet
    apply Classical.byContradiction
    intro nowhere
    refine meet fun c ha => ?_
    cases hb : b.contains c with
    | false => rfl
    | true => exact absurd ⟨c, ha, hb⟩ nowhere
  · rintro ⟨c, ha, hb⟩ apart
    rw [apart c ha] at hb
    cases hb

@[simp] theorem mem_letters {a : CaseLabel} {c : CaseLetter} :
    c ∈ a.letters ↔ a.contains c = true := by
  simp [letters, CaseLetter.all]

end CaseLabel

end TemporalNetwork
