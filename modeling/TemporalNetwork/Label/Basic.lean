import TemporalNetwork.Label.Literal

/-!
Labels: conjunctions of literals in which a proposition occurs at most once. A label describes the
scenarios in which a value holds; one label subsumes another if it has all of its literals, and so
describes fewer scenarios.

`Label.state` is the view in terms of which every operation can be described; two labels with the
same states are equal (`Label.ext_state`).
-/

namespace TemporalNetwork

/-- A proposition is straight if only its bit in `straight` is set, negated if only its bit in
`negated` is set, unknown if both are set, and absent otherwise. -/
@[ext] structure Label where
  straight : BitVec 32
  negated : BitVec 32
  deriving DecidableEq, Repr, Inhabited

namespace Label

/-- The label without literals, which holds in every scenario. -/
def empty : Label := ⟨0, 0⟩

/-- The state which the two bits of a proposition stand for. -/
def stateOfBits : (straight negated : Bool) → Option LiteralState
  | true, false => some .straight
  | false, true => some .negated
  | true, true => some .unknown
  | false, false => none

def state (a : Label) (p : Proposition) : Option LiteralState :=
  stateOfBits (a.straight.getLsbD p.val) (a.negated.getLsbD p.val)

def ofLiteral (l : Literal) : Label :=
  let bit := BitVec.twoPow 32 l.proposition.val
  match l.state with
  | .straight => ⟨bit, 0⟩
  | .negated => ⟨0, bit⟩
  | .unknown => ⟨bit, bit⟩

/-- The propositions which occur, in any state. -/
def propositions (a : Label) : PropositionSet := ⟨a.straight ||| a.negated⟩

/-- The propositions which occur as unknown literals. -/
def unknowns (a : Label) : PropositionSet := ⟨a.straight &&& a.negated⟩

/-- The number of literals. -/
def size (a : Label) : Nat := a.propositions.size

def isEmpty (a : Label) : Bool := a.propositions.isEmpty

def hasUnknown (a : Label) : Bool := !a.unknowns.isEmpty

def mentions (a : Label) (p : Proposition) : Bool := a.propositions.contains p

/-- The literals in increasing order of proposition. -/
def literals (a : Label) : List Literal :=
  Proposition.all.filterMap fun p => (a.state p).map (Literal.mk p)

def contains (a : Label) (l : Literal) : Bool := a.state l.proposition == some l.state

/-- The label without its literals over `ps`. -/
def eraseAll (a : Label) (ps : PropositionSet) : Label :=
  ⟨a.straight &&& ~~~ps.mask, a.negated &&& ~~~ps.mask⟩

/-- The label without its literal over `p`. -/
def erase (a : Label) (p : Proposition) : Label := a.eraseAll (PropositionSet.singleton p)

/-- The conjunction in which a proposition with different states becomes unknown. -/
def blend (a b : Label) : Label := ⟨a.straight ||| b.straight, a.negated ||| b.negated⟩

/-- Whether some proposition occurs in both labels with different states. -/
def differs (a b : Label) : Bool :=
  ((a.straight ^^^ b.straight) ||| (a.negated ^^^ b.negated)) &&&
    (a.propositions.mask &&& b.propositions.mask) != 0

/-- The conjunction, undefined if a proposition has different states. -/
def and? (a b : Label) : Option Label := if a.differs b then none else some (a.blend b)

/-- The label with `l` in place of its literal over the same proposition. -/
def replace (a : Label) (l : Literal) : Label := (a.erase l.proposition).blend (ofLiteral l)

/-- Whether every literal of `b` is a literal of `a`. -/
def subsumes (a b : Label) : Bool :=
  a.straight &&& b.propositions.mask == b.straight &&
    a.negated &&& b.propositions.mask == b.negated

/-- Whether some scenario satisfies both labels; an unknown literal is consistent with every state
of its proposition. -/
def consistent (a b : Label) : Bool :=
  ((a.straight &&& ~~~a.negated) &&& (b.negated &&& ~~~b.straight)) |||
    ((a.negated &&& ~~~a.straight) &&& (b.straight &&& ~~~b.negated)) == 0

/-- The conjunction of literals, undefined if two of them differ on a proposition. -/
def ofLiterals? (ls : List Literal) : Option Label :=
  ls.foldlM (fun a l => a.and? (ofLiteral l)) empty

theorem stateOfBits_injective {s n t m : Bool} (h : stateOfBits s n = stateOfBits t m) :
    s = t ∧ n = m := by
  cases s <;> cases n <;> cases t <;> cases m <;> first | exact ⟨rfl, rfl⟩ | cases h

theorem ext_state {a b : Label} (h : ∀ p, a.state p = b.state p) : a = b := by
  have key : ∀ i (hi : i < 32), a.straight.getLsbD i = b.straight.getLsbD i ∧
      a.negated.getLsbD i = b.negated.getLsbD i := by
    intro i hi
    exact stateOfBits_injective (h ⟨i, hi⟩)
  ext1
  · exact BitVec.eq_of_getLsbD_eq fun i hi => (key i hi).1
  · exact BitVec.eq_of_getLsbD_eq fun i hi => (key i hi).2

@[simp] theorem state_empty (p : Proposition) : empty.state p = none := by
  simp [empty, state, stateOfBits]

theorem mentions_eq (a : Label) (p : Proposition) : a.mentions p = (a.state p).isSome := by
  simp only [mentions, propositions, PropositionSet.contains, state, BitVec.getLsbD_or]
  cases a.straight.getLsbD p.val <;> cases a.negated.getLsbD p.val <;> rfl

end Label

end TemporalNetwork
