import TemporalNetwork.Conditional.WellDefined

/-!
Contingent links of conditional networks. A link is given by the pair of contingent edges `A → C
(y)` and `C → A (−x)` with `0 < x < y`: once `A` is executed, `C` follows after a duration between
`x` and `y` which is not ours to choose.
-/

namespace TemporalNetwork

structure ContingentLink where
  activation : NodeId
  contingent : NodeId
  letter : CaseLetter
  /-- The label of the lower-case value. -/
  label : Label
  lower : Value
  upper : Value
  deriving DecidableEq, Repr

namespace ContingentLink

open Preparation

/-- The contingent edge in the opposite direction. -/
def companion? (g : LabeledNetwork) (source target : NodeId) : Option EdgeId :=
  (g.findEdge? target source).filter fun c =>
    (g.edge? c).any fun edge => edge.kind == .contingent

/-- The first value of a contingent edge. -/
def rawValue (e : EdgeId) : Preparation LabeledEdge (Label × Value) := do
  let g ← network
  match (g.edge? e).bind fun edge => edge.values.entries.head? with
  | some v => return v
  | none => throw (.structural (.emptyContingentEdge (g.edgeName e)))

/-- The letters of all nodes. -/
def usedLetters (g : LabeledNetwork) : CaseLabel :=
  .ofLetters (g.nodes.toList.filterMap Node.letter)

/-- The letter of a new link: the one of its contingent node unless another link has it, else the
first unused one. -/
def chooseLetter (links : List ContingentLink) (used : CaseLabel) (own : Option CaseLetter) :
    Option CaseLetter :=
  match own.filter fun c => links.all fun link => link.letter != c with
  | some c => some c
  | none => CaseLetter.all.find? fun c => !used.contains c

/-- Stores the case values of a link; those that are present have to agree. -/
def storeCaseValues (forward backward : EdgeId) (letter : CaseLetter) (label : Label)
    (lower upper : Value) : Preparation LabeledEdge Unit := do
  let g ← network
  let negated ← negate upper
  let lowerCase : LowerCaseValue := ⟨letter, label, lower⟩
  let case := CaseLabel.ofLetter letter
  let presentLower := (g.edge? forward).bind LabeledEdge.lower
  let presentUpper := (g.edge? backward).bind fun edge => edge.upper.get? case label
  if presentLower.any (· != lowerCase) || presentUpper.any (· != negated) then
    throw (.structural (.contradictoryCaseValues (g.edgeName forward)))
  modifyNetwork fun g => g.modifyEdge forward fun edge => { edge with lower := some lowerCase }
  modifyNetwork fun g => g.modifyEdge backward fun edge => (edge.merge case label negated).1

/-- Sets up the link with the contingent edge `e` from its activation node; an edge from the
contingent node is left to its companion. -/
def addLink (links : List ContingentLink) (used : CaseLabel) (e : EdgeId) :
    Preparation LabeledEdge (List ContingentLink × CaseLabel) := do
  let g ← network
  match g.slot? e with
  | none => return (links, used)
  | some ⟨name, source, target, _⟩ =>
    match companion? g source target with
    | none => throw (.structural (.missingCompanion name))
    | some companion =>
      let (label, value) ← rawValue e
      let (_, companionValue) ← rawValue companion
      if value = 0 ∨ companionValue = 0 then
        throw (.structural (.zeroContingentBound
          (g.nodeName (if value < 0 then source else target))))
      if value < 0 then
        if companionValue < 0 then
          throw (.structural (.invalidContingentRange (g.nodeName source) (← negate value)
            companionValue))
        return (links, used)
      let lower ← negate companionValue
      if lower ≤ 0 ∨ value ≤ lower then
        throw (.structural (.invalidContingentRange (g.nodeName target) lower value))
      if let some first := (g.activation? target).filter (· != source) then
        throw (.structural (.multipleActivations (g.nodeName target) (← nodeName first)
          (g.nodeName source)))
      match chooseLetter links used (g.nodeD target).letter with
      | none => throw (.structural .tooManyContingentNodes)
      | some letter =>
        storeCaseValues e companion letter label lower value
        modifyNetwork fun g => g.modifyNode target fun n =>
          { n with contingent := true, letter := some letter }
        modifyNetwork fun g => g.setActivation target source
        return (links ++ [⟨source, target, letter, label, lower, value⟩],
          used ∪ CaseLabel.ofLetter letter)

/-- Turns the contingent edges into links, in the order of the edges. -/
def prepareAll : Preparation LabeledEdge (List ContingentLink) := do
  let g ← network
  let (links, _) ← g.contingentEdges.foldlM (fun (links, used) e => addLink links used e)
    (([] : List ContingentLink), usedLetters g)
  return links

end ContingentLink

end TemporalNetwork
