import TemporalNetwork.Fault
import TemporalNetwork.Label.Proposition
import TemporalNetwork.Value

/-!
What ends a check without a verdict. A network which is inconsistent, or not controllable, is an
answer and no error.
-/

namespace TemporalNetwork

/-- A violation of well-definedness which cannot be repaired. -/
inductive StructuralError where
  | observerLabelContainsOwnProposition (node : String) (p : Proposition)
  | duplicateObserver (p : Proposition) (first second : String)
  | unobservedProposition (element : String) (p : Proposition)
  | inconsistentNodeLabel (node : String)
  | missingCompanion (edge : String)
  | emptyContingentEdge (edge : String)
  | zeroContingentBound (contingent : String)
  | invalidContingentRange (contingent : String) (lower upper : Value)
  | contradictoryCaseValues (edge : String)
  | multipleActivations (contingent first second : String)
  | unsupportedContingentEdge (edge : String)
  | tooManyContingentNodes
  deriving DecidableEq, Repr

namespace StructuralError

def kind : StructuralError → String
  | observerLabelContainsOwnProposition .. => "ObserverLabelContainsOwnProposition"
  | duplicateObserver .. => "DuplicateObserver"
  | unobservedProposition .. => "UnobservedProposition"
  | inconsistentNodeLabel .. => "InconsistentNodeLabel"
  | missingCompanion .. => "MissingCompanion"
  | emptyContingentEdge .. => "EmptyContingentEdge"
  | zeroContingentBound .. => "ZeroContingentBound"
  | invalidContingentRange .. => "InvalidContingentRange"
  | contradictoryCaseValues .. => "ContradictoryCaseValues"
  | multipleActivations .. => "MultipleActivations"
  | unsupportedContingentEdge .. => "UnsupportedContingentEdge"
  | tooManyContingentNodes => "TooManyContingentNodes"

/-- A name between quotation marks. -/
def quoted (name : String) : String := "'" ++ name ++ "'"

def message : StructuralError → String
  | observerLabelContainsOwnProposition node p =>
    "the label of observer " ++ quoted node ++ " contains its own proposition " ++ quoted p.text
  | duplicateObserver p first second =>
    "proposition " ++ quoted p.text ++ " is observed by both " ++ quoted first ++ " and " ++
      quoted second
  | unobservedProposition element p =>
    quoted element ++ " uses proposition " ++ quoted p.text ++ " which has no observer"
  | inconsistentNodeLabel node =>
    "the label of node " ++ quoted node ++ " contradicts the labels of its observers"
  | missingCompanion edge =>
    "contingent edge " ++ quoted edge ++ " has no contingent companion edge"
  | emptyContingentEdge edge => "contingent edge " ++ quoted edge ++ " has no value"
  | zeroContingentBound contingent =>
    "the contingent link of " ++ quoted contingent ++ " has a zero bound"
  | invalidContingentRange contingent lower upper =>
    "the contingent link of " ++ quoted contingent ++ " has the invalid range [" ++
      toString lower ++ ", " ++ toString upper ++ "]"
  | contradictoryCaseValues edge =>
    "edge " ++ quoted edge ++ " stores a case value which contradicts its contingent link"
  | multipleActivations contingent first second =>
    "contingent node " ++ quoted contingent ++ " is activated by both " ++ quoted first ++
      " and " ++ quoted second
  | unsupportedContingentEdge edge =>
    "edge " ++ quoted edge ++ " is contingent, which is not supported by this checker"
  | tooManyContingentNodes => "the network has more than 64 contingent nodes"

end StructuralError

/-- A value of the network, or one derived from it, is not representable. -/
inductive RangeError where
  | sumOverflow (lhs rhs : Value)
  | horizonOverflow (maxWeight : Int) (nodeCount : Nat)
  | weightOverflow (value : Int)
  deriving DecidableEq, Repr

namespace RangeError

def kind : RangeError → String
  | sumOverflow .. => "SumOverflow"
  | horizonOverflow .. => "HorizonOverflow"
  | weightOverflow .. => "WeightOverflow"

def message : RangeError → String
  | sumOverflow lhs rhs =>
    "the sum of " ++ toString lhs ++ " and " ++ toString rhs ++ " is not representable"
  | horizonOverflow maxWeight nodeCount =>
    "the horizon " ++ toString maxWeight ++ " * " ++ toString nodeCount ++ " is not representable"
  | weightOverflow value => "the derived weight " ++ toString value ++ " is not representable"

end RangeError

inductive Failure where
  | structural (e : StructuralError)
  | range (e : RangeError)
  | fault (f : Fault)
  deriving DecidableEq, Repr

end TemporalNetwork
