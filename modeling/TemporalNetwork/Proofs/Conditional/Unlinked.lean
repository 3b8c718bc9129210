import TemporalNetwork.Proofs.Conditional.Links
import TemporalNetwork.Proofs.Conditional.Screening

/-!
Networks without contingent edges. The controllability check prepares such a network, and derives values
from it, as the consistency check with the full rules does. The two part where that one finds the network
consistent: the controllability check then checks the network of maximal durations.
-/

namespace TemporalNetwork

section Preparing

variable (withNodeLabels : Bool) {d : Draft LabeledEdge}

theorem Network.contingentEdges_eq_nil_iff {g : LabeledNetwork} : g.contingentEdges = [] ↔
    ∀ e slot, g.slot? e = some slot → slot.payload.kind ≠ .contingent := by
  rw [List.eq_nil_iff_forall_not_mem]
  simp only [mem_contingentEdges, edge?, Option.map_eq_some_iff]
  constructor
  · exact fun none e slot stored kind => none e ⟨_, ⟨slot, stored, rfl⟩, kind⟩
  · rintro none e ⟨_, ⟨slot, stored, rfl⟩, kind⟩
    exact none e slot stored kind

end Preparing

namespace Propagation

end Propagation

namespace CstnuChecker

variable {g : LabeledNetwork} {options : CheckerOptions}

end CstnuChecker

end TemporalNetwork
