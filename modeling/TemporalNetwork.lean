import TemporalNetwork.Conditional.Controllability
import TemporalNetwork.Label.Lemmas
import TemporalNetwork.Network.Adjacency.Lemmas
import TemporalNetwork.Network.Memo
import TemporalNetwork.Proofs.Conditional.Confined
import TemporalNetwork.Proofs.Conditional.Durations
import TemporalNetwork.Proofs.Conditional.Restriction
import TemporalNetwork.Proofs.Conditional.WellDefined
import TemporalNetwork.Proofs.Network.Representation
import TemporalNetwork.Proofs.Stnu.Exhaustion
import TemporalNetwork.Proofs.Stnu.Settlement
import TemporalNetwork.Proofs.Strategy.Agreement
import TemporalNetwork.Proofs.Strategy.LinkStrategy
import TemporalNetwork.Proofs.Strategy.MinimalNetwork
import TemporalNetwork.Proofs.Strategy.Refutation
import TemporalNetwork.Proofs.Values.Reporting
import TemporalNetwork.Queue.DenseTable
import TemporalNetwork.Statistics.Log
import TemporalNetwork.Stnu.Controllability
import TemporalNetwork.Proofs.Conditional.Remainder
import TemporalNetwork.Proofs.Conditional.Unlinked
import TemporalNetwork.Proofs.Check.Enclosed
import TemporalNetwork.Proofs.Check.LifeCycle
import TemporalNetwork.Proofs.Conditional.Extension
import TemporalNetwork.Proofs.Conditional.Faults
import TemporalNetwork.Proofs.LifeCycle
import TemporalNetwork.Proofs.Network.Cycles
import TemporalNetwork.Proofs.Stnu.Distances
import TemporalNetwork.Proofs.Stnu.ShortestWalks
import TemporalNetwork.Proofs.Conditional.NodeLabels
import TemporalNetwork.Proofs.Conditional.Pairing
import TemporalNetwork.Proofs.Network.ByName
import TemporalNetwork.Proofs.Stnu.NormalTimes
import TemporalNetwork.Proofs.Network.CaseReferences
import TemporalNetwork.Proofs.Network.Queries
import TemporalNetwork.Proofs.Network.Freshness
import TemporalNetwork.Proofs.Conditional.Overflow
import TemporalNetwork.Proofs.Conditional.Termination
import TemporalNetwork.Proofs.Conditional.Windows
import TemporalNetwork.Proofs.Initialisation
import TemporalNetwork.Proofs.Label.Order
import TemporalNetwork.Proofs.Queue.FiniteMap
import TemporalNetwork.Proofs.Label.Text
import TemporalNetwork.Proofs.Stnu.LinkCalls
import TemporalNetwork.Proofs.Stnu.NodeCalls
