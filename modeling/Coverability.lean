import Coverability.Backward.Analysis
import Coverability.Serial.Config
import Coverability.Serial.System
import Coverability.Trace.Archive
import Coverability.Hypergraph.Merge
import Coverability.Table.Lemmas
import Coverability.Proofs.Fixpoint
import Coverability.Proofs.Reduction
import Coverability.Proofs.Complement
import Coverability.Proofs.Coverable
import Coverability.Proofs.Embedding
import Coverability.Proofs.Enumeration
import Coverability.Proofs.Predecessors
import Coverability.Proofs.Comparison
import Coverability.Proofs.BackwardStep
import Coverability.Proofs.Insertions
import Coverability.Proofs.Isomorphism
import Coverability.Proofs.PathSearch
import Coverability.Proofs.Orders
import Coverability.Proofs.Exactness
import Coverability.Proofs.Consistency
import Coverability.Proofs.Merging
import Coverability.Proofs.Calls
import Coverability.Proofs.EarlyStop
import Coverability.Proofs.Transcript
import Coverability.Proofs.Replay
import Coverability.Proofs.Repetition
import Coverability.Proofs.RigidMatches
import Coverability.Proofs.Remnant
import Coverability.Proofs.Replies
import Coverability.Proofs.Layers
import Coverability.Proofs.Unfolding
import Coverability.Proofs.Restriction
import Coverability.Proofs.Choosing
import Coverability.Proofs.InstanceBound
import Coverability.Proofs.Preparation
import Coverability.Proofs.Quotient
import Coverability.Proofs.Neutrality
import Coverability.Proofs.Deletion
import Coverability.Proofs.Encoding
import Coverability.Proofs.Gluing
import Coverability.Proofs.Domains
import Coverability.Proofs.Exhaustion
