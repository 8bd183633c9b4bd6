import MessagePassing.Graph.Build
import MessagePassing.Rule.Conjugate
import MessagePassing.Rule.Mixing
import MessagePassing.Session.Algorithm
import MessagePassing.View
import MessagePassing.Proofs.Schedule.Forest
import MessagePassing.Proofs.Run.Assignment
import MessagePassing.Proofs.Traversal.DepthFirst
import MessagePassing.Proofs.Traversal.Labelling
import MessagePassing.Proofs.Types.Preservation
import MessagePassing.Proofs.Graph.Construction
import MessagePassing.Proofs.Run.Commutation
import MessagePassing.Proofs.Run.Recomputation
import MessagePassing.Proofs.Assembly.Registration
import MessagePassing.Proofs.Assembly.Assumptions
import MessagePassing.Proofs.Assembly.Constraints
import MessagePassing.Proofs.Run.Initialization
import MessagePassing.Proofs.Run.Restart
import MessagePassing.Proofs.Assembly.Declarations
import MessagePassing.Proofs.Types.Marginals
import MessagePassing.Proofs.Assembly.Overlap
import MessagePassing.Proofs.Assembly.Overwriting
import MessagePassing.Proofs.Run.Seeding
import MessagePassing.Proofs.Types.Narrowing
import MessagePassing.Proofs.Graph.LeastClosure
import MessagePassing.Proofs.Types.RegistrationOrder
import MessagePassing.Proofs.Types.Swapping
import MessagePassing.Proofs.Types.Splitting
import MessagePassing.Proofs.Assembly.Shape
import MessagePassing.Proofs.Assembly.Entrances
import MessagePassing.Proofs.Graph.Collider
import MessagePassing.Proofs.Graph.Partition
import MessagePassing.Proofs.Graph.Growth
import MessagePassing.Proofs.Assembly.Tabulation
import MessagePassing.Proofs.Assembly.Designation
import MessagePassing.Proofs.Run.FlatSeeds
import MessagePassing.Proofs.Assembly.Retry
import MessagePassing.Proofs.Assembly.GroundRecords
import MessagePassing.Proofs.Assembly.MeanField
import MessagePassing.Proofs.Assembly.LocalFactorization
import MessagePassing.Proofs.Assembly.Succession
import MessagePassing.Proofs.Assembly.Drawing
import MessagePassing.Proofs.Graph.Naming
import MessagePassing.Proofs.Identifiers
import MessagePassing.Proofs.Run.FlatValues
import MessagePassing.Proofs.Types.Acceptance
