import DiffGraph.Epoch
import DiffGraph.FiniteDifference
import DiffGraph.Graph.Lemmas
import DiffGraph.Graph.Replica
import DiffGraph.Matrix.Lemmas
import DiffGraph.Matrix.Near
import DiffGraph.Matrix.Text
import DiffGraph.Program.Compile
import DiffGraph.Program.Exchange
import DiffGraph.Program.Run
import DiffGraph.Projection
import DiffGraph.Proofs.Adjoint
import DiffGraph.Proofs.BlockProducts
import DiffGraph.Proofs.BlockSoftmax
import DiffGraph.Proofs.Branches
import DiffGraph.Proofs.Broadcasting
import DiffGraph.Proofs.Confinement
import DiffGraph.Proofs.Correlation
import DiffGraph.Proofs.Dropout
import DiffGraph.Proofs.Emission
import DiffGraph.Proofs.Extents
import DiffGraph.Proofs.Handout
import DiffGraph.Proofs.LaneGraphs
import DiffGraph.Proofs.Memo
import DiffGraph.Proofs.MiniBatch
import DiffGraph.Proofs.Nearness
import DiffGraph.Proofs.Normalization
import DiffGraph.Proofs.Outcomes
import DiffGraph.Proofs.Products
import DiffGraph.Proofs.Rebinding
import DiffGraph.Proofs.Refinement
import DiffGraph.Proofs.Refresh
import DiffGraph.Proofs.ReplicaShapes
import DiffGraph.Proofs.Replicas
import DiffGraph.Proofs.Restoration
import DiffGraph.Proofs.Resumption
import DiffGraph.Proofs.RoundTrip
import DiffGraph.Proofs.SignedZeros
import DiffGraph.Proofs.Slopes
import DiffGraph.Proofs.Softmax
import DiffGraph.Proofs.Training
import DiffGraph.Proofs.Verdicts
import DiffGraph.Proofs.Windows
import DiffGraph.Proofs.Workers
import DiffGraph.Proofs.Worklist
import DiffGraph.Sgd
