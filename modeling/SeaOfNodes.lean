import SeaOfNodes.Graph.Cursor
import SeaOfNodes.Graph.Render
import SeaOfNodes.Graph.Selection
import SeaOfNodes.Proofs.Bytecode.WellFormed
import SeaOfNodes.Proofs.Flow.Dispatch
import SeaOfNodes.Proofs.Flow.Liveness
import SeaOfNodes.Proofs.Frame.Locals
import SeaOfNodes.Proofs.Graph.Copy
import SeaOfNodes.Proofs.Graph.Duplication
import SeaOfNodes.Proofs.Graph.Identity
import SeaOfNodes.Proofs.Graph.Sharing
import SeaOfNodes.Proofs.Lift.Exits
import SeaOfNodes.Proofs.Lift.Handlers
import SeaOfNodes.Proofs.Lift.Result
import SeaOfNodes.Proofs.Lift.StraightLine
import SeaOfNodes.Proofs.Node.Positions
