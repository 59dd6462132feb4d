import MatrixPlan.Session.Attempt
import MatrixPlan.Proofs.Graph.Reach
import MatrixPlan.Proofs.Graph.Verdict
import MatrixPlan.Proofs.Script.Emission
import MatrixPlan.Proofs.Script.Evaluation
import MatrixPlan.Proofs.Workspace.Ownership
import MatrixPlan.Proofs.Workspace.Tally
import MatrixPlan.Proofs.Workspace.Accounting
import MatrixPlan.Proofs.Workspace.Moves
import MatrixPlan.Proofs.Workspace.Limit
import MatrixPlan.Proofs.Graph.Exactness
import MatrixPlan.Proofs.Script.Correctness
import MatrixPlan.Proofs.Metadata.Extents
import MatrixPlan.Proofs.Workspace.Shapes
import MatrixPlan.Proofs.Workspace.Origins
import MatrixPlan.Proofs.Session.Runs
import MatrixPlan.Proofs.Workspace.Conflicts
import MatrixPlan.Proofs.Session.Engines
import MatrixPlan.Proofs.Session.Protocol
import MatrixPlan.Proofs.Graph.Uncounted
import MatrixPlan.Proofs.Workspace.Uncounted
import MatrixPlan.Proofs.Session.Uncounted
import MatrixPlan.Proofs.Matrix.Product
import MatrixPlan.Proofs.Graph.Mirror
import MatrixPlan.Proofs.Script.Lockstep
import MatrixPlan.Proofs.Script.Structure
import MatrixPlan.Proofs.Graph.Frame
import MatrixPlan.Proofs.Session.Growth
import MatrixPlan.Proofs.Session.Stability
import MatrixPlan.Proofs.Workspace.Budget
import MatrixPlan.Proofs.Session.Budget
import MatrixPlan.Proofs.Text.Cut
import MatrixPlan.Proofs.Number.Intervals
import MatrixPlan.Proofs.Number.Bits
import MatrixPlan.Proofs.Number.Positional
import MatrixPlan.Proofs.Graph.Tokens
import MatrixPlan.Proofs.Script.Spelling
import MatrixPlan.Proofs.Script.Expressions
import MatrixPlan.Proofs.Script.Programs
import MatrixPlan.Proofs.Script.Content
import MatrixPlan.Proofs.Workspace.Teardown
import MatrixPlan.Proofs.Script.Exchange
import MatrixPlan.Proofs.Number.Leading
import MatrixPlan.Proofs.Codec.Values
import MatrixPlan.Proofs.Workspace.Counts
import MatrixPlan.Proofs.Script.Postorder
import MatrixPlan.Proofs.Metadata.Broadcast
import MatrixPlan.Proofs.Metadata.Cellwise
import MatrixPlan.Proofs.Matrix.Numeric
import MatrixPlan.Proofs.Metadata.Formula
import MatrixPlan.Proofs.Matrix.Outer
import MatrixPlan.Proofs.Workspace.Agreement
import MatrixPlan.Proofs.Session.Attempt
import MatrixPlan.Proofs.Graph.Signature
import MatrixPlan.Proofs.Session.Answers
import MatrixPlan.Proofs.Graph.Survey
import MatrixPlan.Proofs.Workspace.Reshape
import MatrixPlan.Proofs.Script.Lines
import MatrixPlan.Proofs.Script.Arguments
import MatrixPlan.Proofs.Graph.Quoting
import MatrixPlan.Proofs.Engine.Replies
import MatrixPlan.Proofs.Metadata.Vectors
import MatrixPlan.Proofs.Matrix.Canonical
import MatrixPlan.Proofs.Codec.Matrices
import MatrixPlan.Proofs.Workspace.History
import MatrixPlan.Proofs.Workspace.Doubling
