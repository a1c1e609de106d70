import ConvexContact.Text.Blank
import ConvexContact.Text.DecimalDigit
import ConvexContact.Text.Hidden
import ConvexContact.Numeric.Dual
import ConvexContact.Numeric.Number
import ConvexContact.Decimal.Layout
import ConvexContact.Decimal.Numeral
import ConvexContact.Index.Offsets
import ConvexContact.Index.Signed
import ConvexContact.Linear.Shape
import ConvexContact.Linear.Tensor
import ConvexContact.Linear.Vec
import ConvexContact.Error
import ConvexContact.Error.Message
import ConvexContact.Linear.Checked
import ConvexContact.Linear.Mat
import ConvexContact.Linear.Cholesky
import ConvexContact.Linear.Gram
import ConvexContact.Index.PartialPermutation
import ConvexContact.Linear.BlockGrid
import ConvexContact.Coupling.CliquePair
import ConvexContact.Coupling.ClusterGraph
import ConvexContact.Constraint.TensorProjection
import ConvexContact.Constraint.Basic
import ConvexContact.Constraint.Spring
import ConvexContact.Model.Stack
import ConvexContact.Model.Basic
import ConvexContact.Memo.Cell
import ConvexContact.Memo.Quantity
import ConvexContact.Memo.State
import ConvexContact.Model.Evaluation
import ConvexContact.Model.Summary
import ConvexContact.Model.Dual
import ConvexContact.Json.Reader
import ConvexContact.Json.Writer
import ConvexContact.Json.Literal
import ConvexContact.System.SpringMass
import ConvexContact.System.LineSearch
import ConvexContact.System.Run
import ConvexContact.Config.Settings
import ConvexContact.Main
import ConvexContact.Proofs.Evaluation.Memory
import ConvexContact.Proofs.Outcome
import ConvexContact.Proofs.Evaluation.Quantities
import ConvexContact.Proofs.Evaluation.Session
import ConvexContact.Proofs.Arithmetic.Exact
import ConvexContact.Proofs.Arithmetic.MachineOrder
import ConvexContact.Proofs.Arithmetic.Reading
import ConvexContact.Proofs.Index.Blocks
import ConvexContact.Proofs.Linear.Coordinates
import ConvexContact.Proofs.Linear.BlockGrid
import ConvexContact.Proofs.Coupling.ClusterGraph
import ConvexContact.Proofs.Index.PartialPermutation
import ConvexContact.Proofs.Problem
import ConvexContact.Proofs.Model.Formulas
import ConvexContact.Proofs.Model.Reduction
import ConvexContact.Proofs.Model.Assembly
import ConvexContact.Proofs.Model.Delassus
import ConvexContact.Proofs.Model.Refinement
import ConvexContact.Proofs.Constraint.Selection
import ConvexContact.Proofs.Model.Duals
import ConvexContact.Proofs.Model.Derivative
import ConvexContact.Proofs.Constraint.Differentiation
import ConvexContact.Proofs.Constraint.VectorProjection
import ConvexContact.Proofs.Evaluation.Hessian
import ConvexContact.Proofs.Model.Blocks
import ConvexContact.Proofs.Model.SecondDerivative
import ConvexContact.Proofs.Linear.GridEntries
import ConvexContact.Proofs.Model.DenseHessian
import ConvexContact.Proofs.Linear.Definiteness
import ConvexContact.Proofs.Model.Definiteness
import ConvexContact.Proofs.Model.Convexity
import ConvexContact.Proofs.Model.Curvature
import ConvexContact.Proofs.Model.QuadraticPieces
import ConvexContact.Proofs.Model.Monotonicity
import ConvexContact.Proofs.Coupling.Arrangement
import ConvexContact.Proofs.Index.Distinct
import ConvexContact.Proofs.Index.Vector
import ConvexContact.Proofs.Index.Acceptance
import ConvexContact.Proofs.Index.Pushes
import ConvexContact.Proofs.Index.Gathering
import ConvexContact.Proofs.Index.Slabs
import ConvexContact.Proofs.Index.BlockNumbering
import ConvexContact.Proofs.Model.Construction
import ConvexContact.Proofs.Model.IndexMaps
import ConvexContact.Proofs.Model.Stacking
import ConvexContact.Proofs.Evaluation.Transcript
import ConvexContact.Proofs.Evaluation.Order
import ConvexContact.Proofs.Evaluation.Bookkeeping
import ConvexContact.Proofs.Evaluation.Failure
import ConvexContact.Proofs.Model.Bystanders
import ConvexContact.Proofs.Coupling.History
import ConvexContact.Proofs.Linear.GridOrder
import ConvexContact.Proofs.Model.NamingOrder
import ConvexContact.Proofs.Arithmetic.Morphism
import ConvexContact.Proofs.Linear.Morphism
import ConvexContact.Proofs.Model.Morphism
import ConvexContact.Proofs.Evaluation.Tangents
import ConvexContact.Proofs.Evaluation.Locality
import ConvexContact.Proofs.Evaluation.Sharing
import ConvexContact.Proofs.Additions
import ConvexContact.Proofs.Coupling.Renumbering
import ConvexContact.Proofs.Coupling.StoredGraph
import ConvexContact.Proofs.Coupling.Unordered
import ConvexContact.Proofs.Coupling.Commutation
import ConvexContact.Proofs.Linear.Solving
import ConvexContact.Proofs.Model.Estimates
import ConvexContact.Proofs.Linear.GridHistory
import ConvexContact.Proofs.Linear.GridProducts
import ConvexContact.Proofs.Model.Complementarity
import ConvexContact.Proofs.System.Acceptance
import ConvexContact.Proofs.System.ImplicitStep
import ConvexContact.Proofs.System.LineSearch
import ConvexContact.Proofs.Model.Divisions
import ConvexContact.Proofs.Coupling.Growth
import ConvexContact.Proofs.Report.PlainData
import ConvexContact.Proofs.Linear.Coercivity
import ConvexContact.Proofs.Model.GeneratedMatrices
import ConvexContact.Proofs.Model.GivenJacobians
