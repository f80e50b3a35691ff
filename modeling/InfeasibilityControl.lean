import InfeasibilityControl.Model.Benchmark
import InfeasibilityControl.Report.Summary
import InfeasibilityControl.Snapshot
import InfeasibilityControl.Decimal.Reader
import InfeasibilityControl.Proofs.Counted
import InfeasibilityControl.Proofs.Spending
import InfeasibilityControl.Proofs.Evaluation
import InfeasibilityControl.Proofs.Iterate
import InfeasibilityControl.Proofs.NormalStep
import InfeasibilityControl.Proofs.TangentStep
import InfeasibilityControl.Proofs.Run.Stages
import InfeasibilityControl.Proofs.Run.Course
import InfeasibilityControl.Proofs.Run.Verdict
import InfeasibilityControl.Proofs.Order.Float
import InfeasibilityControl.Proofs.Run.Control
import InfeasibilityControl.Proofs.Run.Exactness
import InfeasibilityControl.Proofs.Run.Expense
import InfeasibilityControl.Proofs.Run.History
import InfeasibilityControl.Proofs.Run.Infeasibility
import InfeasibilityControl.Proofs.Run.Radius
import InfeasibilityControl.Proofs.Order.FloatSign
import InfeasibilityControl.Proofs.Run.Rest
import InfeasibilityControl.Proofs.Run.Standstill
import InfeasibilityControl.Proofs.Order.Exact
import InfeasibilityControl.Proofs.Run.Endless
import InfeasibilityControl.Proofs.Outcome
import InfeasibilityControl.Proofs.Writing
import InfeasibilityControl.Proofs.Completion
import InfeasibilityControl.Proofs.Exact.Dogleg
import InfeasibilityControl.Proofs.Exact.NormalStep
import InfeasibilityControl.Proofs.Kkt.Matrix
import InfeasibilityControl.Proofs.Kkt.TangentStep
import InfeasibilityControl.Proofs.Run.Account
import InfeasibilityControl.Proofs.Run.Allowance
import InfeasibilityControl.Proofs.Run.Completion
import InfeasibilityControl.Proofs.Exact.Euclidean
import InfeasibilityControl.Proofs.Exact.LinearModel
import InfeasibilityControl.Proofs.Exact.DoglegPath
import InfeasibilityControl.Proofs.Trial
import InfeasibilityControl.Proofs.Restoration
import InfeasibilityControl.Proofs.Exact.ModelDecrease
import InfeasibilityControl.Proofs.Exact.AffineStep
import InfeasibilityControl.Proofs.Exact.SingleEquation
import InfeasibilityControl.Proofs.Exact.PredictedReduction
import InfeasibilityControl.Proofs.LineSearch
import InfeasibilityControl.Proofs.FirstAcceptable
import InfeasibilityControl.Proofs.Exact.Elimination
import InfeasibilityControl.Proofs.Kkt.Solve
import InfeasibilityControl.Proofs.Kkt.Curvature
import InfeasibilityControl.Proofs.Exact.NullSpace
import InfeasibilityControl.Proofs.Exact.SingleUnknown
import InfeasibilityControl.Proofs.Kkt.Descent
import InfeasibilityControl.Proofs.Exact.QuadraticProblem
import InfeasibilityControl.Proofs.Kkt.FullStep
import InfeasibilityControl.Proofs.Run.Solves
import InfeasibilityControl.Proofs.Exact.RowSpace
import InfeasibilityControl.Proofs.Exact.Rejection
import InfeasibilityControl.Proofs.Exact.Bidiagonalization
import InfeasibilityControl.Proofs.Exact.Recurrence
import InfeasibilityControl.Proofs.Exact.Convergence
import InfeasibilityControl.Proofs.Exact.ShortestSolution
import InfeasibilityControl.Proofs.Exact.Termination
import InfeasibilityControl.Proofs.DensePattern
import InfeasibilityControl.Proofs.Kkt.Assembly
import InfeasibilityControl.Proofs.Exact.Plane
import InfeasibilityControl.Proofs.Exact.Derivatives
import InfeasibilityControl.Proofs.Exact.Optimality
import InfeasibilityControl.Proofs.Exact.Stationarity
import InfeasibilityControl.Proofs.Album
