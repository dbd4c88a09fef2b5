import SymCalc.Models
import SymCalc.Newton.Method
import SymCalc.GoalSeek.Level
import SymCalc.Proofs.Number.Exact
import SymCalc.Proofs.Number.Zero
import SymCalc.Proofs.Expr.Value
import SymCalc.Proofs.Expr.FreeVars
import SymCalc.Proofs.Expr.ExactRun
import SymCalc.Proofs.Expr.RealValue
import SymCalc.Proofs.Expr.Slope
import SymCalc.Proofs.Expr.Folded
import SymCalc.Proofs.Expr.Normal
import SymCalc.Proofs.Expr.Substitute
import SymCalc.Proofs.Expr.Staged
import SymCalc.Proofs.Expr.FieldValue
import SymCalc.Proofs.Expr.FormalDerivative
import SymCalc.Proofs.GoalSeek.Curried
import SymCalc.Proofs.Newton.Course
import SymCalc.Proofs.Newton.Outcome
import SymCalc.Proofs.Newton.Goal
import SymCalc.Proofs.Expr.Derives
import SymCalc.Proofs.GoalSeek.Posed
import SymCalc.Proofs.GoalSeek.Staged
import SymCalc.Proofs.Expr.LostPoints
import SymCalc.Proofs.Binary.Order
import SymCalc.Proofs.Binary.Rounding
import SymCalc.Proofs.Expr.MissingValue
import SymCalc.Proofs.Newton.MissingValue
import SymCalc.Proofs.Expr.Closed
import SymCalc.Proofs.Expr.Exactness
import SymCalc.Proofs.GoalSeek.Locality
import SymCalc.Proofs.Newton.Limits
import SymCalc.Proofs.Newton.Draws
import SymCalc.Proofs.Expr.Polynomial
import SymCalc.Proofs.Expr.WellFormed
import SymCalc.Proofs.Number.Arith
import SymCalc.Proofs.Number.NegativePower
import SymCalc.Proofs.Expr.Horner
import SymCalc.Proofs.Expr.Dependence
import SymCalc.Proofs.Expr.Rebuilt
import SymCalc.Proofs.Number.Rounding
import SymCalc.Proofs.Expr.ReadBack
import SymCalc.Proofs.Binary.Double
import SymCalc.Proofs.Expr.Recursion
import SymCalc.Proofs.Number.Machine
