import QubitBasic.Command.Arguments
import QubitBasic.Command.Demo
import QubitBasic.Command.Report
import QubitBasic.Command.Session
import QubitBasic.Condition
import QubitBasic.Config.Basic
import QubitBasic.Config.Json
import QubitBasic.Decimal.Basic
import QubitBasic.Decimal.Binary64
import QubitBasic.Decimal.Layout
import QubitBasic.Decimal.Shortest
import QubitBasic.Evaluate
import QubitBasic.Expr.Basic
import QubitBasic.Expr.Parser
import QubitBasic.Expr.Token
import QubitBasic.Json.Basic
import QubitBasic.Json.Reader
import QubitBasic.Json.Token
import QubitBasic.Listing
import QubitBasic.Machine
import QubitBasic.Main
import QubitBasic.Quantum.Amplitude
import QubitBasic.Quantum.Circuit
import QubitBasic.Quantum.Engine
import QubitBasic.Quantum.Gates
import QubitBasic.Quantum.Register
import QubitBasic.Quantum.Samples
import QubitBasic.Run
import QubitBasic.RunError
import QubitBasic.Statement.Basic
import QubitBasic.Statement.Parser
import QubitBasic.Text.Blank
import QubitBasic.Text.Digits
import QubitBasic.Text.Split
import QubitBasic.Value
import QubitBasic.Variables
import QubitBasic.Proofs.Computation
import QubitBasic.Proofs.Engine.History
import QubitBasic.Proofs.Engine.Replay
import QubitBasic.Proofs.Expr.Grammar
import QubitBasic.Proofs.Machine.Frame
import QubitBasic.Proofs.Run.Budget
import QubitBasic.Proofs.Text.Quotes
import QubitBasic.Proofs.Statement.Then
import QubitBasic.Proofs.Statement.Display
import QubitBasic.Proofs.Machine.Atomic
import QubitBasic.Proofs.Run.Failure
import QubitBasic.Proofs.Machine.Twins
import QubitBasic.Proofs.Run.Tightening
import QubitBasic.Proofs.Decimal.WholeNumber
import QubitBasic.Proofs.Listing.Search
import QubitBasic.Proofs.Machine.Names
import QubitBasic.Proofs.Register.Normalization
import QubitBasic.Proofs.Run.Goto
import QubitBasic.Proofs.Register.Sweep
import QubitBasic.Proofs.Engine.Classical
import QubitBasic.Proofs.Engine.WellFormed
import QubitBasic.Proofs.Listing.Order
import QubitBasic.Proofs.Listing.Reading
import QubitBasic.Proofs.Machine.Simulation
import QubitBasic.Proofs.Listing.Insertion
import QubitBasic.Proofs.Run.Remark
import QubitBasic.Proofs.Machine.Calls
import QubitBasic.Proofs.Run.Executed
import QubitBasic.Proofs.Run.Calls
import QubitBasic.Proofs.Run.Draws
import QubitBasic.Proofs.Run.Account
import QubitBasic.Proofs.Statement.Characters
import QubitBasic.Proofs.Run.SingleLines
import QubitBasic.Proofs.Command.Files
import QubitBasic.Proofs.Command.Rows
import QubitBasic.Proofs.Register.Pointwise
import QubitBasic.Proofs.Register.Permutation
import QubitBasic.Proofs.Register.Product
import QubitBasic.Proofs.Json.Lexeme
import QubitBasic.Proofs.Json.Grammar
import QubitBasic.Proofs.Config.RoundTrip
import QubitBasic.Proofs.Register.Repetition
import QubitBasic.Proofs.Expr.Viable
import QubitBasic.Proofs.Expr.Literal
import QubitBasic.Proofs.Expr.Occurrence
import QubitBasic.Proofs.Text.Bytes
import QubitBasic.Proofs.Condition.Split
import QubitBasic.Proofs.Value.Order
import QubitBasic.Proofs.Condition.Laws
import QubitBasic.Proofs.Decimal.Sign
import QubitBasic.Proofs.Decimal.Written
import QubitBasic.Proofs.Decimal.ReadBack
import QubitBasic.Proofs.Value.Display
import QubitBasic.Proofs.Text.Word
import QubitBasic.Proofs.Command.Segments
import QubitBasic.Proofs.Command.Reading
import QubitBasic.Proofs.Expr.Separation
import QubitBasic.Proofs.Statement.FirstThen
