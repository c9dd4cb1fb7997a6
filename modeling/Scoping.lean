import Scoping.Source
import Scoping.Fault
import Scoping.Assoc
import Scoping.Symbol.Table
import Scoping.Decimal.Shortest
import Scoping.Decimal.Text
import Scoping.Syntax.Operator
import Scoping.Syntax.Node
import Scoping.Syntax.Program
import Scoping.Syntax.Inspect
import Scoping.Syntax.ReversePolish
import Scoping.Syntax.Draft
import Scoping.Frame.Tree
import Scoping.Frame.Access
import Scoping.Frame.Action
import Scoping.Context.Basic
import Scoping.Context.Action
import Scoping.Report
import Scoping.Value.Basic
import Scoping.Value.Operation
import Scoping.Run.Session
import Scoping.Run.Evaluate
import Scoping.Run.Step
import Scoping.Command.Sample
import Scoping.Command.Line
import Scoping.Main
import Scoping.Proofs.Frame.Path
import Scoping.Proofs.Frame.Reclaim
import Scoping.Proofs.Frame.Reachable
import Scoping.Proofs.Frame.Distance
import Scoping.Proofs.Frame.Store
import Scoping.Proofs.Frame.Survive
import Scoping.Proofs.Frame.Commute
import Scoping.Proofs.Frame.Splice
import Scoping.Proofs.Context.Reachable
import Scoping.Proofs.Context.Archive
import Scoping.Proofs.Context.Handle
import Scoping.Proofs.Context.Stack
import Scoping.Proofs.Context.Bracket
import Scoping.Proofs.Context.Exit
import Scoping.Proofs.Symbol.Table
import Scoping.Proofs.Symbol.History
import Scoping.Proofs.Symbol.Naming
import Scoping.Proofs.Syntax.Reach
import Scoping.Proofs.Syntax.Renamed
import Scoping.Proofs.Syntax.Ungrouped
import Scoping.Proofs.Run.Operands
import Scoping.Proofs.Run.Footprint
import Scoping.Proofs.Run.Outline
import Scoping.Proofs.Run.Join
import Scoping.Proofs.Run.Resolution
import Scoping.Proofs.Run.Safety
import Scoping.Proofs.Run.Cells
import Scoping.Proofs.Run.Guard
import Scoping.Proofs.Run.Culprit
import Scoping.Proofs.Run.Levels
import Scoping.Proofs.Run.Ungrouped
import Scoping.Proofs.Run.Parallel
import Scoping.Proofs.Run.Transparent
import Scoping.Proofs.Run.Agreement
import Scoping.Proofs.Run.Repeat
import Scoping.Proofs.Run.Renamed
import Scoping.Proofs.Run.Twins
import Scoping.Proofs.Decimal.Interval
import Scoping.Proofs.Decimal.Text
import Scoping.Proofs.Syntax.Tree
import Scoping.Proofs.Syntax.Decode
import Scoping.Proofs.Frame.Inert
import Scoping.Proofs.Frame.Descend
import Scoping.Proofs.Syntax.Storage
