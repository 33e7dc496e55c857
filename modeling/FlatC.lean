import FlatC.Span
import FlatC.Position
import FlatC.Diagnostic.Code
import FlatC.Diagnostic.Report
import FlatC.Token
import FlatC.Token.Lexer
import FlatC.Tree.Operator
import FlatC.Tree.Basic
import FlatC.Tree.Printer
import FlatC.Parser.Cursor
import FlatC.Parser.Expression
import FlatC.Parser.Statement
import FlatC.Parser.Program
import FlatC.Ty
import FlatC.Scope
import FlatC.Symbol
import FlatC.Defect
import FlatC.Binding
import FlatC.Typing.Checked
import FlatC.Typing.Fault
import FlatC.Typing.Operator
import FlatC.Typing.Program
import FlatC.Layout
import FlatC.Assembly.Instr
import FlatC.Assembly.Line
import FlatC.Assembly.Label
import FlatC.Code.Basic
import FlatC.Code.Expression
import FlatC.Code.Statement
import FlatC.Code.Program
import FlatC.Session
import FlatC.Command.Path
import FlatC.Command.Arguments
import FlatC.Command.FileTree
import FlatC.Command.Run
import FlatC.Main
import FlatC.Proofs.Yields
import FlatC.Proofs.Syntax.Grammar
import FlatC.Proofs.Syntax.Steps
import FlatC.Proofs.Syntax.Sound
import FlatC.Proofs.Syntax.Shape
import FlatC.Proofs.Syntax.Complete
import FlatC.Proofs.Syntax.Reprint
import FlatC.Proofs.Syntax.Lexing
import FlatC.Proofs.Syntax.Lines
import FlatC.Proofs.Syntax.Patterns
import FlatC.Proofs.Syntax.RoundTrip
import FlatC.Proofs.Syntax.Numbering
import FlatC.Proofs.Syntax.Occurrences
import FlatC.Proofs.Binding.Notes
import FlatC.Proofs.Binding.Bound
import FlatC.Proofs.Binding.Spec
import FlatC.Proofs.Binding.Resolved
import FlatC.Proofs.Typing.Records
import FlatC.Proofs.Layout.Moves
import FlatC.Proofs.Layout.Tiling
import FlatC.Proofs.Code.Total
import FlatC.Proofs.Compile
import FlatC.Proofs.Layout.Slots
import FlatC.Proofs.Layout.Disjoint
import FlatC.Proofs.Machine.Basic
import FlatC.Proofs.Machine.Data
import FlatC.Proofs.Machine.Run
import FlatC.Proofs.Meaning.Execution
import FlatC.Proofs.Simulation.Expression
import FlatC.Proofs.Simulation.Function
import FlatC.Proofs.Simulation.Program
import FlatC.Proofs.Code.Labels
import FlatC.Proofs.Scoping.Surroundings
import FlatC.Proofs.Scoping.Exact
import FlatC.Proofs.Scoping.Links
import FlatC.Proofs.Scoping.Table
import FlatC.Proofs.Typing.Decides
import FlatC.Proofs.Typing.Annotated
import FlatC.Proofs.Typing.Contexts
import FlatC.Proofs.Typing.Printed
import FlatC.Proofs.Spans.Outline
import FlatC.Proofs.Binding.Steps
import FlatC.Proofs.Syntax.Productions
import FlatC.Proofs.Typing.Movement
import FlatC.Proofs.Typing.Reports
import FlatC.Proofs.Spans.Nesting
import FlatC.Proofs.Spans.Parser
import FlatC.Proofs.Spans.Tokens
import FlatC.Proofs.Session.Blame
import FlatC.Proofs.Session.Gates
import FlatC.Layout.Words
import FlatC.Proofs.Layout.Words
import FlatC.Proofs.Spans.Binding
import FlatC.Proofs.Spans.Stages
import FlatC.Proofs.Session.Reprinted
import FlatC.Proofs.Code.Remarks
import FlatC.Proofs.Code.Anchors
import FlatC.Proofs.Code.Closed
import FlatC.Proofs.Code.Parts
import FlatC.Proofs.Code.Depth
import FlatC.Proofs.Wordwise.Evaluation
import FlatC.Proofs.Wordwise.Run
import FlatC.Proofs.Wordwise.Expression
import FlatC.Proofs.Wordwise.Function
import FlatC.Proofs.Follows
import FlatC.Proofs.Renaming.Tree
import FlatC.Proofs.Renaming.Stages
import FlatC.Proofs.Renaming.Binding
import FlatC.Proofs.Renaming.Program
import FlatC.Proofs.Appending.Reading
import FlatC.Proofs.Appending.Program
import FlatC.Proofs.Layout.Flattening
import FlatC.Proofs.Layout.Frames
import FlatC.Proofs.Calling.Stores
import FlatC.Proofs.Calling.Frame
import FlatC.Proofs.Calling.Activation
import FlatC.Proofs.Calling.Convention
import FlatC.Proofs.Conditions.Behind
import FlatC.Proofs.Conditions.Value
import FlatC.Proofs.Conditions.Branch
import FlatC.Proofs.Conditions.Connectives
import FlatC.Proofs.Spans.Position
import FlatC.Proofs.Spans.Diagnostics
import FlatC.Proofs.Meaning.Literals
import FlatC.Proofs.Ensures
import FlatC.Proofs.Binding.Arena
import FlatC.Proofs.Layout.Order
import FlatC.Proofs.Syntax.Parts
import FlatC.Proofs.Syntax.Progress
import FlatC.Proofs.Syntax.Operations
import FlatC.Proofs.Code.Stems
import FlatC.Proofs.Session.Labels
