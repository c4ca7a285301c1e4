import CircuitCode.Number.Basic
import CircuitCode.Number.Rounding
import CircuitCode.Number.Reading
import CircuitCode.Number.Digits
import CircuitCode.Number.Text
import CircuitCode.Number.Bits
import CircuitCode.Number.MachineReal
import CircuitCode.Complex.Arithmetic
import CircuitCode.Complex.Machine
import CircuitCode.Expr.Basic
import CircuitCode.Expr.Evaluation
import CircuitCode.Expr.Text
import CircuitCode.SymbolTable
import CircuitCode.Text.Blank
import CircuitCode.Element.Kind
import CircuitCode.Element.Basic
import CircuitCode.Element.Text
import CircuitCode.Element.Formula
import CircuitCode.Connection.Basic
import CircuitCode.Connection.Query
import CircuitCode.Connection.Evaluation
import CircuitCode.Circuit.Basic
import CircuitCode.Circuit.Text
import CircuitCode.Circuit.Impedance
import CircuitCode.Token.Basic
import CircuitCode.Token.Lexeme
import CircuitCode.Token.Scan
import CircuitCode.Parsing.Error
import CircuitCode.Parsing.Block
import CircuitCode.Parsing.Item
import CircuitCode.Parsing.Circuit
import CircuitCode.Builder.Basic
import CircuitCode.Error
import CircuitCode.Builder.Script
import CircuitCode.CommandLine.Request
import CircuitCode.CommandLine.Report
import CircuitCode.Main
import CircuitCode.Proofs.Element.State
import CircuitCode.Proofs.Parsing.Grammar
import CircuitCode.Proofs.Parsing.Reader
import CircuitCode.Proofs.Token.Label
import CircuitCode.Proofs.Parsing.Element
import CircuitCode.Proofs.Parsing.Machine
import CircuitCode.Proofs.Parsing.Exactness
import CircuitCode.Proofs.Complex.Exact
import CircuitCode.Proofs.Expr.Value
import CircuitCode.Proofs.Element.Agreement
import CircuitCode.Proofs.Connection.Tree
import CircuitCode.Proofs.Connection.Splicing
import CircuitCode.Proofs.Circuit.Agreement
import CircuitCode.Proofs.Complex.Standard
import CircuitCode.Proofs.Number.Machine
import CircuitCode.Proofs.Element.Congruence
import CircuitCode.Proofs.SymbolTable
import CircuitCode.Proofs.Expr.Symbols
import CircuitCode.Proofs.Connection.Expression
import CircuitCode.Proofs.Circuit.Parsed
import CircuitCode.Proofs.Circuit.Short
import CircuitCode.Proofs.Circuit.Printed
import CircuitCode.Proofs.Circuit.RoundTrip
import CircuitCode.Proofs.Builder.Nodes
import CircuitCode.Proofs.Connection.Leaves
import CircuitCode.Proofs.Element.Change
import CircuitCode.Proofs.Circuit.Built
import CircuitCode.Proofs.Circuit.Identifiers
import CircuitCode.Proofs.Element.Equality
import CircuitCode.Proofs.Circuit.Numbering
import CircuitCode.Proofs.Element.Survival
import CircuitCode.Proofs.Circuit.Decoding
import CircuitCode.Proofs.Circuit.Bare
import CircuitCode.Proofs.Token.Position
import CircuitCode.Proofs.Parsing.Marks
import CircuitCode.Proofs.Builder.Simulation
import CircuitCode.Proofs.Builder.Agreement
import CircuitCode.Proofs.Builder.Level
import CircuitCode.Proofs.Builder.Scoping
import CircuitCode.Proofs.Builder.Operation
import CircuitCode.Proofs.Builder.Conservation
import CircuitCode.Proofs.Element.Refusal
import CircuitCode.Proofs.Expr.Substitution
import CircuitCode.Proofs.Element.Symbols
import CircuitCode.Proofs.Circuit.Symbols
import CircuitCode.Proofs.Circuit.Substitution
import CircuitCode.Proofs.Element.Label
import CircuitCode.Proofs.Circuit.Labels
import CircuitCode.Proofs.Token.Lossless
import CircuitCode.Proofs.Token.Lookahead
import CircuitCode.Proofs.Parsing.Places
import CircuitCode.Proofs.Circuit.Spacing
import CircuitCode.Proofs.Connection.Flattening
import CircuitCode.Proofs.Parsing.Unambiguous
import CircuitCode.Proofs.Token.Cut
import CircuitCode.Proofs.Parsing.Closed
import CircuitCode.Proofs.Parsing.Run
import CircuitCode.Proofs.Circuit.Composition
import CircuitCode.Proofs.Parsing.Definition
import CircuitCode.Proofs.Parsing.Diagnostics
import CircuitCode.Proofs.Circuit.Diagnostics
import CircuitCode.Proofs.Token.Truncation
import CircuitCode.Proofs.Parsing.Truncation
import CircuitCode.Proofs.Circuit.Truncation
import CircuitCode.Proofs.Circuit.Limits
import CircuitCode.Proofs.Number.Syntax
import CircuitCode.Proofs.Token.Numeral
import CircuitCode.Proofs.Parsing.Assignment
import CircuitCode.Proofs.Circuit.Production
import CircuitCode.Proofs.Expr.Bindings
import CircuitCode.Proofs.Circuit.Violation
import CircuitCode.Proofs.Number.Shortest
import CircuitCode.Proofs.Expr.Notation
import CircuitCode.Proofs.Expr.Unambiguous
import CircuitCode.Proofs.Connection.Paths
import CircuitCode.Proofs.Circuit.Lookup
import CircuitCode.Proofs.Connection.Editing
import CircuitCode.Proofs.Circuit.Editing
import CircuitCode.Proofs.Element.Stepwise
import CircuitCode.Proofs.Token.Boundary
import CircuitCode.Proofs.Parsing.Blocks
import CircuitCode.Proofs.Circuit.Permutation
import CircuitCode.Proofs.Complex.Hyperbolic
import CircuitCode.Proofs.Circuit.Equivalent
