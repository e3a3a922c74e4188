import TreeConsole.Text.Token
import TreeConsole.Number.Notation
import TreeConsole.Value.Literal
import TreeConsole.Value.Json
import TreeConsole.Shape.Coercion
import TreeConsole.Tree.Method
import TreeConsole.Focus
import TreeConsole.Text.Uppercase
import TreeConsole.Signature.Declaration
import TreeConsole.Signature.Binding
import TreeConsole.Session
import TreeConsole.Toml.Document
import TreeConsole.Program
import TreeConsole.Main
import TreeConsole.Proofs.Tree.View
import TreeConsole.Proofs.Success
import TreeConsole.Proofs.Tree.Change
import TreeConsole.Proofs.Tree.WellFormed
import TreeConsole.Proofs.Text.Pieces
import TreeConsole.Proofs.Tree.Path
import TreeConsole.Proofs.Focus.Run
import TreeConsole.Proofs.Table
import TreeConsole.Proofs.Signature.Arrangement
import TreeConsole.Proofs.Text.Quoting
import TreeConsole.Proofs.Chain.Scan
import TreeConsole.Proofs.Chain.Spelling
import TreeConsole.Proofs.Catalog
import TreeConsole.Proofs.Session.Effect
import TreeConsole.Proofs.Session.Selection
import TreeConsole.Proofs.Number.Decimal
import TreeConsole.Proofs.Tree.History
import TreeConsole.Proofs.Number.Notation
import TreeConsole.Proofs.Number.Alphabet
import TreeConsole.Proofs.Number.Order
import TreeConsole.Proofs.Shape.Descriptor
import TreeConsole.Proofs.Session.Line
import TreeConsole.Proofs.Session.Command
import TreeConsole.Proofs.Workspace.Run
import TreeConsole.Proofs.Workspace.DeadTarget
import TreeConsole.Proofs.Session.Preferences
import TreeConsole.Proofs.Workspace.Noninterference
import TreeConsole.Proofs.Focus.OpenHost
import TreeConsole.Proofs.Chain.Blank
import TreeConsole.Proofs.Session.CallLine
import TreeConsole.Proofs.Catalog.History
import TreeConsole.Proofs.Catalog.Listing
import TreeConsole.Proofs.Session.Dispatch
import TreeConsole.Proofs.Program.Input
import TreeConsole.Proofs.Program.Modes
import TreeConsole.Proofs.Tree.Naming
import TreeConsole.Proofs.Tree.Subtree
import TreeConsole.Proofs.Signature.Partition
import TreeConsole.Proofs.Signature.Declaration
import TreeConsole.Proofs.Signature.ValueForms
import TreeConsole.Proofs.Signature.Occurrence
import TreeConsole.Proofs.Shape.Conformance
import TreeConsole.Proofs.Signature.Typing
import TreeConsole.Proofs.Text.Grouping
import TreeConsole.Proofs.Tree.Atomicity
import TreeConsole.Proofs.Shape.Range
import TreeConsole.Proofs.Focus.Checked
import TreeConsole.Proofs.Session.Replay
import TreeConsole.Proofs.Focus.Destination
import TreeConsole.Proofs.Tree.Search
import TreeConsole.Proofs.Tree.Composition
import TreeConsole.Proofs.Tree.Renaming
import TreeConsole.Proofs.Tree.Metadata
import TreeConsole.Proofs.Session.Delegation
import TreeConsole.Proofs.Session.Remainder
import TreeConsole.Proofs.Signature.Clause
import TreeConsole.Proofs.Shape.Grammar
import TreeConsole.Proofs.Shape.CommaList
import TreeConsole.Proofs.Chain.Balance
import TreeConsole.Proofs.Chain.Grammar
import TreeConsole.Proofs.Chain.Segments
import TreeConsole.Proofs.Tree.Walks
