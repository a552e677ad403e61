import Reckoner.Main
import Reckoner.Value.Matrix
import Reckoner.Proofs.Grammar
import Reckoner.Proofs.Parse.Step
import Reckoner.Proofs.Parse.Complete
import Reckoner.Proofs.Parse.Sound
import Reckoner.Proofs.Tree.Layout
import Reckoner.Proofs.Tree.Reading
import Reckoner.Proofs.Parse.Derivations
import Reckoner.Proofs.Parse.Errors
import Reckoner.Proofs.Token.Order
import Reckoner.Proofs.Tree.Extent
import Reckoner.Proofs.Evaluation.Meaning
import Reckoner.Proofs.Evaluation.Target
import Reckoner.Proofs.Evaluation.Compositional
import Reckoner.Proofs.Names
import Reckoner.Proofs.Token.Spelling
import Reckoner.Proofs.Notation
import Reckoner.Proofs.Notation.Precedence
import Reckoner.Proofs.Bindings
import Reckoner.Proofs.Evaluation.Exact
import Reckoner.Proofs.Token.Pattern
import Reckoner.Proofs.Token.Munch
import Reckoner.Proofs.Names.Growth
import Reckoner.Proofs.Renaming.Parse
import Reckoner.Proofs.Renaming.Evaluation
import Reckoner.Proofs.Renaming.Line
import Reckoner.Proofs.Session.Lines
import Reckoner.Proofs.Session.Coherent
import Reckoner.Proofs.Session.Sharing
import Reckoner.Proofs.Sides
import Reckoner.Proofs.Evaluation.Supported
import Reckoner.Proofs.Evaluation.Bare
import Reckoner.Proofs.Evaluation.Substitution
import Reckoner.Proofs.Evaluation.Correspondence
import Reckoner.Proofs.Program.Assignments
import Reckoner.Proofs.Program.Usage
import Reckoner.Proofs.Program.Live
import Reckoner.Proofs.Value.Matrix
import Reckoner.Proofs.Program.Elements
import Reckoner.Proofs.Evaluation.Places
import Reckoner.Proofs.Tree.Built
import Reckoner.Proofs.Program.Effect
import Reckoner.Proofs.Program.Commute
import Reckoner.Proofs.Session.Reachable
import Reckoner.Proofs.Diagnostic.Labels
import Reckoner.Proofs.Session.Blame
import Reckoner.Proofs.Token.Slice
import Reckoner.Proofs.Tree.Pieces
import Reckoner.Proofs.Tree.Faithful
import Reckoner.Proofs.Command.Faults
import Reckoner.Proofs.Command.Signals
import Reckoner.Proofs.Session.Skipped
import Reckoner.Proofs.Spacing.Evaluation
import Reckoner.Proofs.Spacing.Parse
import Reckoner.Proofs.Spacing.Line
import Reckoner.Proofs.Spacing.Text
import Reckoner.Proofs.Parse.Descent
import Reckoner.Proofs.Parse.Lockstep
import Reckoner.Proofs.Parse.Inside
import Reckoner.Proofs.Evaluation.Action
import Reckoner.Proofs.Evaluation.Attributes
import Reckoner.Proofs.Text.Lines
import Reckoner.Proofs.Tree.Preorder
import Reckoner.Proofs.Tree.Rows
import Reckoner.Proofs.Tree.Dump
import Reckoner.Proofs.Options.Binding
import Reckoner.Proofs.Value.Rows
import Reckoner.Proofs.Value.Broadcast
import Reckoner.Proofs.Value.Digits
import Reckoner.Proofs.Session.Literals
import Reckoner.Proofs.Diagnostic.Colors
import Reckoner.Proofs.Diagnostic.Underline
import Reckoner.Proofs.Options.Groups
import Reckoner.Proofs.Options.Written
import Reckoner.Proofs.Names.Calls
import Reckoner.Proofs.Names.Store
import Reckoner.Proofs.Tree.Storage
import Reckoner.Proofs.Tree.Steps
import Reckoner.Proofs.Parse.Building
import Reckoner.Proofs.Parse.Threading
import Reckoner.Proofs.Evaluation.Walks
import Reckoner.Proofs.Tree.Arrangement
