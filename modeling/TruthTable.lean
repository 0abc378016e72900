import TruthTable.Association
import TruthTable.Checker
import TruthTable.CommandLine.Failure
import TruthTable.CommandLine.Invocation
import TruthTable.CommandLine.Run
import TruthTable.Connective
import TruthTable.Directory
import TruthTable.FileFault
import TruthTable.Formula
import TruthTable.Formula.Evaluation
import TruthTable.Formula.Reading
import TruthTable.Json.Codec
import TruthTable.Json.Layout
import TruthTable.Json.Token
import TruthTable.Json.Value
import TruthTable.Main
import TruthTable.Model
import TruthTable.NodeError
import TruthTable.Plan
import TruthTable.Proofs.Answers
import TruthTable.Proofs.Bindings
import TruthTable.Proofs.Canonical
import TruthTable.Proofs.Choices
import TruthTable.Proofs.CommandLine
import TruthTable.Proofs.Completion
import TruthTable.Proofs.Conjuncts
import TruthTable.Proofs.Effort
import TruthTable.Proofs.Entailment
import TruthTable.Proofs.Evaluation
import TruthTable.Proofs.Forcing
import TruthTable.Proofs.Gaps
import TruthTable.Proofs.Grammar
import TruthTable.Proofs.JsonText
import TruthTable.Proofs.Layout
import TruthTable.Proofs.LeafCount
import TruthTable.Proofs.Lines
import TruthTable.Proofs.Literals
import TruthTable.Proofs.LoadErrors
import TruthTable.Proofs.Loading
import TruthTable.Proofs.Lookahead
import TruthTable.Proofs.ModelCount
import TruthTable.Proofs.ModelText
import TruthTable.Proofs.Negation
import TruthTable.Proofs.Printing
import TruthTable.Proofs.ReadErrors
import TruthTable.Proofs.ReaderRun
import TruthTable.Proofs.Renaming
import TruthTable.Proofs.Search
import TruthTable.Proofs.Spacing
import TruthTable.Proofs.Stages
import TruthTable.Proofs.Statements
import TruthTable.Proofs.Tokens
import TruthTable.Proofs.TruthValues
import TruthTable.Proofs.Validation
import TruthTable.Proofs.Writing
import TruthTable.Report
import TruthTable.Settings
import TruthTable.Settings.Loading
import TruthTable.Source
import TruthTable.Symbol
import TruthTable.Tree
import TruthTable.Tree.Reader
import TruthTable.Tree.Validation
import TruthTable.Verdict
