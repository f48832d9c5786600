import CostBound.Query.Script
import CostBound.Reading.Program
import CostBound.Validation
import CostBound.Report
import CostBound.Toml.Document
import CostBound.Manifest
import CostBound.CommandLine.Arguments
import CostBound.CommandLine.Run
import CostBound.Main
import CostBound.Proofs.Evaluation
import CostBound.Proofs.Names
import CostBound.Proofs.Substitution
import CostBound.Proofs.Cost
import CostBound.Proofs.Query
import CostBound.Proofs.Validity
import CostBound.Proofs.Renaming
import CostBound.Proofs.Runs
import CostBound.Proofs.Grammar
import CostBound.Proofs.Readers
import CostBound.Proofs.ReadingExpr
import CostBound.Proofs.ReadingProgram
import CostBound.Proofs.ReadingSpelled
import CostBound.Proofs.Lexing
import CostBound.Proofs.Layout
import CostBound.Proofs.Printing
import CostBound.Proofs.RoundTrip
import CostBound.Proofs.Canonical
import CostBound.Proofs.Choice
import CostBound.Proofs.Scaling
import CostBound.Proofs.Inference
import CostBound.Proofs.Script
import CostBound.Proofs.Outcome
import CostBound.Proofs.NormalForm
import CostBound.Proofs.Lexemes
import CostBound.Proofs.Scanning
import CostBound.Proofs.Nesting
import CostBound.Proofs.Spans
import CostBound.Proofs.Lockstep
import CostBound.Proofs.LockstepProgram
import CostBound.Proofs.Balanced
import CostBound.Proofs.Diagnostics
import CostBound.Proofs.Locality
import CostBound.Proofs.Charge
import CostBound.Proofs.Unplaced
import CostBound.Proofs.Reindentation
import CostBound.Proofs.CodeTail
import CostBound.Proofs.Comments
import CostBound.Proofs.Derivation
import CostBound.Proofs.Readability
import CostBound.Proofs.Padding
import CostBound.Proofs.ScriptNames
import CostBound.Proofs.FewestBrackets
import CostBound.Proofs.BoundTexts
import CostBound.Proofs.ScaledQuery
import CostBound.Proofs.Literals
import CostBound.Proofs.JsonReading
import CostBound.Proofs.ReportReading
import CostBound.Proofs.Discovery
import CostBound.Proofs.FreshNames
