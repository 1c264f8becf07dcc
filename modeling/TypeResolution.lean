import TypeResolution.Assignability.Check
import TypeResolution.Assignability.Failure
import TypeResolution.Diagnostic
import TypeResolution.Environment
import TypeResolution.Evaluation.Conditional
import TypeResolution.Evaluation.Evaluate
import TypeResolution.Evaluation.IndexAccess
import TypeResolution.Evaluation.Mapped
import TypeResolution.Evaluation.State
import TypeResolution.Evaluation.Texts
import TypeResolution.Expr.Basic
import TypeResolution.Expr.Lower
import TypeResolution.Inference.Basic
import TypeResolution.Json.Decode
import TypeResolution.Json.Numeral
import TypeResolution.Json.Reader
import TypeResolution.Json.Report
import TypeResolution.Json.Value
import TypeResolution.Json.Vocabulary
import TypeResolution.Json.Writer
import TypeResolution.Limits
import TypeResolution.Module.Graph
import TypeResolution.Narrowing.Basic
import TypeResolution.Number.Basic
import TypeResolution.Number.Numeral
import TypeResolution.Number.Shortest
import TypeResolution.Number.Text
import TypeResolution.Options
import TypeResolution.Recursion
import TypeResolution.Resolution
import TypeResolution.Session.Check
import TypeResolution.Session.Load
import TypeResolution.Session.Source
import TypeResolution.Session.Vocabulary
import TypeResolution.Source
import TypeResolution.Text.Blank
import TypeResolution.Text.Case
import TypeResolution.Text.CaseTable
import TypeResolution.Text.Names
import TypeResolution.Text.Replace
import TypeResolution.Type.Node
import TypeResolution.Type.Normal
import TypeResolution.Type.Printer
import TypeResolution.Type.Scope
import TypeResolution.Type.Spelling
import TypeResolution.Type.Store
import TypeResolution.Type.Substitution
import TypeResolution.Type.Template
import TypeResolution.Proofs.Replay.Renaming
import TypeResolution.Proofs.Replay.Mirror
import TypeResolution.Proofs.Replay.Basic
import TypeResolution.Proofs.Replay.Types
import TypeResolution.Proofs.Replay.Normal
import TypeResolution.Proofs.Replay.Substitution
import TypeResolution.Proofs.Replay.Inference
import TypeResolution.Proofs.Replay.Assignability
import TypeResolution.Proofs.Replay.Evaluation
import TypeResolution.Proofs.Replay.Lodging
import TypeResolution.Proofs.Replay.Lowering
import TypeResolution.Proofs.Session.Environment
import TypeResolution.Proofs.Session.ImportedAlias
import TypeResolution.Proofs.Evaluation.Steps
import TypeResolution.Proofs.Assignability.Rules
import TypeResolution.Proofs.Assignability.Coinductive
import TypeResolution.Proofs.Normal.Interpretation
import TypeResolution.Proofs.Normal.Meaning
import TypeResolution.Proofs.Assignability.Leaves
import TypeResolution.Proofs.Assignability.Regular
import TypeResolution.Proofs.Assignability.Structural
import TypeResolution.Proofs.Module.Cycles
import TypeResolution.Proofs.Replay.Requests
import TypeResolution.Proofs.Session.Report
import TypeResolution.Proofs.Store.Twin
import TypeResolution.Proofs.Expr.Twin
import TypeResolution.Proofs.Session.Sequence
import TypeResolution.Proofs.Session.Workers
import TypeResolution.Proofs.Session.Parts
import TypeResolution.Proofs.Session.Progress
import TypeResolution.Proofs.Session.Unrelated
import TypeResolution.Proofs.Module.Search
import TypeResolution.Proofs.Module.Entered
import TypeResolution.Proofs.Normal.Form
import TypeResolution.Proofs.Normal.Idempotent
import TypeResolution.Proofs.Normal.Absorption
import TypeResolution.Proofs.Store.Description
import TypeResolution.Proofs.Store.Represents
import TypeResolution.Proofs.Store.Interner
import TypeResolution.Proofs.Tidy.Basic
import TypeResolution.Proofs.Tidy.Types
import TypeResolution.Proofs.Tidy.Evaluation
import TypeResolution.Proofs.Tidy.Reachable
import TypeResolution.Proofs.Limits.Together
import TypeResolution.Proofs.Limits.Assignability
import TypeResolution.Proofs.Limits.Evaluation
import TypeResolution.Proofs.Limits.Larger
import TypeResolution.Proofs.Limits.Termination
import TypeResolution.Proofs.Limits.Descent
import TypeResolution.Proofs.Limits.Nesting
import TypeResolution.Proofs.Limits.Intersections
import TypeResolution.Proofs.Limits.Walks
import TypeResolution.Proofs.Evaluation.Kept
import TypeResolution.Proofs.Evaluation.Restored
import TypeResolution.Proofs.Tags.Basic
import TypeResolution.Proofs.Tags.Types
import TypeResolution.Proofs.Tags.Evaluation
import TypeResolution.Proofs.Tags.Lowering
import TypeResolution.Proofs.Tags.Session
import TypeResolution.Proofs.Json.Numerals
import TypeResolution.Proofs.Json.Reading
import TypeResolution.Proofs.Json.Decoding
import TypeResolution.Proofs.Json.RoundTrip
import TypeResolution.Proofs.Evaluation.Rebuilding
import TypeResolution.Proofs.Narrowing.Values
import TypeResolution.Proofs.Narrowing.Widening
import TypeResolution.Proofs.Narrowing.Services
import TypeResolution.Proofs.Narrowing.Discriminant
import TypeResolution.Proofs.Narrowing.Joining
import TypeResolution.Proofs.Narrowing.Tracing
import TypeResolution.Proofs.Narrowing.Conditions
import TypeResolution.Proofs.Narrowing.Normality
import TypeResolution.Proofs.Narrowing.Predicates
import TypeResolution.Proofs.Narrowing.Units
import TypeResolution.Proofs.Narrowing.Variants
import TypeResolution.Proofs.Store.Free
import TypeResolution.Proofs.Inference.Widening
import TypeResolution.Proofs.Inference.Candidates
import TypeResolution.Proofs.Inference.Arguments
import TypeResolution.Proofs.Context.Alone
import TypeResolution.Proofs.Context.Distribution
import TypeResolution.Proofs.Assignability.Resolving
import TypeResolution.Proofs.Assignability.Verdicts
import TypeResolution.Proofs.Assignability.Unions
import TypeResolution.Proofs.Assignability.Merging
import TypeResolution.Proofs.Assignability.Intersections
import TypeResolution.Proofs.Template.Matching
import TypeResolution.Proofs.Template.Holes
import TypeResolution.Proofs.Template.Pieces
import TypeResolution.Proofs.Evaluation.Templates
import TypeResolution.Proofs.Assignability.Templates
import TypeResolution.Proofs.Assignability.Explanations
import TypeResolution.Proofs.Assignability.OutermostFields
import TypeResolution.Proofs.Assignability.ExcessProperties
import TypeResolution.Proofs.Assignability.Memory
import TypeResolution.Proofs.Inference.Templates
import TypeResolution.Proofs.Store.Instantiation
import TypeResolution.Proofs.Store.Occurrence
import TypeResolution.Proofs.Store.Substituted
import TypeResolution.Proofs.Inference.Closure
import TypeResolution.Proofs.Limits.Beside
import TypeResolution.Proofs.Evaluation.Turns
import TypeResolution.Proofs.Context.Invariants
import TypeResolution.Proofs.Mapped.Access
import TypeResolution.Proofs.Mapped.Source
import TypeResolution.Proofs.Mapped.Copy
import TypeResolution.Proofs.Number.Texts
import TypeResolution.Proofs.Evaluated.Idempotent
import TypeResolution.Proofs.Normal.Grouping
import TypeResolution.Proofs.Module.Recorded
import TypeResolution.Proofs.Module.Discovery
import TypeResolution.Proofs.Messages
