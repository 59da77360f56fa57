import CaseCover.Source.Span
import CaseCover.Source.NameTable
import CaseCover.Text.Unprintable
import CaseCover.Text.Quoted
import CaseCover.Decimal.Shortest
import CaseCover.Decimal.Float64
import CaseCover.Ty.Basic
import CaseCover.Ty.Flags
import CaseCover.Ty.Table
import CaseCover.Decl.Basic
import CaseCover.Decl.Printer
import CaseCover.Query
import CaseCover.Hierarchy.Ancestry
import CaseCover.Hierarchy.Subtyping
import CaseCover.Hierarchy.Join
import CaseCover.Hierarchy.Children
import CaseCover.Diagnostic.Code
import CaseCover.Diagnostic.Basic
import CaseCover.Diagnostic.Queue
import CaseCover.Diagnostic.Explanation
import CaseCover.Diagnostic.Terminal
import CaseCover.Union.Basic
import CaseCover.Union.Mismatch
import CaseCover.Union.Membership
import CaseCover.Union.Handle
import CaseCover.Pattern.Basic
import CaseCover.Pattern.PatternType
import CaseCover.Pattern.Alignment
import CaseCover.Pattern.Error
import CaseCover.Pattern.Extraction
import CaseCover.Check.Config
import CaseCover.Check.Gap
import CaseCover.Check.Matrix
import CaseCover.Check.Coverage
import CaseCover.Analysis.MatchTable
import CaseCover.Analysis.Request
import CaseCover.Analysis.Session
import CaseCover.Workspace
import CaseCover.Proofs.Query.Answers
import CaseCover.Proofs.Ty.Substitution
import CaseCover.Proofs.Hierarchy.Walks
import CaseCover.Proofs.Hierarchy.Grounded
import CaseCover.Proofs.Hierarchy.SubtypingCalls
import CaseCover.Proofs.Hierarchy.SubtypingEnds
import CaseCover.Proofs.Hierarchy.JoinCalls
import CaseCover.Proofs.Hierarchy.JoinEnds
import CaseCover.Proofs.Hierarchy.Children
import CaseCover.Proofs.Hierarchy.Views
import CaseCover.Proofs.Hierarchy.Instances
import CaseCover.Proofs.Value.Shapes
import CaseCover.Proofs.Check.Search
import CaseCover.Proofs.Value.Gaps
import CaseCover.Proofs.Value.Matching
import CaseCover.Proofs.Check.Rows
import CaseCover.Proofs.Check.Splitting
import CaseCover.Proofs.Check.Completeness
import CaseCover.Proofs.Pattern.Evaluation
import CaseCover.Proofs.Pattern.Irrefutable
import CaseCover.Proofs.Check.Simulation
import CaseCover.Proofs.Check.SequenceNames
import CaseCover.Proofs.Check.RowOrder
import CaseCover.Proofs.Union.Membership
import CaseCover.Proofs.Pattern.Remembered
import CaseCover.Proofs.Diagnostic.Queue
import CaseCover.Proofs.Analysis.Binding
import CaseCover.Proofs.Analysis.Violations
import CaseCover.Proofs.Analysis.Reports
import CaseCover.Proofs.Analysis.Queueing
import CaseCover.Proofs.Analysis.Verdict
import CaseCover.Proofs.Hierarchy.Descent
import CaseCover.Proofs.Value.Accepting
import CaseCover.Proofs.Check.AcceptingRows
import CaseCover.Proofs.Check.Soundness
import CaseCover.Proofs.Check.GapLimit
import CaseCover.Proofs.Check.Limits
import CaseCover.Proofs.Check.Nesting
import CaseCover.Proofs.Hierarchy.Settled
import CaseCover.Proofs.Check.Termination
import CaseCover.Proofs.Check.Widening
import CaseCover.Proofs.Analysis.Sessions
import CaseCover.Proofs.Ty.Flags
import CaseCover.Proofs.Ty.Table
import CaseCover.Proofs.Source.NameTable
import CaseCover.Proofs.Workspace.HashConsing
import CaseCover.Proofs.Decl.Admitted
import CaseCover.Proofs.Hierarchy.Routes
import CaseCover.Proofs.Hierarchy.Comparison
import CaseCover.Proofs.Hierarchy.Transitivity
import CaseCover.Proofs.Union.Agreement
import CaseCover.Proofs.Pattern.ExtractionEnds
import CaseCover.Proofs.Pattern.Grammar
import CaseCover.Proofs.Pattern.Refusals
import CaseCover.Proofs.Pattern.Alternatives
import CaseCover.Proofs.Hierarchy.JoinBounds
import CaseCover.Proofs.Hierarchy.JoinLeast
import CaseCover.Proofs.Hierarchy.JoinOrder
import CaseCover.Proofs.Pattern.Witnesses
import CaseCover.Proofs.Check.OpenTargets
import CaseCover.Proofs.Diagnostic.History
import CaseCover.Proofs.Diagnostic.Accounting
import CaseCover.Proofs.Diagnostic.Evidence
import CaseCover.Proofs.Diagnostic.Repetition
import CaseCover.Proofs.Analysis.Recording
import CaseCover.Proofs.Hierarchy.UpperBounds
import CaseCover.Proofs.Check.WitnessLimit
import CaseCover.Proofs.Ty.Made
import CaseCover.Proofs.Union.Expansion
import CaseCover.Proofs.Workspace.Substitution
import CaseCover.Proofs.Hierarchy.Ascent
import CaseCover.Proofs.Pattern.Occurrences
import CaseCover.Proofs.Pattern.Recovery
import CaseCover.Proofs.Pattern.Names
import CaseCover.Proofs.Check.Names
import CaseCover.Proofs.Analysis.Abort
import CaseCover.Proofs.Check.Bounds
import CaseCover.Proofs.Value.Views
import CaseCover.Proofs.Pattern.Narrowing
import CaseCover.Proofs.Pattern.Positions
import CaseCover.Proofs.Pattern.ExtractionLimits
import CaseCover.Proofs.Analysis.Termination
import CaseCover.Proofs.Analysis.Acceptance
