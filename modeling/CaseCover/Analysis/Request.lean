import CaseCover.Pattern.Basic
import CaseCover.Analysis.MatchTable
import CaseCover.Diagnostic.Queue

/-!
What an analysis is asked, and what it answers.
-/

namespace CaseCover

/-- Whether a case set must handle every required member. -/
inductive Completeness
  | total
  /-- Members may be left out; neither coverage nor exhaustiveness is checked. -/
  | partially
  deriving DecidableEq, Repr, Inhabited

/-- A case set with the union that it matches on. -/
structure AnalysisRequest where
  union : Ty
  cases : List Case
  completeness : Completeness := .total
  /-- The part of the union whose members are required; none for the whole union. -/
  required : Option Ty := none
  /-- Where the case set was written. -/
  span : Span
  deriving Repr

/-- A total request over the whole union, at the place that covers its cases. -/
def AnalysisRequest.ofCases (union : Ty) (cases : List Case) : AnalysisRequest :=
  { union, cases
    span := (Span.covering (cases.map Case.span)).getD Span.origin }

/-- A case set without errors: its cases, which members they match, and advice. -/
structure Analysis where
  cases : List Case
  matchTable : MatchTable
  notes : List Diagnostic
  deriving Repr

/-- A case set with errors: all diagnostics, in order. -/
structure AnalysisFailure where
  diagnostics : List Diagnostic
  evidence : ErrorReported
  deriving Repr

/-- The errors among the diagnostics. -/
def AnalysisFailure.errors (failure : AnalysisFailure) : List Diagnostic :=
  failure.diagnostics.filter Diagnostic.isError

end CaseCover
