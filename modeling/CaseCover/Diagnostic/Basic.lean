import CaseCover.Diagnostic.Code
import CaseCover.Source.Span

/-!
Diagnostics: a code, a severity, a message, the labelled places it points at, and
remarks. The first primary label says where the problem is.
-/

namespace CaseCover

/-- How much a diagnostic weighs. Only an error makes an analysis fail. -/
inductive Severity
  | error
  | warning
  | note
  deriving DecidableEq, Repr, Inhabited

/-- The written severity. -/
def Severity.text : Severity → String
  | error => "error"
  | warning => "warning"
  | note => "note"

/-- A place with a short explanation. -/
structure Label where
  span : Span
  message : String
  /-- Whether the problem is here, and not only related to this place. -/
  isPrimary : Bool
  deriving DecidableEq, Repr, Inhabited

/-- One reported problem. -/
structure Diagnostic where
  code : DiagnosticCode
  severity : Severity
  message : String := ""
  labels : List Label := []
  notes : List String := []
  suggestions : List String := []
  deriving DecidableEq, Repr, Inhabited

namespace Diagnostic

/-- The span of the first primary label. -/
def primarySpan? (d : Diagnostic) : Option Span :=
  (d.labels.find? Label.isPrimary).map Label.span

/-- The place that orders a diagnostic among others: its primary span, or the origin
when it has none. -/
def place (d : Diagnostic) : Span := d.primarySpan?.getD Span.origin

/-- The spans of the related places. -/
def secondarySpans (d : Diagnostic) : List Span :=
  (d.labels.filter fun label => !label.isPrimary).map Label.span

def isError (d : Diagnostic) : Bool := d.severity == .error

/-- An error with a message that points at a place. -/
def errorAt (code : DiagnosticCode) (message : String) (span : Span) (label : String) :
    Diagnostic :=
  { code, severity := .error, message, labels := [⟨span, label, true⟩] }

/-- A note with a message that points at a place. -/
def noteAt (code : DiagnosticCode) (message : String) (span : Span) (label : String) :
    Diagnostic :=
  { code, severity := .note, message, labels := [⟨span, label, true⟩] }

/-- The diagnostic with a remark added at the end. -/
def withNote (d : Diagnostic) (note : String) : Diagnostic :=
  { d with notes := d.notes ++ [note] }

/-- The diagnostic with a proposed remedy added at the end. -/
def withSuggestion (d : Diagnostic) (suggestion : String) : Diagnostic :=
  { d with suggestions := d.suggestions ++ [suggestion] }

/-- The diagnostic with a related place added at the end. -/
def withRelated (d : Diagnostic) (span : Span) (message : String) : Diagnostic :=
  { d with labels := d.labels ++ [⟨span, message, false⟩] }

def labelMark (isPrimary : Bool) : String := if isPrimary then "-->" else " · "

/-- The plain text, with one line for each part. -/
def render (d : Diagnostic) : String :=
  d.severity.text ++ "[" ++ d.code.text ++ "]: " ++ d.message ++
    String.join (d.labels.map fun label =>
      "\n  " ++ labelMark label.isPrimary ++ " " ++ label.span.render ++ ": " ++
        label.message) ++
    String.join (d.notes.map ("\n  = note: " ++ ·)) ++
    String.join (d.suggestions.map ("\n  = help: " ++ ·))

end Diagnostic

end CaseCover
