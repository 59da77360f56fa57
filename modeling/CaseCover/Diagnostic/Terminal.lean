import CaseCover.Diagnostic.Basic

/-!
A batch of diagnostics as text for a terminal, with or without colors, and a closing
line that counts them.
-/

namespace CaseCover

/-- When a text is colored. -/
inductive ColorMode
  /-- When it is written to a terminal. -/
  | auto
  | always
  | never
  deriving DecidableEq, Repr, Inhabited

/-- Whether a text is colored, given whether it is written to a terminal. -/
def ColorMode.isEnabled (mode : ColorMode) (isTerminal : Bool) : Bool :=
  match mode with
  | auto => isTerminal
  | always => true
  | never => false

/-- What is written before each part of a diagnostic to color it, and after it. -/
structure Palette where
  error : String := ""
  warning : String := ""
  note : String := ""
  help : String := ""
  code : String := ""
  related : String := ""
  reset : String := ""

namespace Palette

def plain : Palette := {}

/-- The escape sequences of terminals. -/
def ansi : Palette where
  error := "\x1b[1;31m"
  warning := "\x1b[1;33m"
  note := "\x1b[1;36m"
  help := "\x1b[1;32m"
  code := "\x1b[1m"
  related := "\x1b[1;34m"
  reset := "\x1b[0m"

/-- The palette for a color mode. -/
def ofMode (mode : ColorMode) (isTerminal : Bool) : Palette :=
  if mode.isEnabled isTerminal then ansi else plain

/-- The color of a severity. -/
def severity (p : Palette) : Severity → String
  | .error => p.error
  | .warning => p.warning
  | .note => p.note

end Palette

/-- How many diagnostics of each severity a batch has. -/
structure BatchSummary where
  errors : Nat
  warnings : Nat
  notes : Nat
  deriving DecidableEq, Repr

namespace BatchSummary

/-- The counts of a batch. -/
def ofBatch (batch : List Diagnostic) : BatchSummary :=
  { errors := batch.countP (·.severity == .error)
    warnings := batch.countP (·.severity == .warning)
    notes := batch.countP (·.severity == .note) }

def isEmpty (s : BatchSummary) : Bool := s.errors + s.warnings + s.notes == 0

end BatchSummary

namespace Terminal

/-- A line without a carriage return at its end. -/
def dropReturn (line : String) : String :=
  if line.endsWith "\r" then (line.dropEnd 1).toString else line

/-- The lines of a text. A line ends at a line feed, with a carriage return before it
if there is one; there is no last line after a line feed at the end. -/
def lines (text : String) : List String :=
  let pieces := text.splitOn "\n"
  let complete := pieces.dropLast.map dropReturn
  match pieces.getLast? with
  | some last => if last.isEmpty then complete else complete ++ [last]
  | none => complete

/-- The message: its first line, and each further one indented below it. -/
def message (text : String) : String :=
  match lines text with
  | [] => ": \n"
  | first :: rest =>
    ": " ++ first ++ "\n" ++ String.join (rest.map fun line => "       " ++ line ++ "\n")

/-- The line of a label. -/
def label (p : Palette) (severity : Severity) (l : Label) : String :=
  let color := if l.isPrimary then p.severity severity else p.related
  "  " ++ Diagnostic.labelMark l.isPrimary ++ " " ++ l.span.render ++ ": " ++ color ++
    l.message ++ p.reset ++ "\n"

/-- A diagnostic, followed by an empty line. -/
def diagnostic (p : Palette) (d : Diagnostic) : String :=
  p.severity d.severity ++ d.severity.text ++ p.reset ++ p.code ++ "[" ++
    d.code.text ++ "]" ++ p.reset ++ message d.message ++
    String.join (d.labels.map (label p d.severity)) ++
    String.join (d.notes.map fun note =>
      "  = " ++ p.code ++ "note" ++ p.reset ++ ": " ++ note ++ "\n") ++
    String.join (d.suggestions.map fun suggestion =>
      "  = " ++ p.help ++ "help" ++ p.reset ++ ": " ++ suggestion ++ "\n") ++
    "\n"

/-- A count with its noun, which is in the plural unless the count is one. -/
def counted (count : Nat) (noun : String) : String :=
  toString count ++ " " ++ noun ++ if count = 1 then "" else "s"

/-- The closing line of a batch; none for an empty one. -/
def summary (p : Palette) (s : BatchSummary) : String :=
  if s.isEmpty then ""
  else
    let counts := [(s.errors, "error"), (s.warnings, "warning"), (s.notes, "note")]
    let parts := (counts.filter fun c => decide (0 < c.1)).map fun c => counted c.1 c.2
    let (head, color) :=
      if 0 < s.errors then ("analysis failed", p.error) else ("analysis passed", p.note)
    color ++ head ++ p.reset ++ ": " ++ ", ".intercalate parts ++ "\n"

/-- A batch of diagnostics with its closing line. -/
def batch (p : Palette) (ds : List Diagnostic) : String :=
  String.join (ds.map (diagnostic p)) ++ summary p (.ofBatch ds)

end Terminal

end CaseCover
