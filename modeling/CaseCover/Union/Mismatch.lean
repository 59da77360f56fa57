import CaseCover.Diagnostic.Basic
import CaseCover.Union.Basic

/-!
Failed membership: the types that are not part of a union, and how that is reported.
-/

namespace CaseCover

/-- Types that do not fit a union. -/
structure Mismatch where
  /-- The types that do not fit, in the order in which they were tested. -/
  missing : List Ty
  /-- The members that they were tested against. -/
  target : TypeSet
  deriving DecidableEq, Repr

namespace Mismatch

/-- One line for each type that does not fit. -/
def message (D : Declarations) (m : Mismatch) : String :=
  let target := m.target.render D
  "\n".intercalate (m.missing.map fun t => D.render t ++ " is not in " ++ target ++ ".")

/-- What is written at the place of a mismatch. -/
def label (m : Mismatch) : String :=
  if m.missing.length = 1 then "type not in union"
  else toString m.missing.length ++ " types not in union"

/-- The mismatch as an error of the given code. -/
def toDiagnostic (D : Declarations) (m : Mismatch) (code : DiagnosticCode)
    (span : Span) : Diagnostic :=
  .errorAt code (m.message D) span m.label

end Mismatch

end CaseCover
