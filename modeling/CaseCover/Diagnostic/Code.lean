/-!
The codes of diagnostics. A code starts with `E` for an error or `W` for advice; those
from 9000 on are about the analysis itself.
-/

namespace CaseCover

/-- What a diagnostic is about. -/
inductive DiagnosticCode
  /-- A pattern that the analysis cannot model. -/
  | unsupportedPattern
  /-- A type that is no member of the declared union. -/
  | notInUnion
  /-- A case set that does not touch every required member. -/
  | uncoveredMembers
  /-- Patterns for a member that do not match all of its values. -/
  | notExhaustive
  /-- A declared part of a union that is not contained in it. -/
  | notContained
  /-- Patterns for a member whose coverage could not be verified. -/
  | notVerified
  /-- More errors than the limit allows. -/
  | tooManyErrors
  deriving DecidableEq, Repr, Inhabited

namespace DiagnosticCode

/-- Every code. -/
def all : List DiagnosticCode :=
  [unsupportedPattern, notInUnion, uncoveredMembers, notExhaustive, notContained,
    notVerified, tooManyErrors]

/-- The written code. -/
def text : DiagnosticCode → String
  | unsupportedPattern => "E3001"
  | notInUnion => "E3002"
  | uncoveredMembers => "E3003"
  | notExhaustive => "E3004"
  | notContained => "E3006"
  | notVerified => "W3005"
  | tooManyErrors => "E9002"

/-- The code with a written form, in upper or lower case. The codes are ASCII, and no
other character becomes one of theirs in upper case. -/
def ofText? (text : String) : Option DiagnosticCode :=
  all.find? fun code => code.text == text.toUpper

def isInternal (code : DiagnosticCode) : Bool := code == tooManyErrors

def isPatternError (code : DiagnosticCode) : Bool := !code.isInternal

def isAdvice (code : DiagnosticCode) : Bool := code == notVerified

theorem mem_all (code : DiagnosticCode) : code ∈ all := by
  cases code <;> simp [all]

theorem text_injective {a b : DiagnosticCode} (h : a.text = b.text) : a = b := by
  cases a <;> cases b <;> first | rfl | simp [text] at h

end DiagnosticCode

end CaseCover
