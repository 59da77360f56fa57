import CaseCover.Check.Matrix
import CaseCover.Pattern.PatternType

/-!
Whether patterns cover a type. A pattern that matches anything covers every type. A
closed type is searched for values that no pattern matches. An open type is covered
only by a pattern that matches it as a whole.
-/

namespace CaseCover

/-- The outcome of a check. -/
inductive Coverage
  /-- Every value is matched. -/
  | covered
  /-- Some values are not matched: their shapes, and a remark on open types. -/
  | missing (counterexamples : List String) (note : Option String)
  /-- The search stopped before it had an answer. -/
  | inconclusive (limit : SearchLimit)
  deriving DecidableEq, Repr

namespace Checker

/-- Whether patterns cover a closed type. -/
def checkClosed (C : Checker) (target : Ty) (patterns : List Pattern) :
    Query Coverage := do
  match ← C.gaps (patterns.map fun p => [some p]) [⟨target, []⟩] with
  | .error limit => return .inconclusive limit
  | .ok [] => return .covered
  | .ok found =>
    let D := C.hierarchy.decls
    let texts := found.map fun row => (row.head?.map (·.render D)).getD "_"
    return .missing texts.eraseDups none

/-- Whether a pattern type matches an open type as a whole: its type and all of its
witnesses are supertypes. -/
def matchesWhole (C : Checker) (target : Ty) (p : PatternType) : Query Bool := do
  if ← C.hierarchy.isSubtype target p.ty then
    Query.all
      (fun w => if w = .noType then pure true else C.hierarchy.isSubtype target w)
      p.witnesses
  else return false

/-- Whether pattern types cover an open type. -/
def checkOpen (C : Checker) (target : Ty) (types : List PatternType) :
    Query Coverage := do
  if ← Query.any (C.matchesWhole target) types then return .covered
  else
    let D := C.hierarchy.decls
    let name := D.render target
    let proofs := ((types.flatMap PatternType.proofs).filter (· ≠ .noType)).eraseDups
    return .missing [name]
      (some (name ++ " is not covered by any of " ++ D.renderSet proofs))

/-- Whether patterns, each with a pattern type of it, cover a type. -/
def check (C : Checker) (target : Ty) (patterns : List (Pattern × PatternType)) :
    Query Coverage :=
  if patterns.any fun p => p.2.isCatchAll then pure .covered
  else if C.hierarchy.decls.isClosed target then
    C.checkClosed target (patterns.map Prod.fst)
  else C.checkOpen target (patterns.map Prod.snd)

end Checker

end CaseCover
