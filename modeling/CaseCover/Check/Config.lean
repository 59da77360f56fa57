import CaseCover.Diagnostic.Queue

/-!
The limits and policies of an analysis.
-/

namespace CaseCover

/-- How a case with a guard counts towards exhaustiveness. -/
inductive GuardPolicy
  /-- A guard may reject any value, so a guarded case proves nothing. -/
  | strict
  /-- A guarded case counts as if its guard always held. -/
  | optimistic
  deriving DecidableEq, Repr, Inhabited

/-- The limits and policies of an analysis. -/
structure CheckConfig where
  guardPolicy : GuardPolicy := .strict
  /-- How often a data type may be nested inside itself in a search. -/
  maxUnfoldDepth : Nat := 32
  /-- The number of steps that a search may take. -/
  stepBudget : Nat := 100000
  /-- The number of choices of witnesses that a pattern may list. -/
  maxWitnesses : Nat := 64
  /-- The number of counterexamples that a search reports. -/
  maxCounterexamples : Nat := 8
  diagnostics : QueueConfig := {}
  deriving DecidableEq, Repr

namespace CheckConfig

instance : Inhabited CheckConfig := ⟨{}⟩

/-- Guarded cases prove nothing, and no error is dropped. -/
def strict : CheckConfig := { diagnostics := .unlimited }

def permissive : CheckConfig := { guardPolicy := .optimistic }

/-- Whether a case may prove exhaustiveness, given whether it has a guard. -/
def countsAsEvidence (config : CheckConfig) (guarded : Bool) : Bool :=
  !guarded || config.guardPolicy == .optimistic

end CheckConfig

end CaseCover
