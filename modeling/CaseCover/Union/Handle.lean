import CaseCover.Union.Membership

/-!
Handles typed by a union: which values may be sent through one, and to which part of
its union it may be narrowed.
-/

namespace CaseCover

namespace Hierarchy

/-- The error of a value whose type is not part of a handle's union, if it is not. -/
def membershipError? (H : Hierarchy) (t union : Ty) (span : Span) :
    Query (Option Diagnostic) := do
  let (mismatch?, _) ← H.partOfUnion {} t union
  return mismatch?.map (·.toDiagnostic H.decls .notInUnion span)

/-- The error of narrowing a handle to a part that its union does not contain, if it
does not. -/
def narrowingError? (H : Hierarchy) (part union : Ty) (span : Span) :
    Query (Option Diagnostic) := do
  let (mismatch?, _) ← H.containsAll {} union part
  return mismatch?.map fun mismatch =>
    (mismatch.toDiagnostic H.decls .notContained span).withNote
      ("a handle of " ++ mismatch.target.render H.decls ++ " cannot be narrowed to " ++
        H.decls.render part)

end Hierarchy

end CaseCover
