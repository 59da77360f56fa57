import CaseCover.Hierarchy.Subtyping

/-!
Least upper bounds. Applications of one data type are joined argument by argument,
comparable types meet at the larger one, literals widen to their built-in type, and
other types meet at the nearest ancestor of the first that is also above the second,
or at `any`. An unconstrained position absorbs the other type. Like subtyping, a join
may go on without end and is limited.
-/

namespace CaseCover

namespace Declarations

/-- Join the arguments of two applications of one data type. A position that is not
covariant must be the same on both sides. -/
def joinArgs (bound : Ty → Ty → Query Ty) :
    List TypeParam → List Ty → List Ty → Query (Option (List Ty))
  | p :: params, a :: as, b :: bs => do
    let first : Option Ty ← match p.variance with
      | .covariant => some <$> bound a b
      | .contravariant | .invariant => pure (if a = b then some a else none)
    match first with
    | none => pure none
    | some t => return (← joinArgs bound params as bs).map (t :: ·)
  | _, _, _ => pure (some [])

/-- Two applications of one data type, joined argument by argument. -/
def joinApplications (D : Declarations) (bound : Ty → Ty → Query Ty) :
    Ty → Ty → Query (Option Ty)
  | .app d as, .app e bs => do
    if d = e then
      match ← joinArgs bound (D.get d).params as bs with
      | none => pure none
      | some args => some <$> Query.build (.app d args)
    else pure none
  | _, _ => pure none

/-- The join of the first type of a list, all of them ancestors of one type, that
`b` can be viewed as, with that view of `b`. -/
def joinAncestors (D : Declarations) (bound : Ty → Ty → Query Ty) (b : Ty) :
    List Ty → Query Ty
  | [] => pure .any
  | .app d args :: rest => do
    match ← D.upcast b d with
    | none => joinAncestors D bound b rest
    | some view => bound (.app d args) view
  | _ :: rest => joinAncestors D bound b rest

/-- The least upper bound of two types, with at most `limit` nested questions. -/
def lubWithin (D : Declarations) : (limit : Nat) → (a b : Ty) → Query Ty
  | 0, _, _ => .unanswered
  | n + 1, a, b =>
    if a = b then pure a
    else if a = .noType ∨ b = .noType then pure .noType
    else do
      match ← D.joinApplications (lubWithin D n) a b with
      | some joined => pure joined
      | none =>
        if ← D.subtypeWithin n a b then pure b
        else if ← D.subtypeWithin n b a then pure a
        else if a.widen ≠ a ∨ b.widen ≠ b then lubWithin D n a.widen b.widen
        else
          match b with
          | .app _ _ => do joinAncestors D (lubWithin D n) b (← D.ancestors a)
          | _ => pure .any

end Declarations

namespace Hierarchy

def lub (H : Hierarchy) (a b : Ty) : Query Ty := H.decls.lubWithin H.limit a b

/-- The least upper bound of a list of types, taken from left to right; `never` for an
empty list. -/
def lubAll (H : Hierarchy) : List Ty → Query Ty
  | [] => pure .never
  | t :: rest => Query.fold H.lub t rest

end Hierarchy

end CaseCover
