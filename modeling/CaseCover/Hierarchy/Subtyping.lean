import CaseCover.Hierarchy.Ancestry

/-!
Subtyping. An application is below another when, viewed as the other's data type, its
arguments conform position by position as the declared variances say. Contravariant
and invariant positions exchange the sides and views may grow, so a question can go
on without end; the number of nested questions is therefore limited, and a question
that exceeds the limit has no answer.
-/

namespace CaseCover

/-- The declared data types, with a limit on how deeply questions about their types
may be nested. -/
structure Hierarchy where
  decls : Declarations
  limit : Nat

namespace Declarations

/-- Whether the arguments of one application conform to those of another, asked from
left to right: covariant ones upwards, contravariant ones downwards, invariant ones
both ways. Positions that one of the lists lacks are not asked. -/
def conform (below : Ty → Ty → Query Bool) :
    List TypeParam → List Ty → List Ty → Query Bool
  | p :: params, a :: as, b :: bs =>
    Query.both
      (match p.variance with
        | .covariant => below a b
        | .contravariant => below b a
        | .invariant => Query.both (below a b) (below b a))
      (conform below params as bs)
  | _, _, _ => pure true

/-- Whether `a` is a subtype of `b`, with at most `limit` nested questions.

An unconstrained position conforms to everything, and everything conforms to it. A
union is below what all of its sides are below; anything else is below a union when
it is below one of its sides. A literal is below what its built-in type is below. -/
def subtypeWithin (D : Declarations) : (limit : Nat) → (a b : Ty) → Query Bool
  | 0, _, _ => .unanswered
  | n + 1, a, b =>
    if a = b ∨ a = .noType ∨ b = .noType ∨ a = .never ∨ b = .any then pure true
    else if a = .any then pure false
    else
      match a, b with
      | .union x y, b => Query.both (subtypeWithin D n x b) (subtypeWithin D n y b)
      | a, .union x y => Query.either (subtypeWithin D n a x) (subtypeWithin D n a y)
      | .lit v, b => subtypeWithin D n (.prim v.base) b
      | .app adt args, .app target bounds => do
        match ← D.upcast (.app adt args) target with
        | none => pure false
        | some up =>
          conform (subtypeWithin D n) (D.get target).params up.args bounds
      | _, _ => pure false

end Declarations

/-- Whether `a` is a subtype of `b`. -/
def Hierarchy.isSubtype (H : Hierarchy) (a b : Ty) : Query Bool :=
  H.decls.subtypeWithin H.limit a b

end CaseCover
