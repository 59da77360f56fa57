import CaseCover.Decl.Basic
import CaseCover.Query

/-!
Walks along the declared parents. `upcast` views a type as an application of a given
data type, depth first; `ancestors` lists the types above a type, breadth first; and
`isDescendant` asks about data types alone, without their arguments. Each walk expands
a data type once, so it ends on every parent relation, cyclic ones included.
-/

namespace CaseCover

namespace Declarations

/-- The declared parents of an application, in declaration order, with its arguments
put in. -/
def parentsOf (D : Declarations) (adt : DataId) (args : List Ty) : List Ty :=
  (D.get adt).parents.map (Ty.substitute adt args)

/-- The steps that suffice for every walk along parents: each recorded parent is
visited at most once, and so is the start. -/
def walkLimit (D : Declarations) : Nat := D.parentCount + 1

/-- Look for an application of `target`, depth first. The types on the stack are
visited from its front; the parents of a visited type go before them, the last one
built first. -/
def upcastFrom (D : Declarations) (target : DataId) :
    Nat → List Ty → List DataId → Traced (Option Ty)
  | 0, _, _ => pure none
  | _ + 1, [], _ => pure none
  | fuel + 1, .app adt args :: stack, seen =>
    if adt = target then pure (some (.app adt args))
    else if adt ∈ seen then upcastFrom D target fuel stack seen
    else
      let parents := D.parentsOf adt args
      let found := upcastFrom D target fuel (parents ++ stack) (adt :: seen)
      ⟨found.value, Trail.ofList parents.reverse ++ found.trail⟩
  | fuel + 1, _ :: stack, seen => upcastFrom D target fuel stack seen

/-- A type viewed as an application of the data type `target`, if that is its own data
type or one above it. -/
def upcast (D : Declarations) (t : Ty) (target : DataId) : Traced (Option Ty) :=
  upcastFrom D target D.walkLimit [t] []

/-- The different types above `start`, breadth first. The types of the queue are
visited from its front; the parents of a visited type go behind them. -/
def ancestorsFrom (D : Declarations) (start : Ty) :
    Nat → List Ty → List DataId → Traced (List Ty)
  | 0, _, _ => pure []
  | _ + 1, [], _ => pure []
  | fuel + 1, .app adt args :: queue, seen =>
    if adt ∈ seen then ancestorsFrom D start fuel queue seen
    else
      let parents := D.parentsOf adt args
      let above := ancestorsFrom D start fuel (queue ++ parents) (adt :: seen)
      let visited := Ty.app adt args
      ⟨if visited = start then above.value else visited :: above.value,
        Trail.ofList parents ++ above.trail⟩
  | fuel + 1, _ :: queue, seen => ancestorsFrom D start fuel queue seen

/-- The types above a type, nearest first and one for each data type. -/
def ancestors (D : Declarations) (t : Ty) : Traced (List Ty) :=
  ancestorsFrom D t D.walkLimit [t] []

/-- Look for the data type `ancestor`, depth first; the last parent is visited
first. -/
def reaches (D : Declarations) (ancestor : DataId) :
    Nat → List DataId → List DataId → Bool
  | 0, _, _ => false
  | _ + 1, [], _ => false
  | fuel + 1, adt :: stack, seen =>
    if adt = ancestor then true
    else if adt ∈ seen then reaches D ancestor fuel stack seen
    else
      let parents := (D.get adt).parents.filterMap Ty.constructor?
      reaches D ancestor fuel (parents.reverse ++ stack) (adt :: seen)

/-- Whether a data type is `ancestor` or inherits from it. -/
def isDescendant (D : Declarations) (adt ancestor : DataId) : Bool :=
  reaches D ancestor D.walkLimit [adt] []

end Declarations

end CaseCover
