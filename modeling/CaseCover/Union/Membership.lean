import CaseCover.Union.Mismatch
import CaseCover.Hierarchy.Subtyping

/-!
Membership in unions: which members of one union fit into another, and whether one
union contains all or some of another. Expansions of unions are remembered in a
`UnionCache`; what is remembered never changes an answer, only how often a union is
expanded.
-/

namespace CaseCover

/-- The expansions made so far, by the type expanded. -/
structure UnionCache where
  expanded : List (Ty × TypeSet) := []
  deriving Repr

namespace UnionCache

instance : Inhabited UnionCache := ⟨{}⟩

def size (cache : UnionCache) : Nat := cache.expanded.length

/-- The members of a type, remembered or expanded and then remembered. -/
def expand (cache : UnionCache) (t : Ty) : TypeSet × UnionCache :=
  match cache.expanded.lookup t with
  | some members => (members, cache)
  | none =>
    let members := TypeSet.ofUnion t
    (members, ⟨(t, members) :: cache.expanded⟩)

end UnionCache

namespace Hierarchy

/-- Whether a type fits some member of a set: it is a subtype of one, or one is
unconstrained. `never` fits every set. -/
def memberFits (H : Hierarchy) (t : Ty) (s : TypeSet) : Query Bool :=
  if t = .never then pure true
  else
    Query.any
      (fun m => if m = .noType ∨ t = m then pure true else H.isSubtype t m) s.members

/-- The members of a set that do not fit another set, as a mismatch if there are
any. -/
def mismatch? (H : Hierarchy) (candidates target : TypeSet) :
    Query (Option Mismatch) := do
  let missing ←
    Query.filter (fun t => do return !(← H.memberFits t target)) candidates.members
  return if missing.isEmpty then none else some ⟨missing, target⟩

/-- Whether every member of a type fits a set; otherwise the members that do not. -/
def partOf (H : Hierarchy) (cache : UnionCache) (t : Ty) (target : TypeSet) :
    Query (Option Mismatch × UnionCache) := do
  let (candidates, cache) := cache.expand t
  return (← H.mismatch? candidates target, cache)

/-- Whether every member of a type fits a union; otherwise the members that do
not. -/
def partOfUnion (H : Hierarchy) (cache : UnionCache) (t union : Ty) :
    Query (Option Mismatch × UnionCache) :=
  let (target, cache) := cache.expand union
  H.partOf cache t target

/-- Whether some member of the first union fits the second. -/
def containsSome (H : Hierarchy) (cache : UnionCache) (left right : Ty) :
    Query (Bool × UnionCache) := do
  let (candidates, cache) := cache.expand left
  let (target, cache) := cache.expand right
  return (← Query.any (fun t => H.memberFits t target) candidates.members, cache)

/-- Whether the first union contains all of the second; otherwise the members of the
second that it lacks. -/
def containsAll (H : Hierarchy) (cache : UnionCache) (superset subset : Ty) :
    Query (Option Mismatch × UnionCache) :=
  H.partOfUnion cache subset superset

end Hierarchy

end CaseCover
