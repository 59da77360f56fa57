import CaseCover.Decl.Printer

/-!
Ordered sets of types: the members of a union in the order in which they first
appear, each once.
-/

namespace CaseCover

/-- Different types in a fixed order. -/
structure TypeSet where
  members : List Ty
  deriving DecidableEq, Repr

namespace TypeSet

def empty : TypeSet := ⟨[]⟩

def contains (s : TypeSet) (t : Ty) : Bool := s.members.contains t

/-- The set with a type added at its end, unless it is a member already. -/
def insert (s : TypeSet) (t : Ty) : TypeSet :=
  if s.contains t then s else ⟨s.members ++ [t]⟩

/-- The different types of a list, each where it stands first. -/
def ofList (types : List Ty) : TypeSet := types.foldl insert empty

/-- The members of a union; any other type is its own single member. -/
def ofUnion (t : Ty) : TypeSet := ofList t.leaves

def size (s : TypeSet) : Nat := s.members.length

def render (D : Declarations) (s : TypeSet) : String := D.renderSet s.members

end TypeSet

end CaseCover
