import CaseCover.Ty.Basic

/-!
What a pattern matches, in terms of types: the type itself and the witnesses that the
pattern's syntax proves. A pattern without witnesses only ascribes its type.
-/

namespace CaseCover

/-- The type that a pattern matches and the types of which it names a
constructor. -/
structure PatternType where
  ty : Ty
  witnesses : List Ty
  deriving DecidableEq, Repr

namespace PatternType

/-- Any value, and no refinement. -/
def catchAll : PatternType := ⟨.noType, [.noType]⟩

/-- The values of a type, and no constructor of it. -/
def ascription (t : Ty) : PatternType := ⟨t, []⟩

/-- A type that is its own witness. -/
def singleton (t : Ty) : PatternType := ⟨t, [t]⟩

/-- Whether there are witnesses and all of them are unconstrained. -/
def isCatchAll (p : PatternType) : Bool :=
  !p.witnesses.isEmpty && p.witnesses.all (· = .noType)

def isAscription (p : PatternType) : Bool := p.witnesses.isEmpty

/-- The witnesses, for which an ascription offers its own type. -/
def proofs (p : PatternType) : List Ty :=
  if p.witnesses.isEmpty then [p.ty] else p.witnesses

theorem isCatchAll_catchAll : catchAll.isCatchAll = true := rfl

theorem isAscription_ascription (t : Ty) : (ascription t).isAscription = true := rfl

end PatternType

end CaseCover
