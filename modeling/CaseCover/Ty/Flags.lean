import CaseCover.Ty.Basic

/-!
What is known about a type at a glance: what kind of type it is, and whether a
parameter, an unconstrained position or a union occurs anywhere in it.
-/

namespace CaseCover

/-- The kinds of types. -/
inductive TypeTag
  | prim (p : Prim)
  | lit
  | union
  | app
  | param
  deriving DecidableEq, Repr

/-- The properties of a type that are kept with it. -/
structure TypeFlags where
  /-- A parameter occurs in it. -/
  hasParam : Bool := false
  /-- An unconstrained position occurs in it. -/
  hasNoType : Bool := false
  /-- A union occurs in it. -/
  hasUnion : Bool := false
  isPrim : Bool := false
  isLit : Bool := false
  isUnion : Bool := false
  isApp : Bool := false
  deriving DecidableEq, Repr, Inhabited

namespace TypeTag

def all : List TypeTag := Prim.all.map prim ++ [lit, union, app, param]

/-- The written name. -/
def name : TypeTag → String
  | prim .never => "Never"
  | prim .any => "Any"
  | prim .noType => "NoType"
  | prim .int => "Int"
  | prim .float => "Float"
  | prim .bool => "Bool"
  | prim .str => "Str"
  | prim .char => "Char"
  | prim .unit => "Unit"
  | lit => "Literal"
  | union => "Union"
  | app => "Adt"
  | param => "Param"

/-- Whether the kind is that of a built-in type. -/
def isPrim : TypeTag → Bool
  | prim _ => true
  | _ => false

/-- What the root of a type says about the type. -/
def flags : TypeTag → TypeFlags
  | prim p => { isPrim := true, hasNoType := p == .noType }
  | lit => { isLit := true }
  | union => { isUnion := true, hasUnion := true }
  | app => { isApp := true }
  | param => { hasParam := true }

end TypeTag

namespace TypeFlags

/-- What a part of a type says about the whole. -/
def inherited (f : TypeFlags) : TypeFlags :=
  { hasParam := f.hasParam, hasNoType := f.hasNoType, hasUnion := f.hasUnion }

/-- What either of two says. -/
def or (f g : TypeFlags) : TypeFlags where
  hasParam := f.hasParam || g.hasParam
  hasNoType := f.hasNoType || g.hasNoType
  hasUnion := f.hasUnion || g.hasUnion
  isPrim := f.isPrim || g.isPrim
  isLit := f.isLit || g.isLit
  isUnion := f.isUnion || g.isUnion
  isApp := f.isApp || g.isApp

/-- The root's properties with those of the parts. -/
def withParts (f : TypeFlags) (parts : List TypeFlags) : TypeFlags :=
  parts.foldl (fun whole part => whole.or part.inherited) f

/-- The properties as a number with one bit for each. -/
def bits (f : TypeFlags) : Nat :=
  f.hasParam.toNat + 2 * f.hasNoType.toNat + 4 * f.hasUnion.toNat +
    256 * f.isPrim.toNat + 512 * f.isLit.toNat + 1024 * f.isUnion.toNat +
    2048 * f.isApp.toNat

end TypeFlags

namespace Ty

/-- The kind of a type. -/
def tag : Ty → TypeTag
  | .prim p => .prim p
  | .lit _ => .lit
  | .union _ _ => .union
  | .app _ _ => .app
  | .param _ _ => .param

mutual

/-- Whether a type that passes a test occurs in a type. -/
def occurs (test : Ty → Bool) : Ty → Bool
  | .union a b => test (.union a b) || a.occurs test || b.occurs test
  | .app d args => test (.app d args) || occursList test args
  | .prim p => test (.prim p)
  | .lit v => test (.lit v)
  | .param o i => test (.param o i)

/-- Whether a type that passes a test occurs in a type of a list. -/
def occursList (test : Ty → Bool) : List Ty → Bool
  | [] => false
  | t :: rest => t.occurs test || occursList test rest

end

/-- The properties of a type, found by walking through all of it. -/
def flags (t : Ty) : TypeFlags :=
  { t.tag.flags with
    hasParam := t.occurs fun u => u.tag == .param
    hasNoType := t.occurs (· == .noType)
    hasUnion := t.occurs fun u => u.tag == .union }

end Ty

end CaseCover
