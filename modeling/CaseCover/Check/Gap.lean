import CaseCover.Decl.Printer

/-!
Gaps: shapes of values that no pattern matches, and how they are shown, as the pattern
that is missing.
-/

namespace CaseCover

/-- A way in which the values of a closed type are made. -/
inductive Ctor
  /-- The values of a direct subtype; the only field is the value itself. -/
  | subtype (t : Ty)
  /-- The tuples of a product. -/
  | product (t : Ty)
  /-- The only value of a singleton, of a literal type or of the unit type. -/
  | singleton (t : Ty)
  /-- The sequences of one length. -/
  | exactly (length : Nat)
  /-- The sequences of at least a length. -/
  | atLeast (length : Nat)
  deriving DecidableEq, Repr

/-- A shape of values that no pattern matches. -/
inductive Gap
  /-- Any value of a type. -/
  | any (ty : Ty)
  /-- The values of a type that are made in one way from given fields. -/
  | made (ctor : Ctor) (ty : Ty) (fields : List Gap)
  deriving Repr

namespace Gap

/-- The name of a type's data type; any other type is written out. -/
def constructorName (D : Declarations) : Ty → String
  | .app adt _ => (D.get adt).name
  | t => D.render t

/-- The only value of a singleton type. -/
def singletonName (D : Declarations) : Ty → String
  | .lit v => v.render
  | t => constructorName D t

/-- A direct subtype all of whose values are missing. -/
def describe (D : Declarations) : Ty → String
  | .lit v => v.render
  | .prim .unit => "()"
  | .app adt args =>
    let decl := D.get adt
    match decl.kind with
    | .singleton => decl.name
    | .product fields =>
      decl.name ++ "(" ++ ", ".intercalate (fields.map fun _ => "_") ++ ")"
    | .abstractType _ | .sequence => "_: " ++ D.render (.app adt args)
  | t => "_: " ++ D.render t

/-- Fields in parentheses, followed by the rest of a sequence where it is open. -/
def renderFields (texts : List String) (isOpen : Bool) : String :=
  "(" ++ ", ".intercalate (if isOpen then texts ++ ["_*"] else texts) ++ ")"

/-- The values of a type that are made in one way, given the text of each field and
whether the field is more than any value. -/
def renderMade (D : Declarations) (ctor : Ctor) (ty : Ty)
    (fields : List (Bool × String)) : String :=
  match ctor with
  | .subtype t =>
    match fields with
    | (true, text) :: _ => text
    | _ => describe D t
  | .product t => constructorName D t ++ renderFields (fields.map Prod.snd) false
  | .singleton t => singletonName D t
  | .exactly _ => constructorName D ty ++ renderFields (fields.map Prod.snd) false
  | .atLeast _ => constructorName D ty ++ renderFields (fields.map Prod.snd) true

mutual

/-- Whether a shape is more than any value, and its text. -/
def rendering (D : Declarations) : Gap → Bool × String
  | .any _ => (false, "_")
  | .made ctor ty fields => (true, renderMade D ctor ty (renderings D fields))

/-- The renderings of a list of shapes. -/
def renderings (D : Declarations) : List Gap → List (Bool × String)
  | [] => []
  | g :: rest => g.rendering D :: renderings D rest

end

def render (D : Declarations) (g : Gap) : String := (g.rendering D).2

end Gap

end CaseCover
