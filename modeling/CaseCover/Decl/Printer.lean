import CaseCover.Decl.Basic
import CaseCover.Decimal.Float64
import CaseCover.Text.Quoted

/-!
How types are written: built-in types and literals by their text, a data type by its
name with its arguments in brackets, a parameter by its name, and a union by its
members with bars between them.
-/

namespace CaseCover

/-- Floats are positional from a ten-thousandth up to below ten to the sixteenth,
keep a zero after the point of a whole number, and write an exponent after `e`. -/
def Literal.floatStyle : Decimal.FloatStyle := ⟨-4, 16, "0", "e"⟩

/-- A literal as it is written in a pattern. -/
def Literal.render : Literal → String
  | .int value => toString value
  | .float bits => floatStyle.write bits
  | .bool value => if value then "true" else "false"
  | .str value => Text.quoted value
  | .char value => Text.quotedChar value
  | .unit => "()"

namespace Declarations

/-- The name of a parameter, or a question mark beyond the parameter list. -/
def paramName (D : Declarations) (owner : DataId) (index : Nat) : String :=
  match (D.get owner).params[index]? with
  | some param => param.name
  | none => "?"

/-- The texts of the different types of a list, with bars between them. -/
def joinMembers (texts : List (Ty × String)) : String :=
  " | ".intercalate ((texts.eraseDupsBy fun a b => a.1 = b.1).map Prod.snd)

mutual

/-- The parts of a union from left to right, each with its text. -/
def leafTexts (D : Declarations) : Ty → List (Ty × String)
  | .union a b => leafTexts D a ++ leafTexts D b
  | .prim p => [(.prim p, p.name)]
  | .lit v => [(.lit v, v.render)]
  | .param o i => [(.param o i, D.paramName o i)]
  | .app adt args =>
    let name := (D.get adt).name
    match argTexts D args with
    | [] => [(.app adt args, name)]
    | texts => [(.app adt args, name ++ "[" ++ ", ".intercalate texts ++ "]")]

/-- The text of each type of a list. -/
def argTexts (D : Declarations) : List Ty → List String
  | [] => []
  | t :: rest => joinMembers (leafTexts D t) :: argTexts D rest

end

def render (D : Declarations) (t : Ty) : String := joinMembers (leafTexts D t)

/-- The texts of a list of types between braces, with bars between them. -/
def renderSet (D : Declarations) (types : List Ty) : String :=
  "\x7b" ++ " | ".intercalate (types.map D.render) ++ "\x7d"

end Declarations

end CaseCover
