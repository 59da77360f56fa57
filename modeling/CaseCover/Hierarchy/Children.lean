import CaseCover.Hierarchy.Join

/-!
The closed-world view of a type: the direct subtypes that exhaust it, whether finitely
many shapes describe its values, and the instantiated fields of a product.
-/

namespace CaseCover

namespace Hierarchy

mutual

/-- Solve for the parameters of `owner` by matching a type that mentions them with
an actual type. A parameter that occurs again is bound to the join of what it is
matched with; shapes that differ bind nothing. -/
def bindParams (H : Hierarchy) (owner : DataId) :
    Ty → Ty → List (Option Ty) → Query (List (Option Ty))
  | .param o i, actual, bindings =>
    if o = owner then
      match bindings[i]? with
      | none => pure bindings
      | some none => pure (bindings.set i (some actual))
      | some (some known) => do
        return bindings.set i (some (← H.lub known actual))
    else pure bindings
  | .app d args, .app e actuals, bindings =>
    if d = e then bindParamsList H owner args actuals bindings else pure bindings
  | _, _, bindings => pure bindings

/-- Solve for the parameters of `owner` along two lists of arguments. -/
def bindParamsList (H : Hierarchy) (owner : DataId) :
    List Ty → List Ty → List (Option Ty) → Query (List (Option Ty))
  | t :: rest, actual :: actuals, bindings => do
    bindParamsList H owner rest actuals (← bindParams H owner t actual bindings)
  | _, _, bindings => pure bindings

end

/-- The application of `child` that is a `target`, if there is one. The child's
parameters are solved by matching its view as the target's data type with the target;
one that stays open becomes `any`. -/
def instantiateChild (H : Hierarchy) (child : DataId) (target : Ty) :
    Query (Option Ty) :=
  match target with
  | .app parent actuals => do
    let arity := (H.decls.get child).arity
    let args : Option (List Ty) ←
      if arity = 0 then pure (some [])
      else do
        let generic ← Query.build (H.decls.genericSelf child)
        match ← H.decls.upcast generic parent with
        | none => pure none
        | some view =>
          let bindings ←
            H.bindParamsList child view.args actuals (List.replicate arity none)
          pure (some (bindings.map (·.getD .any)))
    match args with
    | none => pure none
    | some args =>
      let candidate ← Query.build (.app child args)
      return if ← H.isSubtype candidate target then some candidate else none
  | _ => pure none

/-- The direct subtypes that exhaust a closed type: the two literals of `bool`, the
members of a union, and the children of a sealed type that have an instance under it.
Other types have none. -/
def directSubtypes (H : Hierarchy) : Ty → Query (List Ty)
  | .prim .bool => do
    let yes ← Query.build (.ofLiteral (.bool true))
    let no ← Query.build (.ofLiteral (.bool false))
    return [yes, no]
  | .union a b => pure (Ty.union a b).members
  | .app adt args =>
    let decl := H.decls.get adt
    if decl.isSealed then
      Query.filterMap (fun child => H.instantiateChild child (.app adt args))
        decl.children
    else pure []
  | _ => pure []

end Hierarchy

namespace Declarations

/-- Whether finitely many shapes describe the values of a type: so for `never`,
`bool`, the unit type, literals, unions and every data type that is not an open
abstract type. -/
def isClosed (D : Declarations) : Ty → Bool
  | .prim p => p == .bool || p == .unit || p == .never
  | .lit _ => true
  | .union _ _ => true
  | .app adt _ => (D.get adt).kind != .abstractType false
  | .param _ _ => false

/-- The fields of an application of a product, with its arguments put in. -/
def fieldsOf (D : Declarations) : Ty → Traced (List Field)
  | .app adt args =>
    let fields := (D.get adt).fields.map fun field =>
      { field with ty := field.ty.substitute adt args }
    ⟨fields, Trail.ofList (fields.map Field.ty)⟩
  | _ => pure []

end Declarations

end CaseCover
