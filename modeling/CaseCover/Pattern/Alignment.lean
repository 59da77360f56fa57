import CaseCover.Hierarchy.Ancestry

/-!
Where the parameters of a product occur in its fields. An occurrence is a path of
argument positions from a field's declared type, and `project` follows it through a
type matched at that field, so that what is matched there says something about the
parameter.
-/

namespace CaseCover

/-- One occurrence of a product's parameter in the type of one of its fields. -/
structure Occurrence where
  /-- The position of the field. -/
  field : Nat
  /-- The position of the parameter. -/
  param : Nat
  /-- The argument positions that lead from the field's type to the parameter. -/
  path : List Nat
  deriving DecidableEq, Repr

def Occurrence.isDirect (o : Occurrence) : Bool := o.path.isEmpty

namespace Declarations

mutual

/-- The occurrences of the parameters of `owner` in a type, from left to right, as a
parameter position with its path. Nothing is looked for inside unions. -/
def occurrencesIn (owner : DataId) : Ty → List (Nat × List Nat)
  | .param o i => if o = owner then [(i, [])] else []
  | .app _ args => occurrencesInArgs owner 0 args
  | .prim _ | .lit _ | .union _ _ => []

/-- The occurrences in a list of arguments whose first has the given position. -/
def occurrencesInArgs (owner : DataId) : Nat → List Ty → List (Nat × List Nat)
  | _, [] => []
  | position, t :: rest =>
    (occurrencesIn owner t).map (fun found => (found.1, position :: found.2)) ++
      occurrencesInArgs owner (position + 1) rest

end

/-- The occurrences of a data type's parameters, in one list for each field. -/
def alignment (D : Declarations) (adt : DataId) : List (List Occurrence) :=
  (D.get adt).fields.zipIdx.map fun (field, position) =>
    (occurrencesIn adt field.ty).map fun (param, path) => ⟨position, param, path⟩

/-- What stands in `actual` where a path leads in `declared`. At each step the actual
type is viewed as the declared one's data type first; where that is impossible, or
nothing is known, the result is unconstrained. -/
def project (D : Declarations) : Ty → Ty → List Nat → Traced Ty
  | actual, _, [] => pure actual
  | actual, declared, step :: path =>
    if actual = .noType then pure .noType
    else
      match declared with
      | .app level inner => do
        match ← D.upcast actual level with
        | none => pure .noType
        | some view =>
          match view.args[step]?, inner[step]? with
          | some next, some nextLevel => project D next nextLevel path
          | _, _ => pure .noType
      | _ => pure .noType

end Declarations

/-- Alignments found so far, by data type. An alignment stays as it was found, also
when the data type gets other fields later. -/
structure FieldCache where
  resolved : List (DataId × List (List Occurrence)) := []
  deriving Repr

namespace FieldCache

instance : Inhabited FieldCache := ⟨{}⟩

def size (cache : FieldCache) : Nat := cache.resolved.length

/-- The alignment of a data type, known or found and then kept. -/
def resolve (cache : FieldCache) (D : Declarations) (adt : DataId) :
    List (List Occurrence) × FieldCache :=
  match cache.resolved.lookup adt with
  | some found => (found, cache)
  | none => (D.alignment adt, ⟨(adt, D.alignment adt) :: cache.resolved⟩)

end FieldCache

end CaseCover
