import CaseCover.Ty.Basic

/-!
Declared data types: their parameters with variance, their kind, and the parents
they extend. Declarations only grow; a data type gets its fields and its parents
after it has been declared, so that they can mention its parameters.
-/

namespace CaseCover

/-- How an argument may change when an application is viewed at a supertype. -/
inductive Variance
  | covariant
  | contravariant
  | invariant
  deriving DecidableEq, Repr, Inhabited

/-- A parameter of a data type. -/
structure TypeParam where
  name : String
  variance : Variance
  deriving DecidableEq, Repr

/-- A named part of a product: declared, in terms of the parameters of its data
type, or instantiated. -/
structure Field where
  name : String
  ty : Ty
  deriving DecidableEq, Repr

/-- What the values of a data type are. -/
inductive DataKind
  /-- The values of its children; only a sealed type has a known set of them. -/
  | abstractType (isSealed : Bool)
  /-- Tuples with one value per field. -/
  | product (fields : List Field)
  /-- One value. -/
  | singleton
  /-- Finite lists over its only parameter. -/
  | sequence
  deriving DecidableEq, Repr

/-- A declared data type. -/
structure DataType where
  name : String
  params : List TypeParam
  kind : DataKind
  /-- The direct supertypes, in terms of the parameters. -/
  parents : List Ty := []
  /-- The data types that extend this one, in the order in which they first did. -/
  children : List DataId := []
  deriving DecidableEq, Repr

namespace DataType

instance : Inhabited DataType := ⟨⟨"", [], .abstractType false, [], []⟩⟩

def arity (d : DataType) : Nat := d.params.length

/-- The declared fields; only a product has any. -/
def fields (d : DataType) : List Field :=
  match d.kind with
  | .product fields => fields
  | _ => []

def isSealed (d : DataType) : Bool := d.kind == .abstractType true

/-- Whether its values are tuples. -/
def isProduct (d : DataType) : Bool :=
  match d.kind with
  | .product _ => true
  | _ => false

def isSingleton (d : DataType) : Bool := d.kind == .singleton

def isSequence (d : DataType) : Bool := d.kind == .sequence

end DataType

/-- The data types declared so far; a data type's position is its id. -/
structure Declarations where
  items : Array DataType
  deriving Repr

/-- An application with another number of arguments than the data type has
parameters. -/
structure ArityError where
  name : String
  deriving DecidableEq, Repr

/-- The wording of a wrong number of arguments. -/
def ArityError.message (e : ArityError) : String :=
  "wrong number of type arguments for " ++ e.name

namespace Declarations

def empty : Declarations := ⟨#[]⟩

instance : Inhabited Declarations := ⟨empty⟩

def size (D : Declarations) : Nat := D.items.size

/-- The declaration of a data type. An id that was not given out has an empty
declaration. -/
def get (D : Declarations) (id : DataId) : DataType :=
  D.items[id.index]?.getD default

/-- The declared data types with their ids. -/
def toList (D : Declarations) : List (DataId × DataType) :=
  (List.range D.size).map fun i => (⟨i⟩, D.get ⟨i⟩)

/-- The first declared data type of a name. -/
def named? (D : Declarations) (name : String) : Option DataId :=
  (D.items.findIdx? fun d => d.name == name).map DataId.mk

/-- Change the declaration of one data type. -/
def modify (D : Declarations) (id : DataId) (f : DataType → DataType) : Declarations :=
  ⟨D.items.modify id.index f⟩

/-- Declare a data type without parents; it gets the next id. -/
def declare (D : Declarations) (name : String) (params : List TypeParam)
    (kind : DataKind) : DataId × Declarations :=
  (⟨D.size⟩, ⟨D.items.push ⟨name, params, kind, [], []⟩⟩)

/-- Set the fields of a product; other data types keep none. -/
def defineFields (D : Declarations) (id : DataId) (fields : List Field) : Declarations :=
  D.modify id fun d => { d with kind :=
    match d.kind with
    | .product _ => .product fields
    | kind => kind }

/-- Record a direct supertype of a data type, which becomes a child of the
supertype's data type unless it is one already. -/
def extend (D : Declarations) (child : DataId) (parent : Ty) : Declarations :=
  let D := D.modify child fun d => { d with parents := d.parents ++ [parent] }
  match parent.constructor? with
  | none => D
  | some up => D.modify up fun d => { d with children :=
      if child ∈ d.children then d.children else d.children ++ [child] }

/-- A data type applied to arguments, one for each of its parameters. -/
def application? (D : Declarations) (id : DataId) (args : List Ty) :
    Except ArityError Ty :=
  if args.length = (D.get id).arity then .ok (.app id args)
  else .error ⟨(D.get id).name⟩

/-- A data type applied to its own parameters. -/
def genericSelf (D : Declarations) (id : DataId) : Ty :=
  Ty.ownApplication id (D.get id).arity

/-- The number of recorded parents over all data types. A walk along parents that
expands each data type once takes no more steps than this and one for its start. -/
def parentCount (D : Declarations) : Nat :=
  D.items.foldl (fun count d => count + d.parents.length) 0

end Declarations

end CaseCover
