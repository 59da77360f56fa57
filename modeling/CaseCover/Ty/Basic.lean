/-!
Types as trees: the built-in types, singleton types of literals, binary unions,
data types applied to arguments, and the parameters of data types. Equality of
types is equality of trees (`Ty.instDecidableEq`), and `Ty.induct` is induction
with a hypothesis for every argument of an applied data type. Types share many of
their parts, so equality looks for a shared part before it walks through one, and a
type keeps its hash value (`Ty.digest`).
-/

namespace CaseCover

/-- The built-in types. -/
inductive Prim
  /-- No values; part of every union. -/
  | never
  /-- Every value. -/
  | any
  /-- The position that a pattern leaves unconstrained. -/
  | noType
  | int
  | float
  | bool
  | str
  | char
  /-- The type with exactly one value. -/
  | unit
  deriving DecidableEq, Hashable, Repr, Inhabited

namespace Prim

def all : List Prim := [never, any, noType, int, float, bool, str, char, unit]

/-- The written name. -/
def name : Prim → String
  | never => "never"
  | any => "any"
  | noType => "<notype>"
  | int => "int"
  | float => "float"
  | bool => "bool"
  | str => "str"
  | char => "char"
  | unit => "()"

def named? (text : String) : Option Prim := all.find? fun p => p.name == text

theorem mem_all (p : Prim) : p ∈ all := by cases p <;> simp [all]

end Prim

/-- A literal value. A float is held by its binary64 bit pattern, so that equal
literals are written alike. -/
inductive Literal
  | int (value : Int)
  | float (bits : UInt64)
  | bool (value : Bool)
  | str (value : String)
  | char (value : Char)
  | unit
  deriving DecidableEq, Repr, Inhabited

/-- Literals are hashed by their kind and value, characters by their code point. -/
instance : Hashable Literal where
  hash
    | .int value => mixHash 0 (hash value)
    | .float bits => mixHash 1 (hash bits)
    | .bool value => mixHash 2 (hash value)
    | .str value => mixHash 3 (hash value)
    | .char value => mixHash 4 (hash value.toNat)
    | .unit => 5

/-- The built-in type that a literal widens to. -/
def Literal.base : Literal → Prim
  | .int _ => .int
  | .float _ => .float
  | .bool _ => .bool
  | .str _ => .str
  | .char _ => .char
  | .unit => .unit

/-- The position of a declared data type among the declarations. -/
structure DataId where
  index : Nat
  deriving DecidableEq, Hashable, Repr, Inhabited

/-- A type. -/
inductive Ty
  /-- A built-in type. -/
  | prim (p : Prim)
  /-- The singleton type of a literal. -/
  | lit (value : Literal)
  /-- The values of either side. -/
  | union (left right : Ty)
  /-- A declared data type applied to arguments. -/
  | app (adt : DataId) (args : List Ty)
  /-- A parameter of a declared data type. -/
  | param (owner : DataId) (index : Nat)
with
  /-- The hash value, made from those of the parts. -/
  @[computed_field] digest : Ty → UInt64
    | .prim p => mixHash 11 (hash p)
    | .lit value => mixHash 12 (hash value)
    | .union left right => mixHash 13 (mixHash left.digest right.digest)
    | .app adt args => args.foldl (fun h a => mixHash h a.digest) (mixHash 14 (hash adt))
    | .param owner index => mixHash 15 (mixHash (hash owner) (hash index))
  /-- The number of nodes of the tree. -/
  @[computed_field] size : Ty → Nat
    | .prim _ => 1
    | .lit _ => 1
    | .union left right => left.size + right.size + 1
    | .app _ args => args.foldl (fun n a => n + a.size) 1
    | .param _ _ => 1
  deriving Repr

namespace Ty

instance : Hashable Ty := ⟨digest⟩

instance : Inhabited Ty := ⟨.prim .never⟩

/-- The bottom type. -/
abbrev never : Ty := .prim .never

/-- The top type. -/
abbrev any : Ty := .prim .any

/-- The position that a pattern leaves unconstrained. -/
abbrev noType : Ty := .prim .noType

/-- The type of the unit value. -/
abbrev unit : Ty := .prim .unit

/-- Induction on a type, with a hypothesis for every argument of an applied data
type. -/
@[elab_as_elim, induction_eliminator]
theorem induct {P : Ty → Prop} (prim : ∀ p, P (.prim p)) (lit : ∀ v, P (.lit v))
    (union : ∀ a b, P a → P b → P (.union a b))
    (app : ∀ d args, (∀ a ∈ args, P a) → P (.app d args))
    (param : ∀ o i, P (.param o i)) (t : Ty) : P t :=
  Ty.rec (motive_1 := P) (motive_2 := fun args => ∀ a ∈ args, P a)
    prim lit union (fun d args h => app d args h) param
    (fun _ h => absurd h List.not_mem_nil)
    (fun _ _ hd tl a ha => (List.mem_cons.1 ha).elim (fun e => e ▸ hd) (tl a)) t

mutual

/-- Equality of trees, decided. Parts that are one object in memory are equal without
being walked through. -/
def decEq : (a b : Ty) → Decidable (a = b)
  | .prim p, .prim q =>
    if h : p = q then .isTrue (h ▸ rfl) else .isFalse fun e => h (Ty.prim.inj e)
  | .lit v, .lit w =>
    if h : v = w then .isTrue (h ▸ rfl) else .isFalse fun e => h (Ty.lit.inj e)
  | .union a b, .union c d =>
    match withPtrEqDecEq a c fun _ => decEq a c with
    | .isFalse h => .isFalse fun e => h (Ty.union.inj e).1
    | .isTrue h =>
      match withPtrEqDecEq b d fun _ => decEq b d with
      | .isFalse k => .isFalse fun e => k (Ty.union.inj e).2
      | .isTrue k => .isTrue (by rw [h, k])
  | .app d args, .app e args' =>
    if h : d = e then
      match decEqList args args' with
      | .isFalse k => .isFalse fun q => k (Ty.app.inj q).2
      | .isTrue k => .isTrue (by rw [h, k])
    else .isFalse fun q => h (Ty.app.inj q).1
  | .param o i, .param p j =>
    if h : o = p ∧ i = j then .isTrue (by rw [h.1, h.2])
    else .isFalse fun e => h (Ty.param.inj e)
  | .prim _, .lit _ | .prim _, .union _ _ | .prim _, .app _ _ | .prim _, .param _ _
  | .lit _, .prim _ | .lit _, .union _ _ | .lit _, .app _ _ | .lit _, .param _ _
  | .union _ _, .prim _ | .union _ _, .lit _ | .union _ _, .app _ _
  | .union _ _, .param _ _ | .app _ _, .prim _ | .app _ _, .lit _
  | .app _ _, .union _ _ | .app _ _, .param _ _ | .param _ _, .prim _
  | .param _ _, .lit _ | .param _ _, .union _ _ | .param _ _, .app _ _ =>
    .isFalse nofun

/-- Equality of argument lists, decided. -/
def decEqList : (as bs : List Ty) → Decidable (as = bs)
  | [], [] => .isTrue rfl
  | a :: as, b :: bs =>
    match withPtrEqDecEq a b fun _ => decEq a b with
    | .isFalse h => .isFalse fun e => h (List.cons.inj e).1
    | .isTrue h =>
      match decEqList as bs with
      | .isFalse k => .isFalse fun e => k (List.cons.inj e).2
      | .isTrue k => .isTrue (by rw [h, k])
  | [], _ :: _ | _ :: _, [] => .isFalse nofun

end

/-- The number of nodes up to which a tree is walked through as it stands. -/
def walkedSize : Nat := 65536

/-- Equality of trees, decided by the hash values first. Large trees are laid out anew
with every part only once, so that equal parts are one object and the walk is no
longer than the trees have different parts. -/
def decEqShared (a b : Ty) : Decidable (a = b) :=
  if h : a.digest = b.digest then
    if a.size ≤ walkedSize then decEq a b
    else
      let shared := ShareCommon.shareCommon' (a, b)
      withPtrEqDecEq shared.1 shared.2 fun _ => decEq shared.1 shared.2
  else .isFalse fun e => h (e ▸ rfl)

/-- Equality of trees, decided. By definition it is the walk through both; as no object
lies at address 0, what runs is the way that makes use of sharing, and there are no two
decisions to tell apart. -/
instance instDecidableEq : DecidableEq Ty := fun a b =>
  withPtrEqDecEq a b fun _ =>
    withPtrAddr a (fun address => if address = 0 then decEq a b else decEqShared a b)
      fun _ _ => Subsingleton.elim _ _

/-- The singleton type of a literal; that of the unit value is the unit type. -/
def ofLiteral : Literal → Ty
  | .unit => unit
  | value => .lit value

/-- The number of positions that a parameter can have. -/
def positionCount : Nat := 4294967296

/-- The parameter of a data type at a position, which is counted in 32 bits. -/
def parameter (owner : DataId) (position : Nat) : Ty :=
  .param owner (position % positionCount)

/-- The union of two types, in which an equal or an empty side is dropped. -/
def join (a b : Ty) : Ty :=
  if a = b ∨ b = never then a else if a = never then b else .union a b

/-- The union of a list of types, nested to the left; `never` for an empty list. -/
def joinAll : List Ty → Ty
  | [] => never
  | t :: rest => rest.foldl join t

/-- A data type applied to its own first parameters. -/
def ownApplication (adt : DataId) (arity : Nat) : Ty :=
  .app adt ((List.range arity).map (.param adt))

/-- The type without the detail of a literal. -/
def widen : Ty → Ty
  | .lit value => .prim value.base
  | t => t

/-- The data type and the arguments of an applied data type. -/
def app? : Ty → Option (DataId × List Ty)
  | .app adt args => some (adt, args)
  | _ => none

/-- The data type of an applied data type. -/
def constructor? : Ty → Option DataId
  | .app adt _ => some adt
  | _ => none

/-- The arguments of an applied data type; other types have none. -/
def args : Ty → List Ty
  | .app _ args => args
  | _ => []

/-- The parts of a union from left to right, with repetitions. -/
def leaves : Ty → List Ty
  | .union a b => a.leaves ++ b.leaves
  | t => [t]

/-- The members of a union: its parts from left to right, each where it stands
first. Any other type is its own single member. -/
def members (t : Ty) : List Ty := t.leaves.eraseDups

mutual

/-- The type with the parameters of `owner` replaced by `args`; a parameter beyond
the list becomes `any`. Unions are joined again, so equal or empty sides vanish. -/
def substitute (owner : DataId) (args : List Ty) : Ty → Ty
  | .param o i => if o = owner then args[i]?.getD any else .param o i
  | .union a b => join (a.substitute owner args) (b.substitute owner args)
  | .app adt inner => .app adt (substituteList owner args inner)
  | .prim p => .prim p
  | .lit v => .lit v

/-- Each type of a list with the parameters of `owner` replaced by `args`. -/
def substituteList (owner : DataId) (args : List Ty) : List Ty → List Ty
  | [] => []
  | t :: rest => t.substitute owner args :: substituteList owner args rest

end

theorem substituteList_eq_map (owner : DataId) (args inner : List Ty) :
    substituteList owner args inner = inner.map (substitute owner args) := by
  induction inner with
  | nil => rfl
  | cons t rest ih => simp [substituteList, ih]

@[simp] theorem substitute_app (owner adt : DataId) (args inner : List Ty) :
    (Ty.app adt inner).substitute owner args =
      .app adt (inner.map (substitute owner args)) := by
  rw [substitute, substituteList_eq_map]

@[simp] theorem join_self (a : Ty) : join a a = a := by simp [join]

@[simp] theorem join_never (a : Ty) : join a never = a := by simp [join]

@[simp] theorem never_join (a : Ty) : join never a = a := by
  by_cases h : a = never
  · simp [join, h]
  · simp [join, h, Ne.symm h]

end Ty

end CaseCover
