import CaseCover.Hierarchy.Subtyping
import CaseCover.Source.NameTable
import CaseCover.Ty.Sharing
import CaseCover.Ty.Table

/-!
A workspace holds what a client has declared, the names it has used and the types that
were built for it. Answering a question changes nothing but the types built, and those
show only in the handles of the type table (`types_follow`); which objects stand for
them never shows (`build_fst`). `Workspace.initial` has the data types that
every workspace starts with.
-/

namespace CaseCover

/-- The declarations, names and types of a client. -/
structure Workspace where
  decls : Declarations := .empty
  names : NameTable := .initial
  /-- The types built so far. -/
  types : TypeTable := .initial
  /-- The objects that stand for the types built so far. -/
  sharing : Sharing := .empty

namespace Workspace

/-- The depth to which questions may be nested. A question that ends stays far below
it. -/
def questionLimit : Nat := 1000000

def hierarchy (w : Workspace) : Hierarchy := ⟨w.decls, questionLimit⟩

/-- The workspace after a text has been used as a name. -/
def useName (w : Workspace) (text : String) : Workspace :=
  { w with names := w.names.insert text }

/-- A type, built: the object that stands for it, and the workspace that knows it. -/
def build (w : Workspace) (t : Ty) : Ty × Workspace :=
  let ⟨decls, names, types, sharing⟩ := w
  let shared := sharing.share t
  (shared.1, ⟨decls, names, (types.build shared.1).2, shared.2⟩)

/-- What is built is the type itself. -/
@[simp] theorem build_fst (w : Workspace) (t : Ty) : (w.build t).1 = t :=
  w.sharing.share_eq t

/-- Building a type adds it to the types built. -/
@[simp] theorem types_build (w : Workspace) (t : Ty) :
    (w.build t).2.types = (w.types.build t).2 :=
  congrArg (fun u => (w.types.build u).2) (w.sharing.share_eq t)

/-- The workspace after types have been built. -/
def follow (w : Workspace) (u : Trail) : Workspace :=
  u.toList.foldl (fun w t => (w.build t).2) w

/-- The types of a trail are built in its order. -/
theorem types_follow (w : Workspace) (u : Trail) :
    (w.follow u).types = w.types.follow u := by
  unfold follow TypeTable.follow
  induction u.toList generalizing w with
  | nil => rfl
  | cons t rest ih => rw [List.foldl_cons, List.foldl_cons, ih, types_build]

/-- The answer to a question, and the workspace after the types on the way have been
built. -/
def answer {α : Type} (w : Workspace) (q : Query α) : Option α × Workspace :=
  (q.value?, w.follow q.trail)

/-- The singleton type of a literal, built; a text is used as a name. -/
def literal (w : Workspace) (value : Literal) : Ty × Workspace :=
  let w := match value with
    | .str text => w.useName text
    | _ => w
  w.build (.ofLiteral value)

/-- Declare a data type. -/
def declare (w : Workspace) (name : String) (params : List TypeParam)
    (kind : DataKind) : DataId × Workspace :=
  let (id, decls) := w.decls.declare name params kind
  (id, { w with decls, names := w.names.insertAll (name :: params.map TypeParam.name) })

/-- Set the fields of a product. -/
def defineFields (w : Workspace) (id : DataId) (fields : List Field) : Workspace :=
  { w with
    decls := w.decls.defineFields id fields
    names := w.names.insertAll (fields.map Field.name) }

/-- Record a direct supertype of a data type. -/
def extend (w : Workspace) (child : DataId) (parent : Ty) : Workspace :=
  { w with decls := w.decls.extend child parent }

/-- Declare a sealed type with covariant parameters. -/
def declareSealed (w : Workspace) (name : String) (params : List String) :
    DataId × Workspace :=
  w.declare name (params.map (⟨·, .covariant⟩)) (.abstractType true)

/-- Declare a product with covariant parameters and one field for each of them. -/
def declareTuple (w : Workspace) (name : String) (fields : List (String × String)) :
    DataId × Workspace :=
  let (id, w) := w.declare name (fields.map (⟨·.2, .covariant⟩)) (.product [])
  let typed := fields.zipIdx.map fun (field, i) => (⟨field.1, .param id i⟩ : Field)
  let w := w.follow (.ofList (typed.map Field.ty))
  (id, w.defineFields id typed)

/-- Build a type and record it as a direct supertype of a data type. -/
def extendBy (w : Workspace) (child : DataId) (parent : Ty) : Workspace :=
  (w.build parent).2.extend child parent

/-- The ids of the data types that every workspace has. -/
structure KnownTypes where
  option : DataId
  some : DataId
  none : DataId
  either : DataId
  left : DataId
  right : DataId
  tuple2 : DataId
  list : DataId
  deriving DecidableEq, Repr

/-- The positions of the data types that every workspace has. -/
def known : KnownTypes := ⟨⟨0⟩, ⟨1⟩, ⟨2⟩, ⟨3⟩, ⟨4⟩, ⟨5⟩, ⟨6⟩, ⟨7⟩⟩

/-- The workspace that knows optional values, alternatives of two, pairs and lists. -/
def initial : Workspace :=
  let w : Workspace := {}
  let (option, w) := w.declareSealed "Option" ["A"]
  let (present, w) := w.declareTuple "Some" [("value", "A")]
  let w := w.extendBy present (.app option [.param present 0])
  let (absent, w) := w.declare "None" [] .singleton
  let w := w.extendBy absent (.app option [.never])
  let (either, w) := w.declareSealed "Either" ["L", "R"]
  let (left, w) := w.declareTuple "Left" [("value", "L")]
  let w := w.extendBy left (.app either [.param left 0, .never])
  let (right, w) := w.declareTuple "Right" [("value", "R")]
  let w := w.extendBy right (.app either [.never, .param right 0])
  let (_, w) := w.declareTuple "Tuple2" [("_1", "A"), ("_2", "B")]
  (w.declare "List" [⟨"A", .covariant⟩] .sequence).2

instance : Inhabited Workspace := ⟨initial⟩

/-- The sizes of a workspace. -/
def render (w : Workspace) : String :=
  "Pool \x7b types: " ++ toString w.types.size ++ ", adts: " ++
    toString w.decls.size ++ ", .. \x7d"

end Workspace

end CaseCover
