import CaseCover.Query
import CaseCover.Ty.Flags
import Std.Data.HashMap

/-!
The table of the types that were built. Each different type gets a number, its handle,
when it is first built, after its parts; the built-in types have the first numbers. An
entry names its parts by their handles and keeps the type's flags.
-/

namespace CaseCover

/-- The number of a type in a table. -/
abbrev Handle := Nat

/-- A type with handles for its parts. -/
inductive TypeEntry
  | prim (p : Prim)
  | lit (value : Literal)
  | union (left right : Handle)
  | app (adt : DataId) (args : List Handle)
  | param (owner : DataId) (index : Nat)
  deriving DecidableEq, Repr

namespace TypeEntry

/-- The kind of an entry. -/
def tag : TypeEntry → TypeTag
  | .prim p => .prim p
  | .lit _ => .lit
  | .union _ _ => .union
  | .app _ _ => .app
  | .param _ _ => .param

/-- The handles of the parts. -/
def parts : TypeEntry → List Handle
  | .union a b => [a, b]
  | .app _ args => args
  | .prim _ | .lit _ | .param _ _ => []

end TypeEntry

/-- The types built so far: the entries and their flags by handle, and the handle of
each type. -/
structure TypeTable where
  entries : Array (TypeEntry × TypeFlags)
  handles : Std.HashMap Ty Handle

namespace TypeTable

def size (T : TypeTable) : Nat := T.entries.size

/-- The entry of a handle that was given out. -/
def entry? (T : TypeTable) (h : Handle) : Option TypeEntry :=
  T.entries[h]?.map Prod.fst

/-- The flags of a type; none are set for a handle not given out. -/
def flagsAt (T : TypeTable) (h : Handle) : TypeFlags :=
  (T.entries[h]?.map Prod.snd).getD default

/-- A new type at the end, under its entry. -/
def push (T : TypeTable) (t : Ty) (e : TypeEntry) : Handle × TypeTable :=
  let flags := e.tag.flags.withParts (e.parts.map T.flagsAt)
  let ⟨entries, handles⟩ := T
  let h := entries.size
  (h, ⟨entries.push (e, flags), handles.insert t h⟩)

mutual

/-- The handle of a type, which is added after its parts when it is new. -/
def build (T : TypeTable) (t : Ty) : Handle × TypeTable :=
  match T.handles[t]? with
  | some h => (h, T)
  | none =>
    match t with
    | .prim p => T.push (.prim p) (.prim p)
    | .lit v => T.push (.lit v) (.lit v)
    | .union a b =>
      let (left, T) := T.build a
      let (right, T) := T.build b
      T.push (.union a b) (.union left right)
    | .app adt args =>
      let (handles, T) := T.buildAll args
      T.push (.app adt args) (.app adt handles)
    | .param o i => T.push (.param o i) (.param o i)

/-- The handles of the types of a list, added from left to right. -/
def buildAll (T : TypeTable) : List Ty → List Handle × TypeTable
  | [] => ([], T)
  | t :: rest =>
    let (h, T) := T.build t
    let (handles, T) := T.buildAll rest
    (h :: handles, T)

end

def empty : TypeTable := ⟨#[], {}⟩

/-- The table of the built-in types. -/
def initial : TypeTable :=
  Prim.all.foldl (fun T p => (T.build (.prim p)).2) empty

/-- The table after the types of a trail were built. -/
def follow (T : TypeTable) (u : Trail) : TypeTable :=
  u.toList.foldl (fun T t => (T.build t).2) T

/-- The written form of a handle; the built-in types go by their names. -/
def renderHandle (h : Handle) : String :=
  "Idx(" ++
    (match Prim.all[h]? with
      | some p => p.name
      | none => toString h) ++ ")"

end TypeTable

end CaseCover
