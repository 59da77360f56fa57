import CaseCover.Ty.Basic
import Std.Data.HashMap

/-!
Equal types as one object. Types that are computed anew may be equal to types that are
known already, and comparing the two means walking through both. `Sharing.share`
replaces the parts of a type, from the innermost outwards, by the first objects that
were met with these values, so that types that went through it are compared by looking
at where they lie. What is remembered depends on addresses and is therefore kept under
a `Squash`: no two sharings can be told apart, and the result is the type itself
(`share_eq`).
-/

namespace CaseCover

/-- Objects met so far. -/
structure Sharing.Memory where
  /-- The object that stands for a value, by its hash value. -/
  chosen : Std.HashMap UInt64 Ty := {}
  /-- Objects by where they lie, each with the one that stands for it. -/
  met : Std.HashMap USize { pair : Ty × Ty // pair.2 = pair.1 } := {}

/-- What is remembered about objects, without a way to tell what it is. -/
abbrev Sharing := Squash Sharing.Memory

namespace Sharing

/-- Where an object lies, by its address; the lowest bits are equal for all objects. -/
@[inline]
def place (address : USize) : USize := address >>> 3

def empty : Sharing := .mk {}

instance : Inhabited Sharing := ⟨empty⟩

/-- An object with a given value. -/
abbrev Object (t : Ty) := { u : Ty // u = t }

instance (t : Ty) : Subsingleton (Object t) :=
  ⟨fun a b => Subtype.ext (a.2.trans b.2.symm)⟩

/-- The number of nodes up to which types are walked through instead. -/
def smallSize : Nat := 32

/-- Remember which object stands for another. -/
@[inline]
def note (S : Sharing) (t : Ty) (u : Object t) : Sharing :=
  S.lift fun ⟨chosen, met⟩ =>
    withPtrAddr t (fun address => .mk ⟨chosen, met.insert (place address) ⟨(t, u), u.2⟩⟩)
      fun _ _ => Subsingleton.elim _ _

/-- The object that stands for a type: the one that is remembered for the given object,
or else the one that `settle` gives, which is then remembered. -/
@[inline]
def find (S : Sharing) (t : Ty) (settle : Sharing → Object t × Sharing) :
    Object t × Sharing :=
  let unmet (S : Sharing) : Object t × Sharing :=
    let (u, S) := settle S
    (u, S.note t u)
  S.lift fun memory =>
    withPtrAddr t
      (fun address =>
        match memory.met[place address]? with
        | some known =>
          if h : known.1.1 = t then (⟨known.1.2, known.2.trans h⟩, .mk memory)
          else unmet (.mk memory)
        | none => unmet (.mk memory))
      fun _ _ => Subsingleton.elim _ _

/-- The object that stands for a type made from shared parts: one that was chosen
before, or else the given one. -/
@[inline]
def represent (S : Sharing) {t : Ty} (made : Object t) : Object t × Sharing :=
  S.lift fun ⟨chosen, met⟩ =>
    match chosen[made.1.digest]? with
    | some u =>
      match Ty.decEq u made.1 with
      | .isTrue h => (⟨u, h.trans made.2⟩, .mk ⟨chosen, met⟩)
      | .isFalse _ => (made, .mk ⟨chosen, met⟩)
    | none =>
      (made, note (.mk ⟨chosen.insert made.1.digest made.1, met⟩) made.1 ⟨made.1, rfl⟩)

mutual

/-- The object that stands for a type. -/
def share (S : Sharing) (t : Ty) : Object t × Sharing :=
  if t.size ≤ smallSize then (⟨t, rfl⟩, S)
  else S.find t fun S =>
    match t with
    | .union a b =>
      let (u, S) := share S a
      let (v, S) := share S b
      S.represent ⟨.union u v, by rw [u.2, v.2]⟩
    | .app adt args =>
      let (us, S) := shareList S args
      S.represent ⟨.app adt us, by rw [us.2]⟩
    | .prim p => (⟨.prim p, rfl⟩, S)
    | .lit v => (⟨.lit v, rfl⟩, S)
    | .param o i => (⟨.param o i, rfl⟩, S)

/-- The objects that stand for the types of a list. -/
def shareList (S : Sharing) (types : List Ty) : { us : List Ty // us = types } × Sharing :=
  match types with
  | [] => (⟨[], rfl⟩, S)
  | t :: rest =>
    let (u, S) := share S t
    let (us, S) := shareList S rest
    (⟨u :: us, by rw [u.2, us.2]⟩, S)

end

/-- Sharing does not change a type. -/
theorem share_eq (S : Sharing) (t : Ty) : (S.share t).1.1 = t := (S.share t).1.2

end Sharing

end CaseCover
