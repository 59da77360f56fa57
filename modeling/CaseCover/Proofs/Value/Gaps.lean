import Mathlib.Data.List.Forall2
import CaseCover.Check.Matrix
import CaseCover.Proofs.Value.Shapes

/-!
How values are made, and which values a gap describes.
-/

namespace CaseCover

/-- A value is made in a way from fields. -/
inductive Ctor.Makes : Ctor → Value → List Value → Prop
  | subtype (t : Ty) (inner : Value) : Makes (.subtype inner.ty) (.viewed t inner) [inner]
  | product (t : Ty) (parts : List Value) : Makes (.product t) (.tuple t parts) parts
  | singleton (t : Ty) : Makes (.singleton t) (.single t) []
  | exactly (t : Ty) (elements : List Value) :
      Makes (.exactly elements.length) (.sequence t elements) elements
  /-- The fields of an open sequence are its first elements. -/
  | atLeast (t : Ty) {n : Nat} {elements : List Value} (hn : n ≤ elements.length) :
      Makes (.atLeast n) (.sequence t elements) (elements.take n)

/-- A number of fields that values made in a way can have. -/
def Ctor.Fits : Ctor → Nat → Prop
  | .subtype _, arity => arity = 1
  | .product _, _ => True
  | .singleton _, arity => arity = 0
  | .exactly n, arity | .atLeast n, arity => arity = n

theorem Ctor.Makes.fits {ctor : Ctor} {v : Value} {fields : List Value}
    (hmade : ctor.Makes v fields) : ctor.Fits fields.length := by
  cases hmade with
  | subtype => rfl
  | product => trivial
  | singleton => rfl
  | exactly => rfl
  | atLeast t hn => exact List.length_take_of_le hn

/-- A gap describes a value: any of its type, or one made in its way from fields that
its fields describe. -/
inductive Gap.Describes : Gap → Value → Prop
  | any (v : Value) : Describes (.any v.ty) v
  | made {ctor : Ctor} {v : Value} {fields : List Value} {gaps : List Gap}
      (hmade : ctor.Makes v fields) (hlength : gaps.length = fields.length)
      (hfields : ∀ q ∈ gaps.zip fields, Describes q.1 q.2) :
      Describes (.made ctor v.ty gaps) v

/-- A vector of gaps describes a vector of values. -/
def GapsDescribe (gaps : List Gap) (values : List Value) : Prop :=
  List.Forall₂ Gap.Describes gaps values

/-- Gaps for the fields of a value, regrouped, describe the value. -/
theorem describes_regroup {ctor : Ctor} {v : Value} {fields values : List Value}
    {gaps : List Gap} (hmade : ctor.Makes v fields)
    (hgaps : GapsDescribe gaps (fields ++ values)) :
    GapsDescribe (Checker.regroup ctor v.ty fields.length gaps) (v :: values) := by
  have hfields : GapsDescribe (gaps.take fields.length) fields :=
    List.forall₂_take_append gaps fields values hgaps
  have hrest : GapsDescribe (gaps.drop fields.length) values :=
    List.forall₂_drop_append gaps fields values hgaps
  obtain ⟨hlength, hzip⟩ := List.forall₂_iff_zip.1 hfields
  exact .cons (.made hmade hlength fun q hq => hzip hq) hrest

/-- Values that regrouped gaps describe start with one made from fields that the gaps for the
fields describe. -/
theorem of_describes_regroup {ctor : Ctor} {ty : Ty} {arity : Nat} {gaps : List Gap}
    {values : List Value} (h : GapsDescribe (Checker.regroup ctor ty arity gaps) values) :
    ∃ v fields rest, values = v :: rest ∧ v.ty = ty ∧ ctor.Makes v fields ∧
      GapsDescribe gaps (fields ++ rest) := by
  cases h with
  | @cons _ v _ rest hmade hrest =>
      cases hmade with
      | @made _ _ fields _ hmade hlength hfields =>
          refine ⟨v, fields, rest, rfl, rfl, hmade, ?_⟩
          have htaken : GapsDescribe (gaps.take arity) fields :=
            List.forall₂_iff_zip.2 ⟨hlength, fun hq => hfields _ hq⟩
          have happend : GapsDescribe (gaps.take arity ++ gaps.drop arity) (fields ++ rest) :=
            List.rel_append htaken hrest
          rwa [List.take_append_drop] at happend

end CaseCover
