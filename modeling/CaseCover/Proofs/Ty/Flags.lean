import CaseCover.Ty.Flags

/-!
The properties of a type from those of its parts. What walking through a whole type finds is
what its root says together with what each part passes on, so a table that keeps the
properties of every type never has to walk (`flags_union`, `flags_app`).
-/

namespace CaseCover

namespace TypeFlags

/-- The parts add to the three properties that are passed on, and to no other. -/
theorem withParts_eq (f : TypeFlags) (parts : List TypeFlags) :
    f.withParts parts =
      { f with
        hasParam := f.hasParam || parts.any hasParam
        hasNoType := f.hasNoType || parts.any hasNoType
        hasUnion := f.hasUnion || parts.any hasUnion } := by
  unfold withParts
  induction parts generalizing f with
  | nil => simp
  | cons part parts ih =>
      rw [List.foldl_cons, ih]
      simp [or, inherited, Bool.or_assoc]

end TypeFlags

namespace Ty

theorem occursList_eq_any (test : Ty → Bool) (args : List Ty) :
    occursList test args = args.any (occurs test) := by
  induction args with
  | nil => rfl
  | cons t rest ih => rw [occursList, ih, List.any_cons]

/-- Only one type is the unconstrained position. -/
theorem beq_noType (t : Ty) : (t == .noType) = (t.tag == .prim .noType) := by
  rw [Bool.eq_iff_iff, beq_iff_eq, beq_iff_eq]
  cases t <;> simp [tag]

/-- The properties that are passed on, by the kinds of the types that occur. -/
theorem flags_eq (t : Ty) :
    t.flags =
      { t.tag.flags with
        hasParam := t.occurs fun u => u.tag == .param
        hasNoType := t.occurs fun u => u.tag == .prim .noType
        hasUnion := t.occurs fun u => u.tag == .union } := by
  rw [flags, funext beq_noType]

theorem flags_prim (p : Prim) : (Ty.prim p).flags = (TypeTag.prim p).flags := by
  rw [flags_eq]
  cases p <;> rfl

theorem flags_lit (v : Literal) : (Ty.lit v).flags = TypeTag.lit.flags := flags_eq _

theorem flags_param (o : DataId) (i : Nat) : (Ty.param o i).flags = TypeTag.param.flags :=
  flags_eq _

theorem flags_union (a b : Ty) :
    (Ty.union a b).flags = TypeTag.union.flags.withParts [a.flags, b.flags] := by
  rw [TypeFlags.withParts_eq, flags_eq, flags_eq a, flags_eq b]
  simp only [occurs, List.any_cons, List.any_nil, Bool.or_false]
  rfl

theorem flags_app (adt : DataId) (args : List Ty) :
    (Ty.app adt args).flags = TypeTag.app.flags.withParts (args.map flags) := by
  rw [TypeFlags.withParts_eq, flags_eq, funext flags_eq]
  simp only [occurs, occursList_eq_any, List.any_map]
  rfl

theorem hasNoType_union (a b : Ty) :
    (Ty.union a b).flags.hasNoType = (a.flags.hasNoType || b.flags.hasNoType) := by
  rw [flags_union, TypeFlags.withParts_eq]
  simp [TypeTag.flags]

theorem hasNoType_app (d : DataId) (args : List Ty) :
    (Ty.app d args).flags.hasNoType = args.any fun a => a.flags.hasNoType := by
  rw [flags_app, TypeFlags.withParts_eq]
  simp [TypeTag.flags, List.any_map, Function.comp_def]

theorem hasUnion_app (d : DataId) (args : List Ty) :
    (Ty.app d args).flags.hasUnion = args.any fun a => a.flags.hasUnion := by
  rw [flags_app, TypeFlags.withParts_eq]
  simp [TypeTag.flags, List.any_map, Function.comp_def]

theorem hasNoType_arg {d : DataId} {args : List Ty}
    (h : (Ty.app d args).flags.hasNoType = false) {a : Ty} (ha : a ∈ args) :
    a.flags.hasNoType = false := by
  rw [hasNoType_app, List.any_eq_false] at h
  exact Bool.eq_false_iff.2 (h a ha)

theorem ne_noType {t : Ty} (ht : t.flags.hasNoType = false) : t ≠ .noType := by
  rintro rfl
  exact nomatch ht

end Ty

end CaseCover
