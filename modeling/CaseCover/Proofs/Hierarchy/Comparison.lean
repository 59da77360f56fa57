import CaseCover.Proofs.Hierarchy.SubtypingEnds
import CaseCover.Proofs.Hierarchy.Views

/-!
How a type comes to be below another. Either the question is answered at once, or through the
parts of a union, the built-in type of a literal or the view of an application
(`Below.comparison`). In the other direction, what these say of parts carries over to the types;
only the right side of a union needs to know that the question about the left side ends, since
that is asked first.
-/

namespace CaseCover

namespace Declarations

open Query (Settles Ends)

/-- The first type is below the second whatever is declared, and no nested question is asked. -/
abbrev HoldsAtOnce (a b : Ty) : Prop :=
  a = b ∨ a = .noType ∨ b = .noType ∨ a = .never ∨ b = .any

theorem below_of_holdsAtOnce (D : Declarations) {a b : Ty} (hab : HoldsAtOnce a b) :
    D.Below a b := by
  apply Settles.of_succ
  apply Query.settles_of_value?
  intro n
  unfold subtypeWithin
  rw [if_pos hab, Query.value?_pure]

theorem below_any (D : Declarations) (a : Ty) : D.Below a .any :=
  D.below_of_holdsAtOnce (.inr (.inr (.inr (.inr rfl))))

theorem never_below (D : Declarations) (b : Ty) : D.Below .never b :=
  D.below_of_holdsAtOnce (.inr (.inr (.inr (.inl rfl))))

theorem noType_below (D : Declarations) (b : Ty) : D.Below .noType b :=
  D.below_of_holdsAtOnce (.inr (.inl rfl))

theorem below_noType (D : Declarations) (a : Ty) : D.Below a .noType :=
  D.below_of_holdsAtOnce (.inr (.inr (.inl rfl)))

/-- A question that does not hold at once and is not about everything has nested ones, or is
refused. -/
theorem not_decidedAtOnce {a b : Ty} (hab : ¬ HoldsAtOnce a b) (ha : a ≠ .any) :
    ¬ DecidedAtOnce a b := by
  unfold HoldsAtOnce at hab
  unfold DecidedAtOnce
  tauto

/-- Everything is below no type that it does not hold of at once. -/
theorem any_refused (D : Declarations) {b : Ty} (hb : ¬ HoldsAtOnce .any b) :
    Settles (fun n => D.subtypeWithin n .any b) false := by
  apply Settles.of_succ
  apply Query.settles_of_value?
  intro n
  unfold subtypeWithin
  rw [if_neg hb, if_pos rfl, Query.value?_pure]

theorem not_below_any {D : Declarations} {b : Ty} (hb : ¬ HoldsAtOnce .any b) :
    ¬ D.Below .any b :=
  fun h => Bool.false_ne_true ((D.any_refused hb).unique h)

/-- A disjunction of questions that settles on true does so by its first or by its second
part. -/
theorem below_or_below {D : Declarations} {a x y : Ty}
    (h : Settles (fun n => Query.either (D.subtypeWithin n a x) (D.subtypeWithin n a y)) true) :
    D.Below a x ∨ D.Below a y := by
  obtain ⟨limit, hlimit⟩ := h
  obtain ⟨b, hb, hfalse, -⟩ := Query.value?_either_eq_some (hlimit limit (Nat.le_refl limit))
  cases b with
  | true => exact .inl (Query.settles_of_refines (fun n => D.subtypeWithin_refines n a x) hb)
  | false =>
      exact .inr (Query.settles_of_refines (fun n => D.subtypeWithin_refines n a y) (hfalse rfl))

/-- The ways in which a type is below another. -/
inductive Comparison (D : Declarations) : Ty → Ty → Prop
  | atOnce {a b : Ty} (h : HoldsAtOnce a b) : D.Comparison a b
  | union {x y b : Ty} (hx : D.Below x b) (hy : D.Below y b) : D.Comparison (.union x y) b
  | intoUnion {a x y : Ty} (ha : ∀ u v, a ≠ .union u v) (hany : a ≠ .any)
      (h : D.Below a x ∨ D.Below a y) : D.Comparison a (.union x y)
  | literal {v : Literal} {b : Ty} (hb : ∀ x y, b ≠ .union x y)
      (h : D.Below (.prim v.base) b) : D.Comparison (.lit v) b
  | view {d e : DataId} {as bs us : List Ty}
      (hup : (D.upcast (.app d as) e).value = some (.app e us))
      (hargs : D.ConformsAll (D.get e).params us bs) : D.Comparison (.app d as) (.app e bs)

theorem Below.comparison {D : Declarations} {a b : Ty} (h : D.Below a b) :
    D.Comparison a b := by
  by_cases hab : HoldsAtOnce a b
  · exact .atOnce hab
  have hany : a ≠ .any := by
    rintro rfl
    exact not_below_any hab h
  have hopen := not_decidedAtOnce hab hany
  obtain ⟨limit, hlimit⟩ := id h
  have hsucc : Settles (fun n => D.subtypeWithin (n + 1) a b) true :=
    ⟨limit, fun n hn => hlimit (n + 1) (Nat.le_succ_of_le hn)⟩
  have refused : (∀ n, D.subtypeWithin (n + 1) a b = pure false) → D.Comparison a b := by
    intro hfalse
    simp only [hfalse] at hsucc
    exact absurd (hsucc.unique (Query.settles_of_value? fun _ => rfl)) Bool.false_ne_true.symm
  by_cases hleft : ∃ u v, a = .union u v
  · obtain ⟨u, v, rfl⟩ := hleft
    simp only [D.subtypeWithin_union _ hopen] at hsucc
    obtain ⟨hu, hv⟩ := Settles.of_both hsucc
    exact .union hu hv
  have ha : ∀ u v, a ≠ .union u v := fun u v heq => hleft ⟨u, v, heq⟩
  by_cases hright : ∃ x y, b = .union x y
  · obtain ⟨x, y, rfl⟩ := hright
    simp only [D.subtypeWithin_intoUnion _ hopen ha] at hsucc
    exact .intoUnion ha hany (below_or_below hsucc)
  have hb : ∀ x y, b ≠ .union x y := fun x y heq => hright ⟨x, y, heq⟩
  cases a with
  | union u v => exact absurd rfl (ha u v)
  | lit v =>
      simp only [D.subtypeWithin_lit _ hopen hb] at hsucc
      exact .literal hb hsucc
  | prim _ | param _ _ =>
      refine refused fun n => ?_
      unfold subtypeWithin
      rw [if_neg hab, if_neg hany]
      cases b with
      | union x y => exact absurd rfl (hb x y)
      | prim _ | lit _ | app _ _ | param _ _ => rfl
  | app d as =>
      cases b with
      | union x y => exact absurd rfl (hb x y)
      | app e bs =>
          obtain ⟨us, hup⟩ := exists_view_of_below h
          exact .view hup ((below_iff_of_view hup).1 h)
      | prim _ | lit _ | param _ _ =>
          refine refused fun n => ?_
          unfold subtypeWithin
          rw [if_neg hab, if_neg hany]

/-- A union is below what its sides are below. -/
theorem below_union {D : Declarations} {x y b : Ty} (hx : D.Below x b) (hy : D.Below y b) :
    D.Below (.union x y) b := by
  by_cases hat : HoldsAtOnce (.union x y) b
  · exact D.below_of_holdsAtOnce hat
  · apply Settles.of_succ
    simp only [D.subtypeWithin_union _ (not_decidedAtOnce hat nofun)]
    exact hx.bind hy

section IntoUnion

variable {D : Declarations} {a x y : Ty}

/-- What does not hold of a type and a union at once is asked of the two sides. -/
theorem settles_intoUnion (ha : ∀ u v, a ≠ .union u v) (hany : a ≠ .any)
    (hab : ¬ HoldsAtOnce a (.union x y)) {r : Bool}
    (h : Settles (fun n => Query.either (D.subtypeWithin n a x) (D.subtypeWithin n a y)) r) :
    Settles (fun n => D.subtypeWithin n a (.union x y)) r := by
  apply Settles.of_succ
  simp only [D.subtypeWithin_intoUnion _ (not_decidedAtOnce hab hany) ha]
  exact h

theorem below_unionLeft (ha : ∀ u v, a ≠ .union u v) (hany : a ≠ .any) (hx : D.Below a x) :
    D.Below a (.union x y) := by
  by_cases hab : HoldsAtOnce a (.union x y)
  · exact D.below_of_holdsAtOnce hab
  · exact settles_intoUnion ha hany hab (hx.bind (Query.settles_of_value? fun _ => rfl))

theorem below_unionRight (ha : ∀ u v, a ≠ .union u v) (hany : a ≠ .any)
    (hends : Ends fun n => D.subtypeWithin n a x) (hy : D.Below a y) :
    D.Below a (.union x y) := by
  by_cases hab : HoldsAtOnce a (.union x y)
  · exact D.below_of_holdsAtOnce hab
  · obtain ⟨r, hr⟩ := hends
    cases r with
    | true => exact below_unionLeft ha hany hr
    | false => exact settles_intoUnion ha hany hab (hr.bind hy)

end IntoUnion

/-- A question whose left side is a literal takes the right side apart, or goes on with the
built-in type. -/
theorem subtypeFinite_lit (D : Declarations) (v : Literal) (b : Ty) :
    D.SubtypeFinite (.lit v) b := by
  induction b with
  | union x y ihx ihy =>
      refine .of_calls fun c d hcall => ?_
      cases hcall with
      | intoLeft => exact ihx
      | intoRight => exact ihy
      | base => exact D.subtypeFinite_prim _ _
  | prim _ | lit _ | app _ _ | param _ _ =>
      refine .of_calls fun c d hcall => ?_
      cases hcall with
      | base => exact D.subtypeFinite_prim _ _

/-- The built-in type of a literal is below a union only through one of its sides. -/
theorem not_holdsAtOnce_base_union (v : Literal) (x y : Ty) :
    ¬ HoldsAtOnce (.prim v.base) (.union x y) := by
  cases v <;> simp [HoldsAtOnce, Literal.base]

/-- The built-in type of a literal is below nothing else that is not a union but itself, top and
the unconstrained position. -/
theorem eq_of_base_below {D : Declarations} {v : Literal} {b : Ty} (hunion : ∀ x y, b ≠ .union x y)
    (h : D.Below (.prim v.base) b) : b = .prim v.base ∨ b = .any ∨ b = .noType := by
  have hopen : HoldsAtOnce (.prim v.base) b := by
    generalize hp : Ty.prim v.base = p at h
    cases h.comparison with
    | atOnce hat => exact hat
    | intoUnion _ _ _ => exact absurd rfl (hunion _ _)
    | union _ _ => exact nomatch hp
    | literal _ _ => exact nomatch hp
    | view _ _ => exact nomatch hp
  rcases hopen with rfl | hbase | rfl | hbase | rfl
  · exact .inl rfl
  · cases v <;> exact nomatch hbase
  · exact .inr (.inr rfl)
  · cases v <;> exact nomatch hbase
  · exact .inr (.inl rfl)

/-- A literal is below what its built-in type is below. -/
theorem below_literal {D : Declarations} {v : Literal} {b : Ty}
    (hb : D.Below (.prim v.base) b) : D.Below (.lit v) b := by
  have plain : ∀ b, (∀ x y, b ≠ .union x y) → D.Below (.prim v.base) b →
      D.Below (.lit v) b := by
    intro b hunion hb
    by_cases hat : HoldsAtOnce (.lit v) b
    · exact D.below_of_holdsAtOnce hat
    · apply Settles.of_succ
      simp only [D.subtypeWithin_lit _ (not_decidedAtOnce hat nofun) hunion]
      exact hb
  induction b with
  | union x y ihx ihy =>
      cases hb.comparison with
      | atOnce hat => exact absurd hat (not_holdsAtOnce_base_union v x y)
      | intoUnion _ _ hside =>
          rcases hside with hx | hy
          · exact below_unionLeft nofun nofun (ihx hx)
          · exact below_unionRight nofun nofun (D.subtypeFinite_lit v x).ends (ihy hy)
  | prim _ | lit _ | app _ _ | param _ _ => exact plain _ nofun hb

end Declarations

end CaseCover
