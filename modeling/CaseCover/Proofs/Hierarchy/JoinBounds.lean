import CaseCover.Proofs.Hierarchy.JoinEnds
import CaseCover.Proofs.Hierarchy.Transitivity

/-!
Joins as upper bounds. A join that is found came about in one of a few ways
(`JoinOutcome`): at once, argument by argument, as one of the two types, or as the join of types
that the two are below. Where subtyping chains, it is therefore above both
(`Linear.join_above`).
-/

namespace CaseCover

namespace Ty

theorem hasUnion_arg {d : DataId} {args : List Ty} (h : (Ty.app d args).flags.hasUnion = false)
    {a : Ty} (ha : a ∈ args) : a.flags.hasUnion = false := by
  rw [hasUnion_app, List.any_eq_false] at h
  exact Bool.eq_false_iff.2 (h a ha)

theorem hasUnion_union (a b : Ty) : (Ty.union a b).flags.hasUnion = true := by
  rw [flags_union, TypeFlags.withParts_eq]
  rfl

/-- No union comes into a type by what is put in for its parameters. -/
theorem hasUnion_substitute {t : Ty} (ht : t.flags.hasUnion = false) (owner : DataId)
    {args : List Ty} (hargs : ∀ a ∈ args, a.flags.hasUnion = false) :
    (t.substitute owner args).flags.hasUnion = false := by
  induction t with
  | prim p => exact ht
  | lit v => exact ht
  | union a b => exact absurd ht (by rw [hasUnion_union]; exact Bool.noConfusion)
  | param o i =>
      unfold substitute
      split
      · cases hi : args[i]? with
        | none => rfl
        | some a => exact hargs a (List.mem_of_getElem? hi)
      · exact ht
  | app d inner ih =>
      rw [substitute_app, hasUnion_app, List.any_eq_false]
      intro a ha
      obtain ⟨b, hb, rfl⟩ := List.mem_map.1 ha
      exact Bool.eq_false_iff.1 (ih b hb (hasUnion_arg ht hb))

end Ty

namespace Declarations

open Relation (ReflTransGen TransGen)

/-- A type that can be written, without unions. -/
structure UnionFree (D : Declarations) (t : Ty) : Prop where
  admitted : D.Admits t
  union_free : t.flags.hasUnion = false

namespace UnionFree

variable {D : Declarations} {t : Ty}

theorem ne_union (h : D.UnionFree t) (x y : Ty) : t ≠ .union x y := by
  rintro rfl
  have hfree := h.union_free
  rw [Ty.hasUnion_union] at hfree
  cases hfree

theorem any : D.UnionFree .any := ⟨.prim .any, rfl⟩

theorem noType : D.UnionFree .noType := ⟨.prim .noType, rfl⟩

theorem ofLiteral (v : Literal) : D.UnionFree (.ofLiteral v) := by
  cases v
  all_goals
    first
    | exact ⟨.lit _, rfl⟩
    | exact ⟨.prim _, rfl⟩

theorem arg {d : DataId} {args : List Ty} (h : D.UnionFree (.app d args)) {a : Ty}
    (ha : a ∈ args) : D.UnionFree a :=
  ⟨h.admitted.arg ha, Ty.hasUnion_arg h.union_free ha⟩

/-- An application may be given as many other arguments without unions. -/
theorem with_args {d : DataId} {args others : List Ty} (h : D.UnionFree (.app d args))
    (hlength : others.length = args.length) (hothers : ∀ a ∈ others, D.UnionFree a) :
    D.UnionFree (.app d others) := by
  refine ⟨?_, ?_⟩
  · cases h.admitted with
    | app hd hargs _ => exact .app hd (hlength.trans hargs) fun a ha => (hothers a ha).admitted
  · rw [Ty.hasUnion_app, List.any_eq_false]
    exact fun a ha => Bool.eq_false_iff.1 (hothers a ha).union_free

theorem widen (h : D.UnionFree t) : D.UnionFree t.widen := by
  cases t with
  | lit v => exact ⟨.prim _, by cases v <;> rfl⟩
  | prim _ | union _ _ | app _ _ | param _ _ => exact h

theorem stepsUp (hD : D.Reachable) (hlinear : D.Linear) (ht : D.UnionFree t) {up : Ty}
    (h : ReflTransGen D.StepsUp t up) : D.UnionFree up := by
  refine ⟨ht.admitted.stepsUp hD h, ?_⟩
  induction h with
  | refl => exact ht.union_free
  | tail _ hstep ih =>
      obtain ⟨d, args, rfl, hparent⟩ := hstep
      obtain ⟨p, hp, rfl⟩ := List.mem_map.1 hparent
      exact Ty.hasUnion_substitute (hlinear.plain d p hp).1 d fun a ha => Ty.hasUnion_arg ih ha

end UnionFree

/-- A type that can be written, without unions and without unconstrained positions. -/
structure Plain (D : Declarations) (t : Ty) : Prop where
  admitted : D.Admits t
  union_free : t.flags.hasUnion = false
  constrained : t.flags.hasNoType = false

namespace Plain

variable {D : Declarations} {t : Ty}

theorem unionFree (h : D.Plain t) : D.UnionFree t := ⟨h.admitted, h.union_free⟩

theorem of_unionFree (h : D.UnionFree t) (ht : t.flags.hasNoType = false) : D.Plain t :=
  ⟨h.admitted, h.union_free, ht⟩

theorem ne_union (h : D.Plain t) (x y : Ty) : t ≠ .union x y := h.unionFree.ne_union x y

theorem ne_noType (h : D.Plain t) : t ≠ .noType := Ty.ne_noType h.constrained

theorem any : D.Plain .any := ⟨.prim .any, rfl, rfl⟩

theorem arg {d : DataId} {args : List Ty} (h : D.Plain (.app d args)) {a : Ty} (ha : a ∈ args) :
    D.Plain a :=
  .of_unionFree (h.unionFree.arg ha) (Ty.hasNoType_arg h.constrained ha)

/-- An application may be given as many other plain arguments. -/
theorem with_args {d : DataId} {args others : List Ty} (h : D.Plain (.app d args))
    (hlength : others.length = args.length) (hothers : ∀ a ∈ others, D.Plain a) :
    D.Plain (.app d others) := by
  refine .of_unionFree (h.unionFree.with_args hlength fun a ha => (hothers a ha).unionFree) ?_
  rw [Ty.hasNoType_app, List.any_eq_false]
  exact fun a ha => Bool.eq_false_iff.1 (hothers a ha).constrained

theorem widen (h : D.Plain t) : D.Plain t.widen := by
  refine .of_unionFree h.unionFree.widen ?_
  cases t with
  | lit v => cases v <;> rfl
  | prim _ | union _ _ | app _ _ | param _ _ => exact h.constrained

theorem stepsUp (hD : D.Reachable) (hlinear : D.Linear) (ht : D.Plain t) {up : Ty}
    (h : ReflTransGen D.StepsUp t up) : D.Plain up :=
  .of_unionFree (ht.unionFree.stepsUp hD hlinear h) (hlinear.hasNoType_stepsUp ht.constrained h)

end Plain

/-- The ways in which a join is found. -/
inductive JoinOutcome (D : Declarations) (n : Nat) : Ty → Ty → Ty → Prop
  | same (a : Ty) : D.JoinOutcome n a a a
  | unconstrained {a b : Ty} (h : a = .noType ∨ b = .noType) : D.JoinOutcome n a b .noType
  | args {d : DataId} {as bs rs : List Ty} (hab : ¬ JoinedAtOnce (.app d as) (.app d bs))
      (hargs : (joinArgs (D.lubWithin n) (D.get d).params as bs).value? = some (some rs)) :
      D.JoinOutcome n (.app d as) (.app d bs) (.app d rs)
  | right {a b : Ty} (h : D.Below a b) : D.JoinOutcome n a b b
  | left {a b : Ty} (h : D.Below b a) : D.JoinOutcome n a b a
  | widened {a b r : Ty} (hab : D.Unrelated a b) (hw : a.widen ≠ a ∨ b.widen ≠ b)
      (hr : (D.lubWithin n a.widen b.widen).value? = some r) : D.JoinOutcome n a b r
  | met {a r : Ty} {e : DataId} {bs : List Ty} {q : Ty × Ty} (hab : D.Unrelated a (.app e bs))
      (hw : ¬ (a.widen ≠ a ∨ (Ty.app e bs).widen ≠ .app e bs))
      (hq : D.meeting? (.app e bs) (D.ancestors a).value = some q)
      (hr : (D.lubWithin n q.1 q.2).value? = some r) : D.JoinOutcome n a (.app e bs) r
  | top {a b : Ty} (hab : D.Unrelated a b) (hw : ¬ (a.widen ≠ a ∨ b.widen ≠ b))
      (hnone : ∀ e bs, b = .app e bs → D.meeting? b (D.ancestors a).value = none) :
      D.JoinOutcome n a b .any

/-- How two unrelated types are joined. -/
theorem outcome_of_unrelated {D : Declarations} {n : Nat} {a b r : Ty} (hab : D.Unrelated a b)
    (hr : (D.climbWithin n a b).value? = some r) : D.JoinOutcome n a b r := by
  unfold climbWithin at hr
  by_cases hw : a.widen ≠ a ∨ b.widen ≠ b
  · rw [if_pos hw] at hr
    exact .widened hab hw hr
  rw [if_neg hw] at hr
  cases b with
  | app e bs =>
      simp only [Query.value?_bind, Query.value?_liftM, Option.bind_some,
        value?_joinAncestors] at hr
      cases hq : D.meeting? (.app e bs) (D.ancestors a).value with
      | some q =>
          rw [hq] at hr
          exact .met hab hw hq hr
      | none =>
          rw [hq] at hr
          obtain rfl := Option.some.inj hr
          exact .top hab hw fun _ _ _ => hq
  | prim _ | lit _ | union _ _ | param _ _ =>
      obtain rfl := Option.some.inj hr
      exact .top hab hw (by simp)

theorem joinOutcome {D : Declarations} {n : Nat} {a b r : Ty}
    (hr : (D.lubWithin (n + 1) a b).value? = some r) : D.JoinOutcome n a b r := by
  by_cases hab : JoinedAtOnce a b
  · unfold lubWithin at hr
    by_cases heq : a = b
    · subst heq
      rw [if_pos rfl] at hr
      exact Option.some.inj hr ▸ .same a
    · rw [if_neg heq, if_pos (hab.resolve_left heq)] at hr
      exact Option.some.inj hr ▸ .unconstrained (hab.resolve_left heq)
  rw [lubWithin_succ D n hab, Query.value?_bind_eq_some] at hr
  obtain ⟨joined, hjoined, hr⟩ := hr
  cases joined with
  | some t =>
      obtain rfl := Option.some.inj hr
      by_cases happs : ∃ d as bs, a = .app d as ∧ b = .app d bs
      · obtain ⟨d, as, bs, rfl, rfl⟩ := happs
        rw [value?_joinApplications_same, Option.map_eq_some_iff] at hjoined
        obtain ⟨args, hargs, hmap⟩ := hjoined
        obtain ⟨rs, rfl, rfl⟩ := Option.map_eq_some_iff.1 hmap
        exact .args hab hargs
      · rw [value?_joinApplications_other D happs] at hjoined
        cases hjoined
  | none =>
      have hunjoined := (joinApplications_eq_none_iff hjoined).1 rfl
      unfold compareWithin at hr
      obtain ⟨below, hbelow, hr⟩ := Query.value?_bind_eq_some.1 hr
      have hbelow := Query.settles_of_refines (fun n => D.subtypeWithin_refines n a b) hbelow
      cases below with
      | true => exact Option.some.inj hr ▸ .right hbelow
      | false =>
          obtain ⟨above, habove, hr⟩ := Query.value?_bind_eq_some.1 hr
          have habove := Query.settles_of_refines (fun n => D.subtypeWithin_refines n b a) habove
          cases above with
          | true => exact Option.some.inj hr ▸ .left habove
          | false => exact outcome_of_unrelated ⟨hab, hunjoined, hbelow, habove⟩ hr

/-- Two types with what they are joined to. -/
structure Junction where
  left : Ty
  right : Ty
  joined : Ty

/-- Covariant arguments are joined position by position. -/
theorem exists_junctions {bound : Ty → Ty → Query Ty} {params : List TypeParam}
    {as bs rs : List Ty} (hcovariant : ∀ p ∈ params, p.variance = .covariant)
    (has : as.length = params.length) (hbs : bs.length = params.length)
    (hargs : (joinArgs bound params as bs).value? = some (some rs)) :
    ∃ js : List Junction, as = js.map Junction.left ∧ bs = js.map Junction.right ∧
      rs = js.map Junction.joined ∧ ∀ j ∈ js, ArgCall params as bs (j.left, j.right) ∧
        (bound j.left j.right).value? = some j.joined := by
  induction params generalizing as bs rs with
  | nil =>
      obtain rfl := List.length_eq_zero_iff.1 has
      obtain rfl := List.length_eq_zero_iff.1 hbs
      obtain rfl := Option.some.inj (Option.some.inj hargs)
      exact ⟨[], rfl, rfl, rfl, by simp⟩
  | cons p params ih =>
      obtain ⟨a, as, rfl⟩ := List.exists_cons_of_length_eq_add_one has
      obtain ⟨b, bs, rfl⟩ := List.exists_cons_of_length_eq_add_one hbs
      have hp := hcovariant p List.mem_cons_self
      rw [joinArgs_cons, hp, joinAt, Query.value?_bind_eq_some] at hargs
      obtain ⟨first, hfirst, hargs⟩ := hargs
      rw [Query.value?_map, Option.map_eq_some_iff] at hfirst
      obtain ⟨t, ht, rfl⟩ := hfirst
      obtain ⟨rest, hrest, hargs⟩ := Query.value?_bind_eq_some.1 hargs
      obtain ⟨rs', rfl, rfl⟩ := Option.map_eq_some_iff.1 (Option.some.inj hargs)
      obtain ⟨js, rfl, rfl, rfl, hjs⟩ := ih (fun q hq => hcovariant q (List.mem_cons_of_mem p hq))
        (Nat.succ.inj has) (Nat.succ.inj hbs) hrest
      refine ⟨⟨a, b, t⟩ :: js, rfl, rfl, rfl, ?_⟩
      intro j hj
      rcases List.mem_cons.1 hj with rfl | hj
      · exact ⟨.here hp, ht⟩
      · exact ⟨.later (absurd hp) (hjs j hj).1, (hjs j hj).2⟩

/-- Where an application meets another type, both are viewed as one data type, which is another
than that of the application. -/
theorem meeting?_views {D : Declarations} {a b : Ty} {q : Ty × Ty}
    (hq : D.meeting? b (D.ancestors a).value = some q) :
    ∃ d as m us vs, a = .app d as ∧ q = (.app m us, .app m vs) ∧ m ≠ d ∧
      ReflTransGen D.StepsUp a (.app m us) ∧ ReflTransGen D.StepsUp b (.app m vs) := by
  obtain ⟨m, us, hm, hmem, hup⟩ := meeting?_eq_some hq
  obtain ⟨⟨vs, hvs⟩, hright⟩ := D.upcast_sound hup
  cases a with
  | app d as =>
      obtain ⟨⟨m', us', hm', hne⟩, hleft⟩ := D.ancestors_app_sound d as q.1 hmem
      obtain ⟨rfl, rfl⟩ := Ty.app.inj (hm.symm.trans hm')
      exact ⟨d, as, m, us, vs, rfl, Prod.ext hm hvs, hne, hm ▸ hleft.to_reflTransGen,
        hvs ▸ hright⟩
  | prim _ | lit _ | union _ _ | param _ _ =>
      rw [D.ancestors_eq_nil rfl] at hmem
      cases hmem

/-- A type is below what its built-in type is below. -/
theorem below_of_widen_below {D : Declarations} {t r : Ty} (h : D.Below t.widen r) :
    D.Below t r := by
  cases t with
  | lit v => exact below_literal h
  | prim _ | union _ _ | app _ _ | param _ _ => exact h

namespace Linear

variable {D : Declarations}

/-- An application is below the types that its steps up lead to. -/
theorem below_of_stepsUp (hlinear : D.Linear) {d e : DataId} {as us : List Ty}
    (h : ReflTransGen D.StepsUp (.app d as) (.app e us)) : D.Below (.app d as) (.app e us) :=
  (below_view_iff (hlinear.upcast_eq h)).2 (D.below_self _)

/-- Applications are below each other when their arguments are, position by position. -/
theorem below_apps (hlinear : D.Linear) (d : DataId) {α : Type} {positions : List α}
    {f g : α → Ty} (h : ∀ x ∈ positions, D.Below (f x) (g x)) :
    D.Below (.app d (positions.map f)) (.app d (positions.map g)) := by
  rw [below_app_iff]
  apply hlinear.conformsAll_of_forall₂
  rwa [List.forall₂_map_left_iff, List.forall₂_map_right_iff, List.forall₂_same]

/-- No union comes in when types are joined. -/
theorem unionFree_join (hD : D.Reachable) (hlinear : D.Linear) {n : Nat} {a b r : Ty}
    (ha : D.UnionFree a) (hb : D.UnionFree b) (hr : (D.lubWithin n a b).value? = some r) :
    D.UnionFree r := by
  induction n generalizing a b r with
  | zero => cases hr
  | succ n ih =>
      cases joinOutcome hr with
      | same => exact ha
      | unconstrained => exact .noType
      | right => exact hb
      | left => exact ha
      | top => exact .any
      | widened _ _ hwidened => exact ih ha.widen hb.widen hwidened
      | met _ _ hq hmet =>
          obtain ⟨d, as, m, us, vs, rfl, rfl, -, hup, hup'⟩ := meeting?_views hq
          exact ih (ha.stepsUp hD hlinear hup) (hb.stepsUp hD hlinear hup') hmet
      | args _ hargs =>
          obtain ⟨js, rfl, rfl, rfl, hjs⟩ := exists_junctions (hlinear.covariant _)
            ha.admitted.length_args hb.admitted.length_args hargs
          refine ha.with_args (by simp) fun t ht => ?_
          obtain ⟨j, hj, rfl⟩ := List.mem_map.1 ht
          exact ih (ha.arg (List.mem_map_of_mem hj)) (hb.arg (List.mem_map_of_mem hj)) (hjs j hj).2

/-- A join is above both types. The induction is on the limit; a join that goes on with other
types goes on with types that the two are below. -/
theorem join_above (hD : D.Reachable) (hlinear : D.Linear) {n : Nat} {a b r : Ty}
    (ha : D.Plain a) (hb : D.Plain b) (hr : (D.lubWithin n a b).value? = some r) :
    D.Plain r ∧ D.Below a r ∧ D.Below b r := by
  induction n generalizing a b r with
  | zero => cases hr
  | succ n ih =>
      cases joinOutcome hr with
      | same => exact ⟨ha, D.below_self a, D.below_self a⟩
      | unconstrained h => exact (h.elim ha.ne_noType hb.ne_noType).elim
      | right h => exact ⟨hb, h, D.below_self b⟩
      | left h => exact ⟨ha, D.below_self a, h⟩
      | top => exact ⟨.any, D.below_any a, D.below_any b⟩
      | widened _ _ hwidened =>
          obtain ⟨hplain, hleft, hright⟩ := ih ha.widen hb.widen hwidened
          exact ⟨hplain, below_of_widen_below hleft, below_of_widen_below hright⟩
      | met _ _ hq hmet =>
          obtain ⟨d, as, m, us, vs, rfl, rfl, -, hup, hup'⟩ := meeting?_views hq
          have hus := ha.stepsUp hD hlinear hup
          have hvs := hb.stepsUp hD hlinear hup'
          obtain ⟨hplain, hleft, hright⟩ := ih hus hvs hmet
          refine ⟨hplain, ?_, ?_⟩
          · exact hlinear.below_trans hD ha.admitted hus.admitted hus.constrained
              (hlinear.below_of_stepsUp hup) hleft
          · exact hlinear.below_trans hD hb.admitted hvs.admitted hvs.constrained
              (hlinear.below_of_stepsUp hup') hright
      | args _ hargs =>
          obtain ⟨js, rfl, rfl, rfl, hjs⟩ := exists_junctions (hlinear.covariant _)
            ha.admitted.length_args hb.admitted.length_args hargs
          have hjoined : ∀ j ∈ js, D.Plain j.joined ∧ D.Below j.left j.joined ∧
              D.Below j.right j.joined := fun j hj =>
            ih (ha.arg (List.mem_map_of_mem hj)) (hb.arg (List.mem_map_of_mem hj)) (hjs j hj).2
          refine ⟨ha.with_args (by simp) fun t ht => ?_, hlinear.below_apps _ fun j hj => ?_,
            hlinear.below_apps _ fun j hj => ?_⟩
          · obtain ⟨j, hj, rfl⟩ := List.mem_map.1 ht
            exact (hjoined j hj).1
          · exact (hjoined j hj).2.1
          · exact (hjoined j hj).2.2

end Linear

end Declarations

end CaseCover
