import CaseCover.Proofs.Decl.Admitted
import CaseCover.Proofs.Hierarchy.Comparison
import CaseCover.Proofs.Hierarchy.Routes
import CaseCover.Proofs.Ty.Flags

/-!
Transitivity. Where every data type has at most one parent, the steps up from an application meet
every data type at most once, so a view of a view is the view itself (`SingleParent.upcast_eq`).
Where every position is covariant as well, arguments that are below others stay so on the way up
(`Linear.views_below`). With the shapes of `Comparison` this chains two questions about subtyping
(`Linear.below_trans`). The unconstrained position has to be kept out of the type in the middle:
everything is below it, and it is below everything.
-/

namespace CaseCover

namespace Ty

/-- No unconstrained position comes into a type by what is put in for its parameters. -/
theorem hasNoType_substitute {t : Ty} (ht : t.flags.hasNoType = false) (owner : DataId)
    {args : List Ty} (hargs : ∀ a ∈ args, a.flags.hasNoType = false) :
    (t.substitute owner args).flags.hasNoType = false := by
  induction t with
  | prim p => exact ht
  | lit v => exact ht
  | param o i =>
      unfold substitute
      split
      · cases hi : args[i]? with
        | none => rfl
        | some a => exact hargs a (List.mem_of_getElem? hi)
      · exact ht
  | union a b iha ihb =>
      rw [hasNoType_union, Bool.or_eq_false_iff] at ht
      rw [substitute, join]
      split
      · exact iha ht.1
      · split
        · exact ihb ht.2
        · rw [hasNoType_union, Bool.or_eq_false_iff]
          exact ⟨iha ht.1, ihb ht.2⟩
  | app d inner ih =>
      rw [substitute_app, hasNoType_app, List.any_eq_false]
      intro a ha
      obtain ⟨b, hb, rfl⟩ := List.mem_map.1 ha
      exact Bool.eq_false_iff.1 (ih b hb (hasNoType_arg ht hb))

end Ty

namespace Declarations

open Relation (ReflTransGen)

/-- Every data type has at most one parent, an application, and no data type inherits from
itself. -/
structure SingleParent (D : Declarations) : Prop where
  parent_unique : ∀ d, ∀ p ∈ (D.get d).parents, ∀ q ∈ (D.get d).parents, p = q
  acyclic : D.Acyclic
  applied : D.ParentsApplied

namespace SingleParent

variable {D : Declarations}

theorem stepsUp_rightUnique (hsingle : D.SingleParent) : Relator.RightUnique D.StepsUp := by
  rintro t up up' ⟨d, args, rfl, hup⟩ ⟨d', args', heq, hup'⟩
  obtain ⟨rfl, rfl⟩ := Ty.app.inj heq
  obtain ⟨p, hp, rfl⟩ := List.mem_map.1 hup
  obtain ⟨p', hp', rfl⟩ := List.mem_map.1 hup'
  rw [hsingle.parent_unique d p hp p' hp']

/-- The steps up from an application do not come back to its data type. -/
theorem eq_of_stepsUp (hsingle : D.SingleParent) {d : DataId} {as bs : List Ty}
    (h : ReflTransGen D.StepsUp (.app d as) (.app d bs)) : as = bs := by
  rcases h.cases_head with heq | ⟨up, ⟨_, _, heq, hup⟩, hrest⟩
  · exact (Ty.app.inj heq).2
  · obtain ⟨rfl, rfl⟩ := Ty.app.inj heq
    obtain ⟨p, hp, rfl⟩ := List.mem_map.1 hup
    obtain ⟨e, inner, rfl⟩ := hsingle.applied d p hp
    rw [Ty.substitute_app] at hrest
    obtain ⟨_, _, heq', hreach⟩ := inherits_of_stepsUp hsingle.applied hrest
    obtain ⟨rfl, -⟩ := Ty.app.inj heq'
    exact absurd (.head' ⟨_, hp, rfl⟩ hreach) (hsingle.acyclic d)

/-- Every application that the steps up from a type lead to is the view of the type at its data
type. -/
theorem upcast_eq (hsingle : D.SingleParent) {d e : DataId} {as us : List Ty}
    (h : ReflTransGen D.StepsUp (.app d as) (.app e us)) :
    (D.upcast (.app d as) e).value = some (.app e us) := by
  obtain ⟨_, _, heq, hinherits⟩ := inherits_of_stepsUp hsingle.applied h
  obtain ⟨rfl, -⟩ := Ty.app.inj heq
  obtain ⟨vs, hvs⟩ := exists_view_of_inherits as hinherits
  have hreach := (D.upcast_sound hvs).2
  rcases ReflTransGen.total_of_right_unique hsingle.stepsUp_rightUnique h hreach with huv | hvu
  · rw [hvs, hsingle.eq_of_stepsUp huv]
  · rw [hvs, hsingle.eq_of_stepsUp hvu]

end SingleParent

/-- Every data type has at most one parent, an application without unions and unconstrained
positions, no data type inherits from itself, and all positions are covariant. -/
structure Linear (D : Declarations) : Prop where
  parent_unique : ∀ d, ∀ p ∈ (D.get d).parents, ∀ q ∈ (D.get d).parents, p = q
  acyclic : D.Acyclic
  applied : D.ParentsApplied
  plain : ∀ d, ∀ p ∈ (D.get d).parents, p.flags.hasUnion = false ∧ p.flags.hasNoType = false
  covariant : ∀ d, ∀ p ∈ (D.get d).params, p.variance = .covariant

namespace Linear

variable {D : Declarations}

theorem subtypeFinite (hlinear : D.Linear) (a b : Ty) : D.SubtypeFinite a b :=
  (anchored_of_covariant fun d _ => hlinear.covariant d).subtypeFinite a

theorem singleParent (hlinear : D.Linear) : D.SingleParent :=
  ⟨hlinear.parent_unique, hlinear.acyclic, hlinear.applied⟩

theorem upcast_eq (hlinear : D.Linear) {d e : DataId} {as us : List Ty}
    (h : ReflTransGen D.StepsUp (.app d as) (.app e us)) :
    (D.upcast (.app d as) e).value = some (.app e us) :=
  hlinear.singleParent.upcast_eq h

/-- With covariant positions only, and arguments for all of them, argument lists conform when
every argument is below the one at its position. -/
theorem conformsAll_of_forall₂ (hlinear : D.Linear) (e : DataId) {as bs : List Ty}
    (h : List.Forall₂ D.Below as bs) : D.ConformsAll (D.get e).params as bs := by
  intro i p a b hp ha hb
  have hvariance := hlinear.covariant e p (List.mem_of_getElem? hp)
  refine ⟨fun _ => ?_, fun hne => absurd hvariance hne⟩
  obtain ⟨hi, rfl⟩ := List.getElem?_eq_some_iff.1 ha
  obtain ⟨hi', rfl⟩ := List.getElem?_eq_some_iff.1 hb
  exact h.get hi hi'

theorem forall₂_of_conformsAll (hlinear : D.Linear) {e : DataId} {as bs : List Ty}
    (has : as.length = (D.get e).arity) (hbs : bs.length = (D.get e).arity)
    (h : D.ConformsAll (D.get e).params as bs) : List.Forall₂ D.Below as bs := by
  refine List.forall₂_iff_get.2 ⟨has.trans hbs.symm, fun i hi hi' => ?_⟩
  have hp : i < (D.get e).params.length := by
    rw [has] at hi
    exact hi
  refine (h i (D.get e).params[i] _ _ (List.getElem?_eq_getElem hp) (List.getElem?_eq_getElem hi)
    (List.getElem?_eq_getElem hi')).1 ?_
  rw [hlinear.covariant e _ (List.getElem_mem hp)]
  exact nofun

/-- A type without unions grows with the arguments that are put into it. -/
theorem below_substitute (hlinear : D.Linear) {t : Ty} (ht : t.flags.hasUnion = false)
    (owner : DataId) {as bs : List Ty} (h : List.Forall₂ D.Below as bs) :
    D.Below (t.substitute owner as) (t.substitute owner bs) := by
  induction t with
  | prim p => exact D.below_self _
  | lit v => exact D.below_self _
  | union a b => simp [Ty.flags_union, TypeFlags.withParts_eq, TypeTag.flags] at ht
  | param o i =>
      unfold Ty.substitute
      split
      · by_cases hi : i < as.length
        · have hi' : i < bs.length := h.length_eq ▸ hi
          rw [List.getElem?_eq_getElem hi, List.getElem?_eq_getElem hi']
          exact h.get hi hi'
        · have hi' : ¬ i < bs.length := h.length_eq ▸ hi
          rw [List.getElem?_eq_none (Nat.le_of_not_lt hi),
            List.getElem?_eq_none (Nat.le_of_not_lt hi')]
          exact D.below_self _
      · exact D.below_self _
  | app d inner ih =>
      rw [Ty.hasUnion_app, List.any_eq_false] at ht
      rw [Ty.substitute_app, Ty.substitute_app, below_app_iff]
      apply hlinear.conformsAll_of_forall₂
      rw [List.forall₂_map_left_iff, List.forall₂_map_right_iff, List.forall₂_same]
      exact fun a ha => ih a ha (Bool.eq_false_iff.2 (ht a ha))

/-- Applications of one data type whose arguments are below each other stay so on the way up. -/
theorem views_below (hlinear : D.Linear) {d e : DataId} {as bs vs : List Ty}
    (hargs : List.Forall₂ D.Below as bs)
    (h : ReflTransGen D.StepsUp (.app d bs) (.app e vs)) :
    ∃ us, ReflTransGen D.StepsUp (.app d as) (.app e us) ∧ List.Forall₂ D.Below us vs := by
  suffices ∀ up, ReflTransGen D.StepsUp (.app d bs) up → ∃ m us vs, up = .app m vs ∧
      ReflTransGen D.StepsUp (.app d as) (.app m us) ∧ List.Forall₂ D.Below us vs by
    obtain ⟨m, us, vs', heq, hreach, hbelow⟩ := this _ h
    obtain ⟨rfl, rfl⟩ := Ty.app.inj heq
    exact ⟨us, hreach, hbelow⟩
  intro up hup
  induction hup with
  | refl => exact ⟨d, as, bs, rfl, .refl, hargs⟩
  | tail _ hstep ih =>
      obtain ⟨m, us, vs, rfl, hreach, hbelow⟩ := ih
      obtain ⟨_, _, heq, hparent⟩ := hstep
      obtain ⟨rfl, rfl⟩ := Ty.app.inj heq
      obtain ⟨p, hp, rfl⟩ := List.mem_map.1 hparent
      obtain ⟨f, inner, rfl⟩ := hlinear.applied m p hp
      have hunion := (hlinear.plain m _ hp).1
      rw [Ty.hasUnion_app, List.any_eq_false] at hunion
      refine ⟨f, inner.map (Ty.substitute m us), inner.map (Ty.substitute m vs),
        Ty.substitute_app .., hreach.tail (stepsUp_app ?_), ?_⟩
      · rw [← Ty.substitute_app]
        exact List.mem_map_of_mem hp
      · rw [List.forall₂_map_left_iff, List.forall₂_map_right_iff, List.forall₂_same]
        exact fun t ht =>
          hlinear.below_substitute (Bool.eq_false_iff.2 (hunion t ht)) m hbelow

/-- No unconstrained position comes in on the way up. -/
theorem hasNoType_stepsUp (hlinear : D.Linear) {t up : Ty} (ht : t.flags.hasNoType = false)
    (h : ReflTransGen D.StepsUp t up) : up.flags.hasNoType = false := by
  induction h with
  | refl => exact ht
  | tail _ hstep ih =>
      obtain ⟨d, args, rfl, hparent⟩ := hstep
      obtain ⟨p, hp, rfl⟩ := List.mem_map.1 hparent
      exact Ty.hasNoType_substitute (hlinear.plain d p hp).2 d fun a ha => Ty.hasNoType_arg ih ha

end Linear

section Chaining

variable {D : Declarations} {b c : Ty}

theorem below_of_below_any (h : D.Below .any c) (a : Ty) : D.Below a c := by
  cases h.comparison with
  | atOnce hat =>
      rcases hat with rfl | h | rfl | h | rfl
      · exact D.below_any a
      · exact nomatch h
      · exact D.below_noType a
      · exact nomatch h
      · exact D.below_any a
  | intoUnion _ hany _ => exact absurd rfl hany

/-- What is below the empty type is below every type. -/
theorem below_of_below_never {a : Ty} (h : D.Below a .never) (c : Ty) : D.Below a c := by
  have atOnce : ∀ {a : Ty}, HoldsAtOnce a .never → D.Below a c := by
    rintro a (rfl | rfl | h | rfl | h)
    · exact D.never_below c
    · exact D.noType_below c
    · exact nomatch h
    · exact D.never_below c
    · exact nomatch h
  induction a with
  | union x y ihx ihy =>
      cases h.comparison with
      | atOnce hat => exact atOnce hat
      | union hx hy => exact below_union (ihx hx) (ihy hy)
  | lit v =>
      cases h.comparison with
      | atOnce hat => exact atOnce hat
      | literal hunion hbase =>
          have hnever := eq_of_base_below hunion hbase
          cases v <;> simp [Literal.base] at hnever
  | prim _ | app _ _ | param _ _ =>
      cases h.comparison with
      | atOnce hat => exact atOnce hat

theorem below_of_holdsAtOnce_below {a : Ty} (hb : b ≠ .noType) (hab : HoldsAtOnce a b)
    (hbc : D.Below b c) : D.Below a c := by
  rcases hab with rfl | rfl | h | rfl | rfl
  · exact hbc
  · exact D.noType_below c
  · exact absurd h hb
  · exact D.never_below c
  · exact below_of_below_any hbc a

theorem below_of_below_holdsAtOnce {a : Ty} (hb : b ≠ .noType) (hab : D.Below a b)
    (hbc : HoldsAtOnce b c) : D.Below a c := by
  rcases hbc with rfl | h | rfl | rfl | rfl
  · exact hab
  · exact absurd h hb
  · exact D.below_noType a
  · exact below_of_below_never hab c
  · exact D.below_any a

/-- A union on the left is taken apart, and what holds at once is chained as it stands. -/
theorem below_of_parts (hbc : D.Below b c) (hb : b ≠ .noType)
    (hpart : ∀ a, D.Admits a → (∀ u v, a ≠ .union u v) → ¬ HoldsAtOnce a b → D.Below a b →
      D.Below a c) {a : Ty} (ha : D.Admits a) (hab : D.Below a b) : D.Below a c := by
  by_cases hat : HoldsAtOnce a b
  · exact below_of_holdsAtOnce_below hb hat hbc
  induction a with
  | union u v ihu ihv =>
      have side : ∀ {t : Ty}, (D.Admits t → D.Below t b → ¬ HoldsAtOnce t b → D.Below t c) →
          D.Admits t → D.Below t b → D.Below t c := by
        intro t ih ht htb
        by_cases hat : HoldsAtOnce t b
        · exact below_of_holdsAtOnce_below hb hat hbc
        · exact ih ht htb hat
      cases ha with
      | union hu hv =>
          cases hab.comparison with
          | atOnce hat' => exact absurd hat' hat
          | union hub hvb => exact below_union (side ihu hu hub) (side ihv hv hvb)
          | intoUnion hne _ _ => exact absurd rfl (hne u v)
  | prim _ | lit _ | app _ _ | param _ _ => exact hpart _ ha nofun hat hab

/-- The types that are above whatever is below a type below them. -/
def Chains (D : Declarations) (c : Ty) : Prop :=
  ∀ a b, D.Admits a → D.Admits b → b.flags.hasNoType = false → D.Below a b → D.Below b c →
    D.Below a c

/-- Above a type that is no union, only applications need a look at their views. -/
theorem below_of_views (hbc : D.Below b c) (hb : b ≠ .noType) (hunion : ∀ x y, b ≠ .union x y)
    (happs : ∀ d as e bs, b = .app e bs → D.Admits (.app d as) → D.Below (.app d as) b →
      D.Below (.app d as) c) {a : Ty} (ha : D.Admits a) (hab : D.Below a b) : D.Below a c := by
  refine below_of_parts hbc hb (fun t ht hne honce htb => ?_) ha hab
  cases htb.comparison with
  | atOnce hat => exact absurd hat honce
  | union _ _ => exact absurd rfl (hne _ _)
  | intoUnion _ _ _ => exact absurd rfl (hunion _ _)
  | literal _ hbase =>
      rcases eq_of_base_below hunion hbase with rfl | rfl | h
      · exact below_literal hbc
      · exact below_of_below_any hbc _
      · exact absurd h hb
  | view hup hargs => exact happs _ _ _ _ rfl ht htb

/-- Two questions are chained when they are wherever both sides of the first are applications.
The induction takes a union in the middle apart. -/
theorem chains_of_apps
    (happs : ∀ d as e bs, D.Admits (.app d as) → D.Admits (.app e bs) →
      (Ty.app e bs).flags.hasNoType = false → D.Below (.app d as) (.app e bs) →
        D.Below (.app e bs) c → D.Below (.app d as) c) : D.Chains c := by
  intro a b ha hb hfree hab hbc
  induction b generalizing a with
  | union x y ihx ihy =>
      by_cases hat : HoldsAtOnce (.union x y) c
      · exact below_of_below_holdsAtOnce (Ty.ne_noType hfree) hab hat
      have hsides := hfree
      rw [Ty.hasNoType_union, Bool.or_eq_false_iff] at hsides
      cases hb with
      | union hx hy =>
          cases hbc.comparison with
          | atOnce hat' => exact absurd hat' hat
          | intoUnion hne _ _ => exact absurd rfl (hne x y)
          | union hxc hyc =>
              refine below_of_parts hbc (Ty.ne_noType hfree) (fun t ht hne honce htb => ?_) ha hab
              cases htb.comparison with
              | atOnce hat' => exact absurd hat' honce
              | union _ _ => exact absurd rfl (hne _ _)
              | literal hunion _ => exact absurd rfl (hunion _ _)
              | intoUnion _ _ hside =>
                  rcases hside with htx | hty
                  · exact ihx t ht hx hsides.1 htx hxc
                  · exact ihy t ht hy hsides.2 hty hyc
  | app e bs =>
      refine below_of_views hbc (Ty.ne_noType hfree) (by simp) (fun d as _ _ _ hd hdb => ?_) ha hab
      exact happs d as e bs hd hb hfree hdb hbc
  | prim _ | lit _ | param _ _ =>
      exact below_of_views hbc (Ty.ne_noType hfree) (by simp) (by simp) ha hab

end Chaining

namespace Linear

variable {D : Declarations} {c : Ty}

/-- A type that applications are below only at once chains. -/
theorem chains_of_atOnce (hatOnce : ∀ e bs, D.Below (.app e bs) c → HoldsAtOnce (.app e bs) c) :
    D.Chains c := by
  refine chains_of_apps fun d as e bs _ _ hfree hab hbc => ?_
  exact below_of_below_holdsAtOnce (Ty.ne_noType hfree) hab (hatOnce e bs hbc)

theorem chains_union (hlinear : D.Linear) {x y : Ty} (hx : D.Chains x) (hy : D.Chains y) :
    D.Chains (.union x y) := by
  refine chains_of_apps fun d as e bs ha hb hfree hab hbc => ?_
  cases hbc.comparison with
  | atOnce hat => exact below_of_below_holdsAtOnce (Ty.ne_noType hfree) hab hat
  | intoUnion _ _ hside =>
      rcases hside with hbx | hby
      · exact below_unionLeft nofun nofun (hx _ _ ha hb hfree hab hbx)
      · exact below_unionRight nofun nofun (hlinear.subtypeFinite _ x).ends
          (hy _ _ ha hb hfree hab hby)

/-- A view of the left side at the data type in the middle goes on to one at the data type of
the right side, which stays below the view of the middle. -/
theorem chains_app (hD : D.Reachable) (hlinear : D.Linear) (f : DataId) {cs : List Ty}
    (hcs : ∀ c ∈ cs, D.Chains c) : D.Chains (.app f cs) := by
  refine chains_of_apps fun d as e bs ha hb hfree hab hbc => ?_
  obtain ⟨us, hus⟩ := exists_view_of_below hab
  obtain ⟨vs, hvs⟩ := exists_view_of_below hbc
  have hupUs := (D.upcast_sound hus).2
  have hupVs := (D.upcast_sound hvs).2
  have hbelow : List.Forall₂ D.Below us bs :=
    hlinear.forall₂_of_conformsAll (ha.stepsUp hD hupUs).length_args hb.length_args
      ((below_iff_of_view hus).1 hab)
  obtain ⟨ws, hupWs, hviews⟩ := hlinear.views_below hbelow hupVs
  have hup := hupUs.trans hupWs
  rw [below_iff_of_view (hlinear.upcast_eq hup)]
  intro i p w c hp hw hc
  have hvariance := hlinear.covariant f p (List.mem_of_getElem? hp)
  refine ⟨fun hne => ?_, fun hne => absurd hvariance hne⟩
  obtain ⟨hi, rfl⟩ := List.getElem?_eq_some_iff.1 hw
  have hi' : i < vs.length := hviews.length_eq ▸ hi
  have hvc := ((below_iff_of_view hvs).1 hbc i p vs[i] c hp (List.getElem?_eq_getElem hi') hc).1 hne
  exact hcs c (List.mem_of_getElem? hc) _ _
    ((ha.stepsUp hD hup).arg (List.getElem_mem hi))
    ((hb.stepsUp hD hupVs).arg (List.getElem_mem hi'))
    (Ty.hasNoType_arg (hlinear.hasNoType_stepsUp hfree hupVs) (List.getElem_mem hi'))
    (hviews.get hi hi') hvc

/-- Subtyping chains through every type in which the unconstrained position does not occur. -/
theorem below_trans (hD : D.Reachable) (hlinear : D.Linear) {a b : Ty} (ha : D.Admits a)
    (hb : D.Admits b) (hfree : b.flags.hasNoType = false) (hab : D.Below a b)
    (hbc : D.Below b c) : D.Below a c := by
  have hchains : ∀ c, D.Chains c := by
    intro c
    induction c with
    | union x y ihx ihy => exact hlinear.chains_union ihx ihy
    | app f cs ih => exact hlinear.chains_app hD f ih
    | prim _ | lit _ | param _ _ =>
        refine chains_of_atOnce fun e bs h => ?_
        cases h.comparison with
        | atOnce hat => exact hat
  exact hchains c a b ha hb hfree hab hbc

end Linear

theorem singleParent_of_ordered {D : Declarations}
    (hD : ∀ i < D.size, ∀ p ∈ (D.get ⟨i⟩).parents, (∀ q ∈ (D.get ⟨i⟩).parents, p = q) ∧
      p.constructor?.isSome = true ∧ ∀ e ∈ p.constructor?, e.index < i) : D.SingleParent where
  parent_unique := fun d p hp => (hD d.index (lt_size_of_mem_parents hp) p hp).1
  acyclic := acyclic_of_ordered fun i hi p hp => (hD i hi p hp).2.2
  applied := by
    intro d p hp
    have happ := (hD d.index (lt_size_of_mem_parents hp) p hp).2.1
    cases p with
    | app e args => exact ⟨e, args, rfl⟩
    | prim _ | lit _ | union _ _ | param _ _ => exact nomatch happ

theorem linear_of_ordered {D : Declarations}
    (hD : ∀ i < D.size,
      (∀ p ∈ (D.get ⟨i⟩).parents, (∀ q ∈ (D.get ⟨i⟩).parents, p = q) ∧
        p.constructor?.isSome = true ∧ (∀ e ∈ p.constructor?, e.index < i) ∧
          p.flags.hasUnion = false ∧ p.flags.hasNoType = false) ∧
        ∀ p ∈ (D.get ⟨i⟩).params, p.variance = .covariant) : D.Linear := by
  have hsingle : D.SingleParent := singleParent_of_ordered fun i hi p hp =>
    have hparent := (hD i hi).1 p hp
    ⟨hparent.1, hparent.2.1, hparent.2.2.1⟩
  refine ⟨hsingle.parent_unique, hsingle.acyclic, hsingle.applied, fun d p hp => ?_,
    fun d p hp => ?_⟩
  · exact ((hD d.index (lt_size_of_mem_parents hp)).1 p hp).2.2.2
  · by_cases hd : d.index < D.size
    · exact (hD d.index hd).2 p hp
    · have hnone : D.items[d.index]? = none := Array.getElem?_eq_none (Nat.le_of_not_lt hd)
      rw [get, hnone] at hp
      exact absurd hp List.not_mem_nil

/-- `R[+A]` below `Some[Option[A]]`. -/
def nested : Declarations :=
  let (r, D) := Workspace.initial.decls.declare "R" [⟨"A", .covariant⟩] (.product [])
  D.extend r (.app ⟨1⟩ [.app ⟨0⟩ [.param r 0]])

theorem nested_reachable : nested.Reachable :=
  (Reachable.initial.declare "R" (.product [⟨"A", .covariant⟩])).extend ⟨8⟩ (by decide)
    (admits_unary ⟨1⟩ (by decide) rfl
      (admits_unary ⟨0⟩ (by decide) rfl (.param (by decide) 0)))

theorem nested_linear : nested.Linear := linear_of_ordered (by decide)

/-- From `R[1]` by way of `Some[Option[int]]` to `Option[Option[int | str]]`. -/
theorem below_trans_nested :
    nested.Below (.app ⟨8⟩ [.lit (.int 1)]) (.app ⟨1⟩ [.app ⟨0⟩ [.prim .int]]) ∧
      nested.Below (.app ⟨1⟩ [.app ⟨0⟩ [.prim .int]])
        (.app ⟨0⟩ [.app ⟨0⟩ [.union (.prim .int) (.prim .str)]]) ∧
      nested.Below (.app ⟨8⟩ [.lit (.int 1)])
        (.app ⟨0⟩ [.app ⟨0⟩ [.union (.prim .int) (.prim .str)]]) := by
  have hab : ((nested.within 6).isSubtype (.app ⟨8⟩ [.lit (.int 1)])
      (.app ⟨1⟩ [.app ⟨0⟩ [.prim .int]])).value? = some true := by decide
  have hbc : ((nested.within 6).isSubtype (.app ⟨1⟩ [.app ⟨0⟩ [.prim .int]])
      (.app ⟨0⟩ [.app ⟨0⟩ [.union (.prim .int) (.prim .str)]])).value? = some true := by decide
  have habelow := (below_iff_of_isSubtype hab).2 rfl
  have hbbelow := (below_iff_of_isSubtype hbc).2 rfl
  refine ⟨habelow, hbbelow, nested_linear.below_trans nested_reachable ?_ ?_ rfl habelow hbbelow⟩
  · exact admits_unary ⟨8⟩ (by decide) rfl (.lit _)
  · exact admits_unary ⟨1⟩ (by decide) rfl (admits_unary ⟨0⟩ (by decide) rfl (.prim .int))

end Declarations

end CaseCover
