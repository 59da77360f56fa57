import CaseCover.Proofs.Decl.Reachable
import CaseCover.Proofs.Hierarchy.SubtypingCalls
import CaseCover.Proofs.Ty.Substitution

/-!
Applications compared through their views. An application is below another exactly when its
view at the other's data type conforms argument by argument (`below_iff_of_view`). Where every
declared parent is an application over the parameters of its data type, the view of an
instance is the instance of the view of the data type itself (`upcast_instance`).
-/

namespace CaseCover

namespace Declarations

open Query (Settles)
open Relation (ReflTransGen)

theorem below_self (D : Declarations) (t : Ty) : D.Below t t := by
  apply Query.Settles.of_succ
  apply Query.settles_of_value?
  intro n
  unfold subtypeWithin
  rw [if_pos (.inl rfl), Query.value?_pure]

/-- A literal is below its built-in type. -/
theorem below_base (D : Declarations) (l : Literal) : D.Below (.lit l) (.prim l.base) := by
  have hopen : ¬ DecidedAtOnce (.lit l) (.prim l.base) := by
    cases l <;> simp [DecidedAtOnce, Literal.base]
  apply Query.Settles.of_succ
  simp only [D.subtypeWithin_lit _ hopen (by simp)]
  exact D.below_self (.prim l.base)

theorem conforms_self (D : Declarations) (v : Variance) (t : Ty) : D.Conforms v t t :=
  ⟨fun _ => D.below_self t, fun _ => D.below_self t⟩

theorem Conforms.settles {D : Declarations} {v : Variance} {a b : Ty}
    (h : D.Conforms v a b) : Settles (fun n => conformAt (D.subtypeWithin n) v a b) true := by
  cases v with
  | covariant => exact h.1 nofun
  | contravariant => exact h.2 nofun
  | invariant => exact (h.1 nofun).bind (h.2 nofun)

/-- The arguments of two applications are related, as the variance of a position says, at every
position that both have. -/
def AtPositions (R : Variance → Ty → Ty → Prop) (params : List TypeParam) (as bs : List Ty) :
    Prop :=
  ∀ (i : Nat) p a b, params[i]? = some p → as[i]? = some a → bs[i]? = some b →
    R p.variance a b

theorem atPositions_cons {R : Variance → Ty → Ty → Prop} {p : TypeParam}
    {params : List TypeParam} {a b : Ty} {as bs : List Ty} :
    AtPositions R (p :: params) (a :: as) (b :: bs) ↔
      R p.variance a b ∧ AtPositions R params as bs := by
  constructor
  · intro h
    exact ⟨h 0 p a b rfl rfl rfl, fun i => h (i + 1)⟩
  · rintro ⟨hhead, hrest⟩ i q x y hq hx hy
    cases i with
    | zero =>
        obtain rfl := Option.some.inj hq
        obtain rfl := Option.some.inj hx
        obtain rfl := Option.some.inj hy
        exact hhead
    | succ i => exact hrest i q x y hq hx hy

/-- The arguments of one application conform to those of another, at every position that
both have. -/
def ConformsAll (D : Declarations) (params : List TypeParam) (as bs : List Ty) : Prop :=
  AtPositions D.Conforms params as bs

/-- Argument lists are found to conform exactly when they do at every position. -/
theorem settles_conform_iff {D : Declarations} {params : List TypeParam} {as bs : List Ty} :
    Settles (fun n => conform (D.subtypeWithin n) params as bs) true ↔
      D.ConformsAll params as bs := by
  have hshort : Settles (fun _ => (pure true : Query Bool)) true :=
    Query.settles_of_value? fun _ => rfl
  induction params generalizing as bs with
  | nil => exact iff_of_true hshort fun i p a b hp => by simp at hp
  | cons p params ih =>
      cases as with
      | nil => exact iff_of_true hshort fun i q a b _ ha => by simp at ha
      | cons a as =>
          cases bs with
          | nil => exact iff_of_true hshort fun i q x b _ _ hb => by simp at hb
          | cons b bs =>
              have htail : Settles (fun n => conform (D.subtypeWithin n) params as bs) true ↔
                  AtPositions D.Conforms params as bs := ih
              rw [ConformsAll, atPositions_cons, ← htail]
              simp only [conform_cons]
              constructor
              · intro h
                obtain ⟨hhead, hrest⟩ := Settles.of_both h
                exact ⟨.of_settles hhead, hrest⟩
              · rintro ⟨hhead, hrest⟩
                exact hhead.settles.bind hrest

/-- An application is below another when its view at the other's data type conforms to
it. -/
theorem below_iff_of_view {D : Declarations} {d e : DataId} {as bs us : List Ty}
    (hup : (D.upcast (.app d as) e).value = some (.app e us)) :
    D.Below (.app d as) (.app e bs) ↔ D.ConformsAll (D.get e).params us bs := by
  by_cases heq : Ty.app d as = .app e bs
  · obtain ⟨rfl, rfl⟩ := Ty.app.inj heq
    rw [upcast_self] at hup
    obtain ⟨-, rfl⟩ := Ty.app.inj (Option.some.inj hup)
    refine ⟨fun _ i p a b _ ha hb => ?_, fun _ => D.below_self _⟩
    obtain rfl := Option.some.inj (ha.symm.trans hb)
    exact D.conforms_self p.variance a
  · have hopen : ¬ DecidedAtOnce (.app d as) (.app e bs) := by
      simp [DecidedAtOnce, heq]
    rw [← settles_conform_iff]
    constructor
    · rintro ⟨limit, hlimit⟩
      refine ⟨limit, fun n hn => ?_⟩
      rw [← value?_subtypeWithin_view n hopen hup]
      exact hlimit (n + 1) (by omega)
    · intro h
      exact (h.congr fun n => value?_subtypeWithin_view n hopen hup).of_succ

theorem below_app_iff {D : Declarations} {d : DataId} {as bs : List Ty} :
    D.Below (.app d as) (.app d bs) ↔ D.ConformsAll (D.get d).params as bs :=
  below_iff_of_view (D.upcast_self d as)

/-- A question about an application is the question about its view. -/
theorem below_view_iff {D : Declarations} {d e : DataId} {as bs us : List Ty}
    (hup : (D.upcast (.app d as) e).value = some (.app e us)) :
    D.Below (.app d as) (.app e bs) ↔ D.Below (.app e us) (.app e bs) :=
  (below_iff_of_view hup).trans below_app_iff.symm

theorem exists_view_of_below {D : Declarations} {d e : DataId} {as bs : List Ty}
    (h : D.Below (.app d as) (.app e bs)) :
    ∃ us, (D.upcast (.app d as) e).value = some (.app e us) := by
  cases hup : (D.upcast (.app d as) e).value with
  | some up =>
      obtain ⟨⟨us, rfl⟩, -⟩ := D.upcast_sound hup
      exact ⟨us, rfl⟩
  | none =>
      exfalso
      have hne : Ty.app d as ≠ .app e bs := by
        intro heq
        obtain ⟨rfl, -⟩ := Ty.app.inj heq
        rw [upcast_self] at hup
        exact nomatch hup
      have hopen : ¬ DecidedAtOnce (.app d as) (.app e bs) := by
        simp [DecidedAtOnce, hne]
      obtain ⟨limit, hlimit⟩ := h
      have hanswer : (D.subtypeWithin (limit + 1) (.app d as) (.app e bs)).value? = some true :=
        hlimit (limit + 1) (by omega)
      rw [subtypeWithin_app D limit hopen, Query.value?_bind, Query.value?_liftM, hup] at hanswer
      exact nomatch Option.some.inj hanswer

/-- Every declared parent is an application over the parameters of its data type. -/
def ParentsScoped (D : Declarations) : Prop :=
  ∀ d, ∀ p ∈ (D.get d).parents, (∃ e args, p = .app e args) ∧ p.Over d (D.get d).arity

theorem parentsScoped_of_forall {D : Declarations}
    (hD : ∀ i < D.size, ∀ p ∈ (D.get ⟨i⟩).parents, p.constructor?.isSome = true ∧
      p.occurs (Ty.isForeign ⟨i⟩ (D.get ⟨i⟩).arity) = false) : D.ParentsScoped := by
  intro d p hp
  obtain ⟨happ, hoccurs⟩ := hD d.index (lt_size_of_mem_parents hp) p hp
  refine ⟨?_, Ty.over_of_occurs hoccurs⟩
  cases p with
  | app e args => exact ⟨e, args, rfl⟩
  | prim _ | lit _ | union _ _ | param _ _ => exact nomatch happ

/-- The walk from instances is the walk from the types that are instantiated: where it leads
does not depend on the arguments. -/
theorem upcastFrom_instances {D : Declarations} (hD : D.ParentsScoped) (target owner : DataId)
    (args : List Ty) {arity fuel : Nat} {stack : List Ty} {seen : List DataId}
    (hstack : ∀ t ∈ stack, (∃ d inner, t = .app d inner) ∧ t.Over owner arity) :
    (D.upcastFrom target fuel (stack.map (Ty.substitute owner args)) seen).value =
        (D.upcastFrom target fuel stack seen).value.map (Ty.substitute owner args) ∧
      ∀ up, (D.upcastFrom target fuel stack seen).value = some up → up.Over owner arity := by
  induction fuel generalizing stack seen with
  | zero => simp [upcastFrom]
  | succ fuel ih =>
      cases stack with
      | nil => simp [upcastFrom]
      | cons t stack =>
          have hrest : ∀ u ∈ stack, (∃ d inner, u = .app d inner) ∧ u.Over owner arity :=
            fun u hu => hstack u (List.mem_cons_of_mem t hu)
          obtain ⟨⟨d, inner, rfl⟩, hover⟩ := hstack t List.mem_cons_self
          rw [List.map_cons, Ty.substitute_app]
          simp only [upcastFrom]
          by_cases htarget : d = target
          · simp only [if_pos htarget, Traced.value_pure, Option.map_some, Ty.substitute_app]
            refine ⟨trivial, fun up hup => ?_⟩
            obtain rfl := Option.some.inj hup
            exact hover
          rw [if_neg htarget, if_neg htarget]
          by_cases hseen : d ∈ seen
          · rw [if_pos hseen, if_pos hseen]
            exact ih hrest
          rw [if_neg hseen, if_neg hseen]
          have hinner : ∀ a ∈ inner, a.Over owner arity := by
            cases hover with
            | app hargs => exact hargs
          have hparents : D.parentsOf d (inner.map (Ty.substitute owner args)) =
              (D.parentsOf d inner).map (Ty.substitute owner args) := by
            rw [parentsOf, parentsOf, List.map_map]
            apply List.map_congr_left
            intro p hp
            exact ((hD d p hp).2.substitute_substitute).symm
          dsimp only
          rw [hparents, ← List.map_append]
          apply ih
          intro u hu
          rcases List.mem_append.1 hu with hparent | hu
          · obtain ⟨p, hp, rfl⟩ := List.mem_map.1 hparent
            obtain ⟨⟨e, pargs, rfl⟩, hscope⟩ := hD d p hp
            exact ⟨⟨e, _, Ty.substitute_app ..⟩, hscope.substitute hinner⟩
          · exact hrest u hu

theorem substitute_genericSelf {D : Declarations} {d : DataId} {args : List Ty}
    (hargs : args.length = (D.get d).arity) :
    (D.genericSelf d).substitute d args = .app d args := by
  rw [genericSelf, Ty.ownApplication, Ty.substitute_app, List.map_map]
  congr 1
  apply List.ext_getElem (by simp [hargs])
  intro i hi hi'
  simp [Ty.substitute, hi']

/-- The view of an instance of a data type is the instance of the view of the data type. -/
theorem upcast_instance {D : Declarations} (hD : D.ParentsScoped) {d : DataId} {args : List Ty}
    (hargs : args.length = (D.get d).arity) (target : DataId) :
    (D.upcast (.app d args) target).value =
        (D.upcast (D.genericSelf d) target).value.map (Ty.substitute d args) ∧
      ∀ up, (D.upcast (D.genericSelf d) target).value = some up →
        up.Over d (D.get d).arity := by
  rw [← substitute_genericSelf hargs]
  change (D.upcastFrom target _ ([D.genericSelf d].map (Ty.substitute d args)) []).value = _ ∧ _
  apply upcastFrom_instances hD target d args
  intro t ht
  rw [List.mem_singleton.1 ht]
  refine ⟨⟨d, _, rfl⟩, .app fun a ha => ?_⟩
  obtain ⟨i, hi, rfl⟩ := List.mem_map.1 ha
  exact .param (List.mem_range.1 hi)

theorem not_below_app_of_lit {D : Declarations} {l : Literal} {d : DataId} {args : List Ty} :
    ¬ D.Below (.lit l) (.app d args) := by
  rintro ⟨limit, hlimit⟩
  have hopen : ¬ DecidedAtOnce (.lit l) (.app d args) := by simp [DecidedAtOnce]
  have hanswer := hlimit (limit + 2) (by omega)
  simp only [D.subtypeWithin_lit _ hopen (by simp)] at hanswer
  unfold subtypeWithin at hanswer
  cases l <;> simp [Literal.base] at hanswer

/-- Every declared parent is an application. -/
def ParentsApplied (D : Declarations) : Prop :=
  ∀ d, ∀ p ∈ (D.get d).parents, ∃ e args, p = .app e args

theorem ParentsScoped.applied {D : Declarations} (hD : D.ParentsScoped) : D.ParentsApplied :=
  fun d p hp => (hD d p hp).1

/-- Where every declared parent is an application, the steps up from an application lead to
applications, of data types from which its own descends. -/
theorem inherits_of_stepsUp {D : Declarations} (hD : D.ParentsApplied) {d : DataId}
    {args : List Ty} {up : Ty} (h : ReflTransGen D.StepsUp (.app d args) up) :
    ∃ e us, up = .app e us ∧ ReflTransGen D.Inherits d e := by
  induction h with
  | refl => exact ⟨d, args, rfl, .refl⟩
  | tail _ hstep ih =>
      obtain ⟨m, ms, rfl, hreach⟩ := ih
      obtain ⟨_, _, heq, hparent⟩ := hstep
      obtain ⟨rfl, rfl⟩ := Ty.app.inj heq
      obtain ⟨p, hp, rfl⟩ := List.mem_map.1 hparent
      obtain ⟨e, es, rfl⟩ := hD m p hp
      exact ⟨e, _, Ty.substitute_app .., hreach.tail ⟨_, hp, rfl⟩⟩

theorem inherits_of_below {D : Declarations} (hD : D.ParentsScoped) {d e : DataId} {as bs : List Ty}
    (h : D.Below (.app d as) (.app e bs)) : ReflTransGen D.Inherits d e := by
  obtain ⟨us, hus⟩ := exists_view_of_below h
  obtain ⟨_, _, heq, hreach⟩ := inherits_of_stepsUp hD.applied (D.upcast_sound hus).2
  obtain ⟨rfl, -⟩ := Ty.app.inj heq
  exact hreach

end Declarations

end CaseCover
