import CaseCover.Proofs.Hierarchy.Children
import CaseCover.Proofs.Hierarchy.Descent
import CaseCover.Proofs.Hierarchy.Views

/-!
Which view the walk towards a data type finds. The walk goes depth first and stops at the
first application of the data type, so it finds a view at every data type that is inherited
from (`exists_view_of_inherits`), and what leads elsewhere is passed over
(`upcastFrom_passes`). A declared parent is a supertype exactly when the view found at its data
type is below it (`declared_parent_above`); a route that is walked before the parent and leads to
another application of its data type can hide it.
-/

namespace CaseCover

namespace Declarations

open Relation (ReflTransGen)

/-- The data types inherited from are those that the instantiated parents are applications of. -/
theorem mem_constructors_parentsOf {D : Declarations} {d e : DataId} (args : List Ty)
    (h : D.Inherits d e) : e ∈ (D.parentsOf d args).filterMap Ty.constructor? := by
  obtain ⟨p, hp, hpe⟩ := h
  refine List.mem_filterMap.2 ⟨p.substitute d args, List.mem_map_of_mem hp, ?_⟩
  cases p with
  | app e' inner => rwa [Ty.substitute_app]
  | prim _ | lit _ | union _ _ | param _ _ => simp [Ty.constructor?] at hpe

/-- The walk to a view of a type ends with a result. -/
inductive UpcastEnds (D : Declarations) (target : DataId) :
    List Ty → List DataId → Option Ty → Prop
  | exhausted (seen : List DataId) : D.UpcastEnds target [] seen none
  | passed {t : Ty} {stack : List Ty} {seen : List DataId} {result : Option Ty}
      (ht : t.constructor? = none) (h : D.UpcastEnds target stack seen result) :
      D.UpcastEnds target (t :: stack) seen result
  | found (args stack : List Ty) (seen : List DataId) :
      D.UpcastEnds target (.app target args :: stack) seen (some (.app target args))
  | skipped {d : DataId} {args stack : List Ty} {seen : List DataId} {result : Option Ty}
      (hd : d ≠ target) (hseen : d ∈ seen) (h : D.UpcastEnds target stack seen result) :
      D.UpcastEnds target (.app d args :: stack) seen result
  | expanded {d : DataId} {args stack : List Ty} {seen : List DataId} {result : Option Ty}
      (hd : d ≠ target) (hnew : d ∉ seen)
      (h : D.UpcastEnds target (D.parentsOf d args ++ stack) (d :: seen) result) :
      D.UpcastEnds target (.app d args :: stack) seen result

/-- The function with a limit gives what the walk ends with, when its steps suffice. -/
theorem upcastFrom_ends {D : Declarations} {target : DataId} {fuel : Nat} {stack : List Ty}
    {seen : List DataId} (hfuel : stack.length + D.unseen seen ≤ fuel) :
    D.UpcastEnds target stack seen (D.upcastFrom target fuel stack seen).value := by
  refine walk_induct (motive := fun fuel stack seen =>
    D.UpcastEnds target stack seen (D.upcastFrom target fuel stack seen).value)
    Ty.constructor? ?finished ?passed ?skipped ?expanded hfuel
  case finished => exact fun fuel seen => by cases fuel <;> exact .exhausted seen
  case passed =>
    intro fuel next rest seen hnext ih
    rw [upcastFrom_of_constructor? _ _ hnext]
    exact .passed hnext ih
  case skipped =>
    intro fuel next rest seen d hnext hseen ih
    obtain ⟨args, rfl⟩ := Ty.constructor?_eq_some hnext
    by_cases hd : d = target
    · simpa [upcastFrom, hd] using .found args rest seen
    · simpa [upcastFrom, hd, hseen] using .skipped hd hseen ih
  case expanded =>
    intro fuel next rest seen d hnext hnew ih
    obtain ⟨args, rfl⟩ := Ty.constructor?_eq_some hnext
    by_cases hd : d = target
    · simpa [upcastFrom, hd] using .found args rest seen
    · simp only [upcastFrom, if_neg hd, if_neg hnew]
      exact .expanded hd hnew (ih _ (by simp [parentsOf, Nat.add_comm]))

/-- A walk that has still to find an application of the data type that it looks for finds one. -/
theorem UpcastEnds.complete {D : Declarations} {target : DataId} {stack : List Ty}
    {seen : List DataId} {result : Option Ty} (h : D.UpcastEnds target stack seen result)
    (happroaches : D.Approaches target (stack.filterMap Ty.constructor?) seen) :
    ∃ up, result = some up := by
  induction h with
  | exhausted seen => exact absurd rfl happroaches.stack_ne_nil
  | passed ht _ ih =>
      rw [List.filterMap_cons_none ht] at happroaches
      exact ih happroaches
  | found args stack seen => exact ⟨_, rfl⟩
  | skipped _ hseen _ ih => exact ih (happroaches.skip hseen)
  | @expanded d args stack seen result hd _ _ ih =>
      rw [List.filterMap_append] at ih
      exact ih (happroaches.expand hd (fun e he => List.mem_append_right _ he) fun e he =>
        List.mem_append_left _ (mem_constructors_parentsOf args he))

/-- A view is found at every data type that is inherited from. -/
theorem exists_view_of_inherits {D : Declarations} {d e : DataId} (args : List Ty)
    (h : ReflTransGen D.Inherits d e) :
    ∃ us, (D.upcast (.app d args) e).value = some (.app e us) := by
  have hends : D.UpcastEnds e [.app d args] [] (D.upcast (.app d args) e).value :=
    upcastFrom_ends (D.walkLimit_enough _)
  obtain ⟨up, hup⟩ := hends.complete (.start h)
  obtain ⟨⟨us, rfl⟩, -⟩ := D.upcast_sound hup
  exact ⟨us, hup⟩

/-- The walk passes over types that do not lead to the data type that it looks for, and stops at
the application after them. -/
theorem upcastFrom_passes {D : Declarations} {target : DataId} {us : List Ty} {fuel : Nat}
    {before after : List Ty} {seen : List DataId}
    (hfuel : before.length + 1 + D.unseen seen ≤ fuel)
    (hbefore : ∀ t ∈ before, ∀ vs, ¬ ReflTransGen D.StepsUp t (.app target vs)) :
    (D.upcastFrom target fuel (before ++ .app target us :: after) seen).value =
      some (.app target us) := by
  induction fuel generalizing before seen with
  | zero => omega
  | succ fuel ih =>
      cases before with
      | nil => simp [upcastFrom]
      | cons t before =>
          rw [List.length_cons] at hfuel
          have hrest : ∀ u ∈ before, ∀ vs, ¬ ReflTransGen D.StepsUp u (.app target vs) :=
            fun u hu => hbefore u (List.mem_cons_of_mem t hu)
          rw [List.cons_append]
          cases t with
          | app adt args =>
              have hother : adt ≠ target := by
                rintro rfl
                exact hbefore _ List.mem_cons_self args .refl
              simp only [upcastFrom, if_neg hother]
              by_cases hseen : adt ∈ seen
              · rw [if_pos hseen]
                exact ih (by omega) hrest
              rw [if_neg hseen, ← List.append_assoc]
              apply ih
              · have hunseen := unseen_cons (D := D) hseen
                rw [List.length_append, parentsOf, List.length_map]
                omega
              · intro u hu vs hreach
                rcases List.mem_append.1 hu with hparent | hu
                · exact hbefore _ List.mem_cons_self vs (.head (stepsUp_app hparent) hreach)
                · exact hrest u hu vs hreach
          | prim _ | lit _ | union _ _ | param _ _ => exact ih (by omega) hrest

/-- The walk from an application stops at a declared parent when no parent declared before it
leads to the same data type. -/
theorem upcast_eq_parent {D : Declarations} {c e : DataId} {inner args before after : List Ty}
    (hparents : (D.get c).parents = before ++ .app e inner :: after) (hne : c ≠ e)
    (hbefore : ∀ p ∈ before, ∀ vs,
      ¬ ReflTransGen D.StepsUp (p.substitute c args) (.app e vs)) :
    (D.upcast (.app c args) e).value = some ((Ty.app e inner).substitute c args) := by
  have hinstances : D.parentsOf c args = before.map (Ty.substitute c args) ++
      .app e (inner.map (Ty.substitute c args)) :: after.map (Ty.substitute c args) := by
    rw [parentsOf, hparents, List.map_append, List.map_cons, Ty.substitute_app]
  have hnew : c ∉ ([] : List DataId) := List.not_mem_nil
  have hunseen := unseen_cons (D := D) hnew
  rw [unseen_nil, hparents, List.length_append, List.length_cons] at hunseen
  rw [upcast, walkLimit]
  simp only [upcastFrom, if_neg hne, List.not_mem_nil, if_false, List.append_nil]
  rw [hinstances, Ty.substitute_app]
  apply upcastFrom_passes
  · rw [List.length_map]
    omega
  · intro t ht vs
    obtain ⟨p, hp, rfl⟩ := List.mem_map.1 ht
    exact hbefore p hp vs

/-- A declared parent that is an application is above its data type's applications exactly when
the view that is found of them at the parent's data type is below it. So it is when every
application of that data type to which the parents lead is below it, and when no parent
declared before it leads to that data type. -/
theorem declared_parent_above {D : Declarations} {c e : DataId} {inner before after : List Ty}
    (hparents : (D.get c).parents = before ++ .app e inner :: after) (args : List Ty) :
    (∃ view, (D.upcast (.app c args) e).value = some view ∧
        (D.Below (.app c args) ((Ty.app e inner).substitute c args) ↔
          D.Below view ((Ty.app e inner).substitute c args))) ∧
      ((∀ us, ReflTransGen D.StepsUp (.app c args) (.app e us) →
          D.Below (.app e us) ((Ty.app e inner).substitute c args)) →
        D.Below (.app c args) ((Ty.app e inner).substitute c args)) ∧
      (c ≠ e → (∀ p ∈ before, ∀ us,
          ¬ ReflTransGen D.StepsUp (p.substitute c args) (.app e us)) →
        D.Below (.app c args) ((Ty.app e inner).substitute c args)) := by
  have hinherits : D.Inherits c e := by
    refine ⟨.app e inner, ?_, rfl⟩
    rw [hparents]
    exact List.mem_append_right _ List.mem_cons_self
  obtain ⟨us, hup⟩ := exists_view_of_inherits args (.single hinherits)
  have hview : D.Below (.app c args) ((Ty.app e inner).substitute c args) ↔
      D.Below (.app e us) ((Ty.app e inner).substitute c args) := by
    rw [Ty.substitute_app]
    exact below_view_iff hup
  refine ⟨⟨.app e us, hup, hview⟩, fun hall => ?_, fun hne hbefore => ?_⟩
  · exact hview.2 (hall us (D.upcast_sound hup).2)
  · have hfirst := upcast_eq_parent hparents hne hbefore
    rw [hup] at hfirst
    rw [hview, Option.some.inj hfirst]
    exact D.below_self _

/-- `P[+A]`, `Q` below `P[any]`, and `C` with parents of its own. -/
def diamond (parents : List Ty) : Declarations :=
  let (p, D) := Workspace.initial.decls.declare "P" [⟨"A", .covariant⟩] (.abstractType false)
  let (q, D) := D.declare "Q" [] (.abstractType false)
  let (c, D) := D.declare "C" [] .singleton
  parents.foldl (fun D parent => D.extend c parent) (D.extend q (.app p [.any]))

/-- A parent that is declared second, where the first does not lead to its data type. -/
theorem declared_parent_above_second :
    ((diamond [.app ⟨8⟩ [.prim .int], .app ⟨9⟩ []]).get ⟨10⟩).parents =
        [.app ⟨8⟩ [.prim .int]] ++ .app ⟨9⟩ [] :: [] ∧
      (diamond [.app ⟨8⟩ [.prim .int], .app ⟨9⟩ []]).Below (.app ⟨10⟩ []) (.app ⟨9⟩ []) := by
  have hparents : ((diamond [.app ⟨8⟩ [.prim .int], .app ⟨9⟩ []]).get ⟨10⟩).parents =
      [.app ⟨8⟩ [.prim .int]] ++ .app ⟨9⟩ [] :: [] := by decide
  refine ⟨hparents, (declared_parent_above hparents []).2.2 (by decide) ?_⟩
  intro p hp us hreach
  obtain rfl := List.mem_singleton.1 hp
  -- `P` has no parents, so nothing is above its applications but they themselves.
  rcases hreach.cases_head with heq | ⟨up, ⟨adt, as, happ, hup⟩, -⟩
  · exact absurd (Ty.app.inj heq).1 (by decide)
  · obtain ⟨rfl, -⟩ := Ty.app.inj happ
    have hnone : ((diamond [.app ⟨8⟩ [.prim .int], .app ⟨9⟩ []]).get ⟨8⟩).parents = [] := by
      decide
    rw [parentsOf, hnone] at hup
    exact absurd hup List.not_mem_nil

theorem diamond_reachable :
    (diamond [.app ⟨9⟩ [], .app ⟨8⟩ [.prim .int]]).Reachable := by
  have hdeclared := ((Reachable.initial.declare "P"
    (.abstractType [⟨"A", .covariant⟩] false)).declare "Q" (.abstractType [] false)).declare "C"
      .singleton
  have hq := hdeclared.extend ⟨9⟩ (by decide) (admits_unary ⟨8⟩ (by decide) rfl (.prim .any))
  have hfirst := hq.extend ⟨10⟩ (by decide) (admits_nullary ⟨9⟩ (by decide) rfl)
  exact hfirst.extend ⟨10⟩ (by decide) (admits_unary ⟨8⟩ (by decide) rfl (.prim .int))

theorem diamond_acyclic : (diamond [.app ⟨9⟩ [], .app ⟨8⟩ [.prim .int]]).Acyclic := by
  refine acyclic_of_ordered ?_
  decide

/-- Not every declared parent is a supertype: `C` is viewed as `P[any]`, by way of `Q`, and so it
is not below its own parent `P[int]`. -/
theorem exists_hidden_parent :
    ¬ ∀ D : Declarations, D.Reachable → D.Acyclic → ∀ (c e : DataId) (inner : List Ty),
      .app e inner ∈ (D.get c).parents → ∀ args : List Ty, args.length = (D.get c).arity →
        (∀ a ∈ args, D.Admits a) →
          D.Below (.app c args) ((Ty.app e inner).substitute c args) := by
  intro hall
  have hbelow := hall _ diamond_reachable diamond_acyclic ⟨10⟩ ⟨8⟩ [.prim .int] (by decide) []
    rfl nofun
  have hrefused : (((diamond [.app ⟨9⟩ [], .app ⟨8⟩ [.prim .int]]).within 4).isSubtype
      (.app ⟨10⟩ []) (.app ⟨8⟩ [.prim .int])).value? = some false := by decide
  exact Bool.false_ne_true ((below_iff_of_isSubtype hrefused).1 hbelow)

end Declarations

end CaseCover
