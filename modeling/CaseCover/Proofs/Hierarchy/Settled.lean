import CaseCover.Proofs.Hierarchy.Children
import CaseCover.Proofs.Hierarchy.JoinEnds
import CaseCover.Proofs.Hierarchy.SubtypingEnds

/-!
Declarations under which every question about types has an answer. They are so when each data
type is declared after all those that its parents mention (`settled_of_ordered`), and then the
direct subtypes of a type are found as well (`Settled.directSubtypes_ends`).
-/

namespace CaseCover

namespace Ty

mutual

/-- The data types that occur in a type. -/
def mentioned : Ty → List DataId
  | .app d args => d :: mentionedList args
  | .union a b => a.mentioned ++ b.mentioned
  | _ => []

/-- The data types that occur in a list of types. -/
def mentionedList : List Ty → List DataId
  | [] => []
  | t :: ts => t.mentioned ++ mentionedList ts

end

theorem mem_mentionedList {d : DataId} {ts : List Ty} {t : Ty} (ht : t ∈ ts)
    (hd : d ∈ t.mentioned) : d ∈ mentionedList ts := by
  induction ts with
  | nil => exact absurd ht List.not_mem_nil
  | cons first ts ih =>
      rw [mentionedList]
      rcases List.mem_cons.1 ht with rfl | ht
      · exact List.mem_append_left _ hd
      · exact List.mem_append_right _ (ih ht)

theorem Mentions.mem_mentioned {d : DataId} {t : Ty} (h : t.Mentions d) : d ∈ t.mentioned := by
  induction h with
  | root args => exact List.mem_cons_self
  | arg ht _ ih => exact List.mem_cons_of_mem _ (mem_mentionedList ht ih)
  | left _ ih => exact List.mem_append_left _ ih
  | right _ ih => exact List.mem_append_right _ ih

end Ty

namespace Declarations

open Query (Ends ends_pure)
open Relation (TransGen)

/-- Every question about subtyping and every join has an answer. -/
structure Settled (D : Declarations) : Prop where
  subtype (a b : Ty) : D.SubtypeFinite a b
  join (a b : Ty) : D.JoinFinite a b

variable {D : Declarations}

/-- Declarations are settled when each data type is declared after all those that its parents
mention. -/
theorem settled_of_ordered (hordered : ∀ i < D.size, ∀ p ∈ (D.get ⟨i⟩).parents,
    ∀ e ∈ p.mentioned, e.index < i) : D.Settled := by
  have step : ∀ e d, D.MentionedBy e d → e.index < d.index := by
    rintro e d ⟨p, hp, he⟩
    exact hordered d.index (lt_size_of_mem_parents hp) p hp e he.mem_mentioned
  have descend : ∀ e d, TransGen D.MentionedBy e d → e.index < d.index := by
    intro e d h
    induction h with
    | single h => exact step _ _ h
    | tail _ h ih => exact Nat.lt_trans ih (step _ _ h)
  have grounded (t : Ty) : D.Grounded t :=
    fun _ e _ _ hcycle => Nat.lt_irrefl _ (descend e e hcycle)
  exact ⟨fun a b => (D.subtype_question_ends a b).2 (.inl (grounded a)),
    fun a b => (D.join_ends a b).2 (.inl (grounded a))⟩

theorem Settled.isSubtype_ends (hD : D.Settled) (a b : Ty) :
    Ends fun n => (D.within n).isSubtype a b :=
  (hD.subtype a b).ends

theorem bindParamsList_ends {owner : DataId} {ts : List Ty}
    (hts : ∀ t ∈ ts, ∀ actual bindings,
      Ends fun n => (D.within n).bindParams owner t actual bindings)
    (actuals : List Ty) (bindings : List (Option Ty)) :
    Ends fun n => (D.within n).bindParamsList owner ts actuals bindings := by
  induction ts generalizing actuals bindings with
  | nil => exact ends_pure bindings
  | cons t ts ih =>
      cases actuals with
      | nil => exact ends_pure bindings
      | cons actual actuals =>
          refine (hts t List.mem_cons_self actual bindings).bind fun known _ => ?_
          exact ih (fun u hu => hts u (List.mem_cons_of_mem t hu)) actuals known

theorem Settled.bindParams_ends (hD : D.Settled) (owner : DataId) (t actual : Ty)
    (bindings : List (Option Ty)) :
    Ends fun n => (D.within n).bindParams owner t actual bindings := by
  induction t generalizing actual bindings with
  | prim p => cases actual <;> exact ends_pure bindings
  | lit v => cases actual <;> exact ends_pure bindings
  | union a b _ _ => cases actual <;> exact ends_pure bindings
  | param o i =>
      unfold Hierarchy.bindParams
      split
      · split
        · exact ends_pure _
        · exact ends_pure _
        · exact (hD.join _ _).ends.map _
      · exact ends_pure _
  | app d args ih =>
      cases actual with
      | app e actuals =>
          unfold Hierarchy.bindParams
          split
          · exact bindParamsList_ends ih actuals bindings
          · exact ends_pure _
      | prim _ | lit _ | union _ _ | param _ _ => exact ends_pure bindings

theorem Settled.instantiateChild_ends (hD : D.Settled) (child : DataId) (target : Ty) :
    Ends fun n => (D.within n).instantiateChild child target := by
  cases target with
  | app parent actuals =>
      unfold Hierarchy.instantiateChild
      dsimp only
      split
      on_goal 2 =>
        refine (Query.build_ends _).bind fun generic _ => ?_
        refine (Query.liftM_ends _).bind fun view _ => ?_
        cases view
        on_goal 2 =>
          refine (bindParamsList_ends (fun t _ => hD.bindParams_ends child t) _ _).bind
            fun bindings _ => ?_
      -- However the arguments were solved for, the candidate is asked about once.
      all_goals
        refine (ends_pure _).bind fun args? _ => ?_
        cases args? with
        | none => exact ends_pure none
        | some args =>
            exact (Query.build_ends _).bind fun candidate _ => (hD.isSubtype_ends _ _).map _
  | prim _ | lit _ | union _ _ | param _ _ => exact ends_pure none

/-- Direct subtypes are found where subtyping and joins are. -/
theorem Settled.directSubtypes_ends (hD : D.Settled) (t : Ty) :
    Ends fun n => (D.within n).directSubtypes t := by
  cases t with
  | app d args =>
      unfold Hierarchy.directSubtypes
      dsimp only
      split
      · exact Query.filterMap_ends (fun child => hD.instantiateChild_ends child _) _
      · exact ends_pure []
  | prim p =>
      cases p with
      | bool =>
          refine (Query.build_ends _).bind fun yes _ => ?_
          exact (Query.build_ends _).bind fun no _ => ends_pure [yes, no]
      | _ => exact ends_pure []
  | union _ _ => exact ends_pure _
  | lit _ | param _ _ => exact ends_pure []

end Declarations

end CaseCover
