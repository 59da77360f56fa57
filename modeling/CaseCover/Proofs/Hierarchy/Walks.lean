import Mathlib.Logic.Relation
import CaseCover.Hierarchy.Ancestry

/-!
Where the walks along parents lead. A type steps up to its instantiated parents; what
`upcast` finds is reached by such steps and is an application of the data type that
was looked for, and what `ancestors` lists is reached likewise and belongs to another
data type than the start.
-/

namespace CaseCover

theorem Ty.constructor?_eq_some {t : Ty} {d : DataId} (ht : t.constructor? = some d) :
    ∃ args, t = .app d args := by
  cases t with
  | app e args =>
      obtain rfl : e = d := Option.some.inj ht
      exact ⟨args, rfl⟩
  | prim _ | lit _ | union _ _ | param _ _ => exact nomatch ht

namespace Declarations

open Relation (ReflTransGen TransGen)

/-- A type steps up to its declared parents with its arguments put in. -/
def StepsUp (D : Declarations) (t up : Ty) : Prop :=
  ∃ adt args, t = .app adt args ∧ up ∈ D.parentsOf adt args

theorem stepsUp_app {D : Declarations} {adt : DataId} {args : List Ty} {up : Ty}
    (hup : up ∈ D.parentsOf adt args) : D.StepsUp (.app adt args) up :=
  ⟨adt, args, rfl, hup⟩

/-- The walks pass over what is no application. -/
theorem upcastFrom_of_constructor? (D : Declarations) (target : DataId) {t : Ty}
    (ht : t.constructor? = none) (fuel : Nat) (stack : List Ty) (seen : List DataId) :
    D.upcastFrom target (fuel + 1) (t :: stack) seen = D.upcastFrom target fuel stack seen := by
  cases t with
  | app e args => exact nomatch ht
  | prim _ | lit _ | union _ _ | param _ _ => rfl

theorem ancestorsFrom_of_constructor? (D : Declarations) (start : Ty) {t : Ty}
    (ht : t.constructor? = none) (fuel : Nat) (queue : List Ty) (seen : List DataId) :
    D.ancestorsFrom start (fuel + 1) (t :: queue) seen = D.ancestorsFrom start fuel queue seen := by
  cases t with
  | app e args => exact nomatch ht
  | prim _ | lit _ | union _ _ | param _ _ => rfl

/-- What the walk towards `target` finds lies above a type of the stack. -/
theorem upcastFrom_sound (D : Declarations) (target : DataId) (fuel : Nat)
    (stack : List Ty) (seen : List DataId) {up : Ty}
    (hfound : (D.upcastFrom target fuel stack seen).value = some up) :
    (∃ args, up = .app target args) ∧ ∃ t ∈ stack, ReflTransGen D.StepsUp t up := by
  induction fuel generalizing stack seen with
  | zero => simp [upcastFrom] at hfound
  | succ fuel ih =>
      have skip : ∀ (head : Ty) (rest : List Ty) (seen : List DataId),
          (D.upcastFrom target fuel rest seen).value = some up →
          (∃ args, up = .app target args) ∧
            ∃ t ∈ head :: rest, ReflTransGen D.StepsUp t up := by
        intro head rest seen hrest
        obtain ⟨hroot, t, ht, hreach⟩ := ih rest seen hrest
        exact ⟨hroot, t, List.mem_cons_of_mem head ht, hreach⟩
      cases stack with
      | nil => simp [upcastFrom] at hfound
      | cons head rest =>
          cases head with
          | app adt args =>
              simp only [upcastFrom] at hfound
              by_cases htarget : adt = target
              · subst htarget
                rw [if_pos rfl] at hfound
                obtain rfl : Ty.app adt args = up := by simpa using hfound
                exact ⟨⟨args, rfl⟩, _, List.mem_cons_self, .refl⟩
              · rw [if_neg htarget] at hfound
                by_cases hseen : adt ∈ seen
                · rw [if_pos hseen] at hfound
                  exact skip _ rest seen hfound
                · rw [if_neg hseen] at hfound
                  obtain ⟨hroot, t, ht, hreach⟩ := ih _ _ hfound
                  refine ⟨hroot, ?_⟩
                  rcases List.mem_append.1 ht with hparent | hrest
                  · exact ⟨_, List.mem_cons_self, .head (stepsUp_app hparent) hreach⟩
                  · exact ⟨t, List.mem_cons_of_mem _ hrest, hreach⟩
          | prim _ | lit _ | union _ _ | param _ _ => exact skip _ rest seen hfound

/-- A view of a type at a data type is an application of it above the type. -/
theorem upcast_sound (D : Declarations) {t up : Ty} {target : DataId}
    (hup : (D.upcast t target).value = some up) :
    (∃ args, up = .app target args) ∧ ReflTransGen D.StepsUp t up := by
  obtain ⟨hroot, s, hs, hreach⟩ := D.upcastFrom_sound target _ _ _ hup
  rw [List.mem_singleton] at hs
  exact ⟨hroot, hs ▸ hreach⟩

theorem upcast_self (D : Declarations) (adt : DataId) (args : List Ty) :
    (D.upcast (.app adt args) adt).value = some (.app adt args) := by
  simp [upcast, walkLimit, upcastFrom]

/-- What the walk to all ancestors lists lies above a type of the queue, and its data
type was not seen before. -/
theorem ancestorsFrom_sound (D : Declarations) (start : Ty) (fuel : Nat)
    (queue : List Ty) (seen : List DataId) :
    ∀ up ∈ (D.ancestorsFrom start fuel queue seen).value,
      (∃ adt args, up = .app adt args ∧ adt ∉ seen) ∧
        ∃ t ∈ queue, ReflTransGen D.StepsUp t up := by
  induction fuel generalizing queue seen with
  | zero => simp [ancestorsFrom]
  | succ fuel ih =>
      intro up hup
      have skip : ∀ (head : Ty) (rest : List Ty),
          up ∈ (D.ancestorsFrom start fuel rest seen).value →
          (∃ adt args, up = .app adt args ∧ adt ∉ seen) ∧
            ∃ t ∈ head :: rest, ReflTransGen D.StepsUp t up := by
        intro head rest hrest
        obtain ⟨hroot, t, ht, hreach⟩ := ih rest seen up hrest
        exact ⟨hroot, t, List.mem_cons_of_mem head ht, hreach⟩
      cases queue with
      | nil => simp [ancestorsFrom] at hup
      | cons head rest =>
          cases head with
          | app adt args =>
              simp only [ancestorsFrom] at hup
              by_cases hseen : adt ∈ seen
              · rw [if_pos hseen] at hup
                exact skip _ rest hup
              · rw [if_neg hseen] at hup
                have later : up ∈ (D.ancestorsFrom start fuel
                      (rest ++ D.parentsOf adt args) (adt :: seen)).value →
                    (∃ adt args, up = .app adt args ∧ adt ∉ seen) ∧
                      ∃ t ∈ Ty.app adt args :: rest, ReflTransGen D.StepsUp t up := by
                  intro hmem
                  obtain ⟨⟨d, as, hd, hnew⟩, t, ht, hreach⟩ := ih _ _ up hmem
                  refine ⟨⟨d, as, hd, fun h => hnew (List.mem_cons_of_mem adt h)⟩, ?_⟩
                  rcases List.mem_append.1 ht with hrest | hparent
                  · exact ⟨t, List.mem_cons_of_mem _ hrest, hreach⟩
                  · exact ⟨_, List.mem_cons_self, .head (stepsUp_app hparent) hreach⟩
                by_cases hstart : Ty.app adt args = start
                · simp only [hstart, if_true] at hup
                  exact hstart ▸ later hup
                · simp only [hstart, if_false] at hup
                  rcases List.mem_cons.1 hup with rfl | hmem
                  · exact ⟨⟨adt, args, rfl, hseen⟩, _, List.mem_cons_self, .refl⟩
                  · exact later hmem
          | prim _ | lit _ | union _ _ | param _ _ => exact skip _ rest hup

/-- The ancestors of an application lie strictly above it and belong to other data
types. -/
theorem ancestors_app_sound (D : Declarations) (adt : DataId) (args : List Ty) :
    ∀ up ∈ (D.ancestors (.app adt args)).value,
      (∃ d as, up = .app d as ∧ d ≠ adt) ∧
        TransGen D.StepsUp (.app adt args) up := by
  intro up hup
  simp only [ancestors, walkLimit, ancestorsFrom, List.not_mem_nil, if_false,
    if_true, List.nil_append] at hup
  obtain ⟨⟨d, as, hd, hnew⟩, t, ht, hreach⟩ := D.ancestorsFrom_sound _ _ _ _ up hup
  refine ⟨⟨d, as, hd, fun h => hnew (by simp [h])⟩, ?_⟩
  exact .head' (stepsUp_app ht) hreach

theorem ancestors_eq_nil (D : Declarations) {t : Ty} (ht : t.app? = none) :
    (D.ancestors t).value = [] := by
  have empty : ∀ fuel, (D.ancestorsFrom t fuel [] []).value = [] := by
    intro fuel
    cases fuel <;> rfl
  cases t with
  | app adt args => simp [Ty.app?] at ht
  | prim _ | lit _ | union _ _ | param _ _ => exact empty _

end Declarations

end CaseCover
