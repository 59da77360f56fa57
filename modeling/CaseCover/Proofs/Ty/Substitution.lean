import CaseCover.Ty.Flags

/-!
Parameters put into types one after another. When all parameters that occur in a type
(`HasParam`) are parameters of one data type, putting arguments into it and then other
arguments into the result is the same as putting in the arguments as they become in the end
(`substitute_substitute_of_hasParam`); this is so for a type over the first parameters of a data
type (`Over`).
-/

namespace CaseCover

namespace Ty

/-- The parameters that occur in a type are among the first ones of a data type. -/
inductive Over (owner : DataId) (arity : Nat) : Ty → Prop
  | prim (p : Prim) : Over owner arity (.prim p)
  | lit (v : Literal) : Over owner arity (.lit v)
  | union {a b : Ty} (ha : Over owner arity a) (hb : Over owner arity b) :
      Over owner arity (.union a b)
  | app {d : DataId} {args : List Ty} (hargs : ∀ a ∈ args, Over owner arity a) :
      Over owner arity (.app d args)
  | param {i : Nat} (hi : i < arity) : Over owner arity (.param owner i)

/-- A parameter of a data type occurs in a type. -/
inductive HasParam (owner : DataId) (index : Nat) : Ty → Prop
  | here : HasParam owner index (.param owner index)
  | left {a b : Ty} (h : HasParam owner index a) : HasParam owner index (.union a b)
  | right {a b : Ty} (h : HasParam owner index b) : HasParam owner index (.union a b)
  | arg {d : DataId} {args : List Ty} {a : Ty} (ha : a ∈ args) (h : HasParam owner index a) :
      HasParam owner index (.app d args)

theorem Over.of_hasParam {owner o : DataId} {arity i : Nat} {t : Ty} (ht : t.Over owner arity)
    (h : t.HasParam o i) : o = owner ∧ i < arity := by
  induction h with
  | here =>
      cases ht with
      | param hi => exact ⟨rfl, hi⟩
  | left _ ih =>
      cases ht with
      | union ha _ => exact ih ha
  | right _ ih =>
      cases ht with
      | union _ hb => exact ih hb
  | arg ha _ ih =>
      cases ht with
      | app hargs => exact ih (hargs _ ha)

/-- Whether a type is a parameter other than the first ones of a data type. -/
def isForeign (owner : DataId) (arity : Nat) : Ty → Bool
  | .param o i => decide ¬(o = owner ∧ i < arity)
  | _ => false

theorem occursList_eq_false {test : Ty → Bool} {args : List Ty}
    (hargs : occursList test args = false) : ∀ a ∈ args, a.occurs test = false := by
  induction args with
  | nil => exact fun a ha => absurd ha List.not_mem_nil
  | cons t rest ih =>
      simp only [occursList, Bool.or_eq_false_iff] at hargs
      intro a ha
      rcases List.mem_cons.1 ha with rfl | ha
      · exact hargs.1
      · exact ih hargs.2 a ha

theorem over_of_occurs {owner : DataId} {arity : Nat} {t : Ty}
    (ht : t.occurs (isForeign owner arity) = false) : t.Over owner arity := by
  induction t with
  | prim p => exact .prim p
  | lit v => exact .lit v
  | union a b iha ihb =>
      simp only [occurs, Bool.or_eq_false_iff] at ht
      exact .union (iha ht.1.2) (ihb ht.2)
  | app d args ih =>
      simp only [occurs, Bool.or_eq_false_iff] at ht
      exact .app fun a ha => ih a ha (occursList_eq_false ht.2 a ha)
  | param o i =>
      simp only [occurs, isForeign, decide_eq_false_iff_not, Decidable.not_not] at ht
      obtain ⟨rfl, hi⟩ := ht
      exact .param hi

theorem Over.join {owner : DataId} {arity : Nat} {a b : Ty} (ha : a.Over owner arity)
    (hb : b.Over owner arity) : (Ty.join a b).Over owner arity := by
  unfold Ty.join
  split
  · exact ha
  · split
    · exact hb
    · exact .union ha hb

/-- Arguments over one data type, put into a type over another, give a type over the
first. -/
theorem Over.substitute {owner other : DataId} {arity n : Nat} {args : List Ty} {t : Ty}
    (ht : t.Over owner arity) (hargs : ∀ a ∈ args, a.Over other n) :
    (t.substitute owner args).Over other n := by
  induction ht with
  | prim p => exact .prim p
  | lit v => exact .lit v
  | union _ _ iha ihb => exact iha.join ihb
  | @app d inner _ ih =>
      rw [substitute_app]
      apply Over.app
      intro a ha
      obtain ⟨b, hb, rfl⟩ := List.mem_map.1 ha
      exact ih b hb
  | @param i _ =>
      rw [Ty.substitute, if_pos rfl]
      cases hi : args[i]? with
      | none => exact .prim .any
      | some a => exact hargs a (List.mem_of_getElem? hi)

theorem substitute_join (owner : DataId) (args : List Ty) (a b : Ty) :
    (Ty.join a b).substitute owner args =
      Ty.join (a.substitute owner args) (b.substitute owner args) := by
  have hnever : Ty.never.substitute owner args = Ty.never := rfl
  unfold Ty.join
  by_cases hab : a = b
  · simp [hab]
  · by_cases hb : b = never
    · simp [hb, hnever]
    · by_cases ha : a = never
      · subst ha
        rw [if_neg (by simp [hab, hb]), if_pos rfl, hnever]
        by_cases hsub : b.substitute owner args = never
        · simp [hsub]
        · simp [hsub, Ne.symm hsub]
      · rw [if_neg (by simp [hab, hb]), if_neg ha, Ty.substitute]
        rfl

/-- Arguments put into a type with the parameters of one data type only, and then further ones
into the result. -/
theorem substitute_substitute_of_hasParam {owner other : DataId} {args later : List Ty} {t : Ty}
    (ht : ∀ o i, t.HasParam o i → o = owner) :
    (t.substitute owner args).substitute other later =
      t.substitute owner (args.map (Ty.substitute other later)) := by
  induction t with
  | prim p => rfl
  | lit v => rfl
  | union a b iha ihb =>
      rw [Ty.substitute, Ty.substitute, substitute_join, iha fun o i h => ht o i h.left,
        ihb fun o i h => ht o i h.right]
  | app d inner ih =>
      rw [substitute_app, substitute_app, substitute_app, List.map_map]
      congr 1
      exact List.map_congr_left fun a ha => ih a ha fun o i h => ht o i (h.arg ha)
  | param o i =>
      obtain rfl := ht o i .here
      simp only [Ty.substitute, if_true, List.getElem?_map]
      cases args[i]? <;> rfl

/-- Arguments put into a type over a data type, and then further ones into the result. -/
theorem Over.substitute_substitute {owner other : DataId} {arity : Nat} {args later : List Ty}
    {t : Ty} (ht : t.Over owner arity) :
    (t.substitute owner args).substitute other later =
      t.substitute owner (args.map (Ty.substitute other later)) :=
  substitute_substitute_of_hasParam fun _ _ h => (ht.of_hasParam h).1

/-- A type without parameters does not depend on the arguments put in. -/
theorem Over.substitute_eq {owner : DataId} {t : Ty} (ht : t.Over owner 0)
    (args args' : List Ty) : t.substitute owner args = t.substitute owner args' := by
  induction ht with
  | prim p => rfl
  | lit v => rfl
  | union _ _ iha ihb => rw [Ty.substitute, Ty.substitute, iha, ihb]
  | @app d inner _ ih =>
      rw [substitute_app, substitute_app]
      congr 1
      exact List.map_congr_left ih
  | param hi => exact absurd hi (Nat.not_lt_zero _)

end Ty

end CaseCover
