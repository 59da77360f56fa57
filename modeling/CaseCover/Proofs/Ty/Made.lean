import CaseCover.Proofs.Ty.Flags
import CaseCover.Proofs.Ty.Substitution

/-!
The types that clients can build. Types are put together by a few functions only, and the one
for unions drops an equal or an empty side; a type built with them (`Made`) has therefore in
each of its unions two different sides that are not empty (`Made.reduced`). Putting types that
were built into one that was built is building again (`Made.substitute`).
-/

namespace CaseCover

namespace Ty

/-- The types that are built by the functions for it. -/
inductive Made : Ty → Prop
  | prim (p : Prim) : Made (.prim p)
  | ofLiteral (v : Literal) : Made (ofLiteral v)
  | join {a b : Ty} (ha : Made a) (hb : Made b) : Made (join a b)
  | app (d : DataId) {args : List Ty} (hargs : ∀ a ∈ args, Made a) : Made (.app d args)
  | parameter (owner : DataId) (position : Nat) : Made (parameter owner position)

/-- The sides of every union in a type are different, and neither is empty. -/
inductive Reduced : Ty → Prop
  | prim (p : Prim) : Reduced (.prim p)
  | lit (v : Literal) : Reduced (.lit v)
  | union {a b : Ty} (ha : Reduced a) (hb : Reduced b) (hdiffer : a ≠ b) (hleft : a ≠ never)
      (hright : b ≠ never) : Reduced (.union a b)
  | app {d : DataId} {args : List Ty} (hargs : ∀ a ∈ args, Reduced a) : Reduced (.app d args)
  | param (owner : DataId) (index : Nat) : Reduced (.param owner index)

variable {a b t : Ty} {owner : DataId} {args : List Ty}

/-- Two sides that are different and not empty stay as they are in a union. -/
theorem join_eq_union (hdiffer : a ≠ b) (hleft : a ≠ never) (hright : b ≠ never) :
    join a b = .union a b := by
  simp [join, hdiffer, hleft, hright]

theorem ofLiteral_eq (v : Literal) : ofLiteral v = unit ∨ ofLiteral v = .lit v := by
  cases v <;> simp [ofLiteral]

@[simp] theorem ofLiteral_substitute (owner : DataId) (args : List Ty) (v : Literal) :
    (ofLiteral v).substitute owner args = ofLiteral v := by
  rcases ofLiteral_eq v with h | h <;> rw [h] <;> rfl

theorem reduced_ofLiteral (v : Literal) : (ofLiteral v).Reduced := by
  rcases ofLiteral_eq v with h | h <;> rw [h]
  · exact .prim .unit
  · exact .lit v

theorem Reduced.join (ha : a.Reduced) (hb : b.Reduced) : (Ty.join a b).Reduced := by
  by_cases hdiffer : a = b
  · simpa [hdiffer] using hb
  by_cases hleft : a = never
  · simpa [hleft] using hb
  by_cases hright : b = never
  · simpa [hright] using ha
  rw [join_eq_union hdiffer hleft hright]
  exact .union ha hb hdiffer hleft hright

theorem Made.reduced (ht : t.Made) : t.Reduced := by
  induction ht with
  | prim p => exact .prim p
  | ofLiteral v => exact reduced_ofLiteral v
  | join _ _ iha ihb => exact iha.join ihb
  | app d _ ih => exact .app ih
  | parameter owner position => exact .param owner _

/-- The empty type is part of no type but itself. -/
theorem Reduced.eq_never_of_mem_leaves (ht : t.Reduced) (hnever : never ∈ t.leaves) :
    t = never := by
  induction ht with
  | union _ _ _ hleft hright iha ihb =>
      rcases List.mem_append.1 hnever with h | h
      · exact absurd (iha h) hleft
      · exact absurd (ihb h) hright
  | prim p => exact (List.mem_singleton.1 hnever).symm
  | lit v => exact nomatch List.mem_singleton.1 hnever
  | app _ _ => exact nomatch List.mem_singleton.1 hnever
  | param owner index => exact nomatch List.mem_singleton.1 hnever

/-- Parameters that are replaced by themselves leave a type as it is. -/
theorem Reduced.substitute_eq_self (ht : t.Reduced)
    (hself : ∀ i, t.HasParam owner i → args[i]?.getD any = .param owner i) :
    t.substitute owner args = t := by
  induction ht with
  | prim p => rfl
  | lit v => rfl
  | union _ _ hdiffer hleft hright iha ihb =>
      rw [Ty.substitute, iha fun i h => hself i h.left, ihb fun i h => hself i h.right,
        join_eq_union hdiffer hleft hright]
  | @app d inner _ ih =>
      have hargs : inner.map (Ty.substitute owner args) = inner.map id :=
        List.map_congr_left fun a ha => ih a ha fun i h => hself i (h.arg ha)
      rw [substitute_app, hargs, List.map_id]
  | param o i =>
      rw [Ty.substitute]
      split
      · rename_i ho
        subst ho
        exact hself i .here
      · rfl

/-- The flags of a type tell whether a parameter occurs in it. -/
theorem HasParam.flag {o : DataId} {i : Nat} (h : t.HasParam o i) : t.flags.hasParam = true := by
  have hoccurs : t.occurs (fun u => u.tag == .param) = true := by
    induction h with
    | here => rfl
    | left _ ih => simp [occurs, ih]
    | right _ ih => simp [occurs, ih]
    | arg ha _ ih =>
        rw [occurs, occursList_eq_any, Bool.or_eq_true, List.any_eq_true]
        exact .inr ⟨_, ha, ih⟩
  exact hoccurs

/-- A type without parameters stays as it is. -/
theorem Reduced.substitute_eq_of_flag (ht : t.Reduced) (hflag : t.flags.hasParam = false) :
    t.substitute owner args = t :=
  ht.substitute_eq_self fun _ h => absurd h.flag (by simp [hflag])

theorem Made.substitute (ht : t.Made) (hargs : ∀ a ∈ args, a.Made) :
    (t.substitute owner args).Made := by
  induction ht with
  | prim p => exact .prim p
  | ofLiteral v => simpa using .ofLiteral v
  | join _ _ iha ihb =>
      rw [substitute_join]
      exact iha.join ihb
  | app d _ ih =>
      rw [substitute_app]
      refine .app d fun a ha => ?_
      obtain ⟨b, hb, rfl⟩ := List.mem_map.1 ha
      exact ih b hb
  | parameter o position =>
      simp only [Ty.parameter, Ty.substitute]
      split
      · cases hi : args[position % positionCount]? with
        | none => exact .prim .any
        | some a => exact hargs a (List.mem_of_getElem? hi)
      · exact .parameter o position

end Ty

end CaseCover
