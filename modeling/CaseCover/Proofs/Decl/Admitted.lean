import CaseCover.Proofs.Decl.Reachable
import CaseCover.Proofs.Hierarchy.Descent
import CaseCover.Proofs.Hierarchy.Walks

/-!
Types that stay admitted. Declarations only grow, so a type that they admit is admitted later
on; and what a client has recorded as a parent is admitted (`Reachable.admits_parent`). Putting
admitted arguments into an admitted type gives an admitted type, so every step up from an
admitted type leads to one (`Admits.stepsUp`).
-/

namespace CaseCover

namespace Declarations

open Relation (ReflTransGen)

/-- Later declarations know at least as many data types, with the same numbers of parameters. -/
structure GrowsTo (D D' : Declarations) : Prop where
  size_le : D.size ≤ D'.size
  arity_eq : ∀ d : DataId, d.index < D.size → (D'.get d).arity = (D.get d).arity

theorem Admits.of_growsTo {D D' : Declarations} (hgrows : D.GrowsTo D') {t : Ty}
    (ht : D.Admits t) : D'.Admits t := by
  induction ht with
  | prim p => exact .prim p
  | lit v => exact .lit v
  | union _ _ iha ihb => exact .union iha ihb
  | @app d args hd hlength _ ih =>
      have hlt := Nat.lt_of_lt_of_le hd hgrows.size_le
      exact .app hlt (hlength.trans (hgrows.arity_eq d hd).symm) ih
  | param ho i => exact .param (Nat.lt_of_lt_of_le ho hgrows.size_le) i

theorem growsTo_declare (D : Declarations) (name : String) (params : List TypeParam)
    (kind : DataKind) : D.GrowsTo (D.declare name params kind).2 where
  size_le := by simp [declare, size]
  arity_eq := by
    intro d hd
    have hne : d.index ≠ D.items.size := Nat.ne_of_lt hd
    simp [get, declare, Array.getElem?_push, hne]

/-- Changing a declaration, but not its parameters. -/
theorem growsTo_modify (D : Declarations) (id : DataId) {f : DataType → DataType}
    (hf : ∀ d, (f d).params = d.params) : D.GrowsTo (D.modify id f) where
  size_le := by simp [modify, size]
  arity_eq := by
    intro d _
    rw [get_modify, DataType.arity, DataType.arity]
    split
    · rw [hf]
    · rfl

theorem growsTo_extend (D : Declarations) (child : DataId) (parent : Ty) :
    D.GrowsTo (D.extend child parent) := by
  have hfirst := D.growsTo_modify child
    (f := fun d => { d with parents := d.parents ++ [parent] }) fun _ => rfl
  unfold extend
  dsimp only
  split
  · exact hfirst
  · rename_i up _
    have hsecond := (D.modify child fun d => { d with
      parents := d.parents ++ [parent] }).growsTo_modify up (f := fun d => { d with children :=
        if child ∈ d.children then d.children else d.children ++ [child] }) fun _ => rfl
    refine ⟨Nat.le_trans hfirst.size_le hsecond.size_le, fun d hd => ?_⟩
    rw [hsecond.arity_eq d (Nat.lt_of_lt_of_le hd hfirst.size_le), hfirst.arity_eq d hd]

/-- Only the parent that is recorded is added to the parents. -/
theorem mem_parents_of_extend {D : Declarations} {child d : DataId} {parent p : Ty}
    (hp : p ∈ ((D.extend child parent).get d).parents) :
    p ∈ (D.get d).parents ∨ p = parent := by
  have hfirst : p ∈ ((D.modify child fun d => { d with
      parents := d.parents ++ [parent] }).get d).parents →
      p ∈ (D.get d).parents ∨ p = parent := by
    intro h
    rw [get_modify] at h
    split at h
    · exact (List.mem_append.1 h).imp_right List.mem_singleton.1
    · exact .inl h
  unfold extend at hp
  dsimp only at hp
  split at hp
  · exact hfirst hp
  · rw [get_modify] at hp
    split at hp
    · exact hfirst hp
    · exact hfirst hp

theorem admits_parent_initial {d : DataId} {p : Ty}
    (hp : p ∈ (Workspace.initial.decls.get d).parents) : Workspace.initial.decls.Admits p := by
  have hd := lt_size_of_mem_parents hp
  have hcases : ∀ i < Workspace.initial.decls.size,
      ∀ q ∈ (Workspace.initial.decls.get ⟨i⟩).parents,
        q ∈ [.app ⟨0⟩ [.param ⟨1⟩ 0], .app ⟨0⟩ [.never], .app ⟨3⟩ [.param ⟨4⟩ 0, .never],
          .app ⟨3⟩ [.never, .param ⟨5⟩ 0]] := by decide
  have hparam : ∀ o : DataId, o.index < Workspace.initial.decls.size →
      Workspace.initial.decls.Admits (.param o 0) := fun o ho => .param ho 0
  have hmem := hcases d.index hd p hp
  simp only [List.mem_cons, List.not_mem_nil, or_false] at hmem
  rcases hmem with rfl | rfl | rfl | rfl
  · exact admits_unary ⟨0⟩ (by decide) rfl (hparam ⟨1⟩ (by decide))
  · exact admits_unary ⟨0⟩ (by decide) rfl (.prim .never)
  · refine .app (by decide) rfl ?_
    simp only [List.mem_cons, List.not_mem_nil, or_false, forall_eq_or_imp, forall_eq]
    exact ⟨hparam ⟨4⟩ (by decide), .prim .never⟩
  · refine .app (by decide) rfl ?_
    simp only [List.mem_cons, List.not_mem_nil, or_false, forall_eq_or_imp, forall_eq]
    exact ⟨.prim .never, hparam ⟨5⟩ (by decide)⟩

/-- What a client has recorded as a parent is a type that can be written. -/
theorem Reachable.admits_parent {D : Declarations} (hD : D.Reachable) {d : DataId} {p : Ty}
    (hp : p ∈ (D.get d).parents) : D.Admits p := by
  induction hD generalizing d p with
  | initial => exact admits_parent_initial hp
  | @declare D _ name params kind _ ih =>
      rw [(get_declare ..).2] at hp
      exact (ih hp).of_growsTo (D.growsTo_declare name params kind)
  | @defineFields D _ e _ fields _ ih =>
      have hgrows : D.GrowsTo (D.defineFields e fields) := D.growsTo_modify e fun _ => rfl
      have hparents : ((D.defineFields e fields).get d).parents = (D.get d).parents := by
        rw [Declarations.defineFields, get_modify]
        split
        · rfl
        · rfl
      rw [hparents] at hp
      exact (ih hp).of_growsTo hgrows
  | @extend D _ child _ parent hparent ih =>
      rcases mem_parents_of_extend hp with hp | rfl
      · exact (ih hp).of_growsTo (D.growsTo_extend child parent)
      · exact hparent.of_growsTo (D.growsTo_extend child p)

variable {D : Declarations}

theorem Admits.join {a b : Ty} (ha : D.Admits a) (hb : D.Admits b) : D.Admits (Ty.join a b) := by
  unfold Ty.join
  split
  · exact ha
  · split
    · exact hb
    · exact .union ha hb

theorem Admits.substitute {t : Ty} (ht : D.Admits t) (owner : DataId) {args : List Ty}
    (hargs : ∀ a ∈ args, D.Admits a) : D.Admits (t.substitute owner args) := by
  induction ht with
  | prim p => exact .prim p
  | lit v => exact .lit v
  | union _ _ iha ihb => exact iha.join ihb
  | @app d inner hd hlength _ ih =>
      rw [Ty.substitute_app]
      refine .app hd (by rw [List.length_map, hlength]) fun a ha => ?_
      obtain ⟨b, hb, rfl⟩ := List.mem_map.1 ha
      exact ih b hb
  | @param o ho i =>
      unfold Ty.substitute
      split
      · cases hi : args[i]? with
        | none => exact .prim .any
        | some a => exact hargs a (List.mem_of_getElem? hi)
      · exact .param ho i

theorem Admits.length_args {d : DataId} {args : List Ty} (h : D.Admits (.app d args)) :
    args.length = (D.get d).arity := by
  cases h with
  | app _ hlength _ => exact hlength

theorem Admits.arg {d : DataId} {args : List Ty} (h : D.Admits (.app d args)) {a : Ty}
    (ha : a ∈ args) : D.Admits a := by
  cases h with
  | app _ _ hargs => exact hargs a ha

/-- The steps up from an admitted type lead to admitted types. -/
theorem Admits.stepsUp (hD : D.Reachable) {t up : Ty} (ht : D.Admits t)
    (h : ReflTransGen D.StepsUp t up) : D.Admits up := by
  induction h with
  | refl => exact ht
  | tail _ hstep ih =>
      obtain ⟨d, args, rfl, hparent⟩ := hstep
      obtain ⟨p, hp, rfl⟩ := List.mem_map.1 hparent
      exact (hD.admits_parent hp).substitute d fun a ha => ih.arg ha

end Declarations

end CaseCover
