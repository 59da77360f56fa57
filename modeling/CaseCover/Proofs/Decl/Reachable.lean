import Mathlib.Logic.Relation
import CaseCover.Workspace

/-!
Which declarations a client can make. A client starts from the data types that every
workspace has, declares further ones and gives them fields and parents in any order.
It may only use types that the declarations admit, that is, those that apply declared
data types to as many arguments as they have parameters.
-/

namespace CaseCover

namespace Declarations

open Relation (TransGen)

/-- A type that can be written with the declared data types. -/
inductive Admits (D : Declarations) : Ty → Prop
  | prim (p : Prim) : D.Admits (.prim p)
  | lit (v : Literal) : D.Admits (.lit v)
  | union {a b : Ty} (ha : D.Admits a) (hb : D.Admits b) : D.Admits (.union a b)
  | app {d : DataId} {args : List Ty} (hd : d.index < D.size)
      (hlength : args.length = (D.get d).arity) (hargs : ∀ a ∈ args, D.Admits a) :
      D.Admits (.app d args)
  | param {o : DataId} (ho : o.index < D.size) (i : Nat) : D.Admits (.param o i)

theorem admits_nullary {D : Declarations} (d : DataId) (hd : d.index < D.size)
    (harity : (D.get d).arity = 0) : D.Admits (.app d []) :=
  .app hd harity.symm nofun

theorem admits_unary {D : Declarations} (d : DataId) {t : Ty} (hd : d.index < D.size)
    (harity : (D.get d).arity = 1) (ht : D.Admits t) : D.Admits (.app d [t]) := by
  refine .app hd harity.symm fun a ha => ?_
  rwa [List.mem_singleton.1 ha]

/-- The parameters and the kind with which a data type can be declared. -/
inductive Declarable : List TypeParam → DataKind → Prop
  | abstractType (params : List TypeParam) (isSealed : Bool) :
      Declarable params (.abstractType isSealed)
  | product (params : List TypeParam) : Declarable params (.product [])
  | singleton : Declarable [] .singleton
  | sequence (element : TypeParam) : Declarable [element] .sequence

/-- The declarations that a client can arrive at. -/
inductive Reachable : Declarations → Prop
  | initial : Reachable Workspace.initial.decls
  | declare {D : Declarations} (hD : Reachable D) (name : String)
      {params : List TypeParam} {kind : DataKind} (hkind : Declarable params kind) :
      Reachable (D.declare name params kind).2
  | defineFields {D : Declarations} (hD : Reachable D) (d : DataId)
      (hd : d.index < D.size) {fields : List Field}
      (hfields : ∀ f ∈ fields, D.Admits f.ty) : Reachable (D.defineFields d fields)
  | extend {D : Declarations} (hD : Reachable D) (child : DataId)
      (hchild : child.index < D.size) {parent : Ty} (hparent : D.Admits parent) :
      Reachable (D.extend child parent)

/-- A data type has a declared parent that is an application of another. -/
def Inherits (D : Declarations) (d e : DataId) : Prop :=
  ∃ p ∈ (D.get d).parents, p.constructor? = some e

/-- No data type inherits from itself. -/
def Acyclic (D : Declarations) : Prop := ∀ d, ¬ TransGen D.Inherits d d

theorem parents_eq_nil {D : Declarations} {d : DataId} (hd : D.size ≤ d.index) :
    (D.get d).parents = [] := by
  have hnone : D.items[d.index]? = none := Array.getElem?_eq_none hd
  rw [get, hnone]
  rfl

theorem lt_size_of_mem_parents {D : Declarations} {d : DataId} {p : Ty}
    (hp : p ∈ (D.get d).parents) : d.index < D.size := by
  refine Nat.lt_of_not_le fun hout => ?_
  rw [parents_eq_nil hout] at hp
  exact List.not_mem_nil hp

theorem Inherits.lt_size {D : Declarations} {d e : DataId} (h : D.Inherits d e) :
    d.index < D.size := by
  obtain ⟨p, hp, -⟩ := h
  exact lt_size_of_mem_parents hp

/-- No data type inherits from itself when each is declared after those it
extends. -/
theorem acyclic_of_ordered {D : Declarations}
    (hordered : ∀ i < D.size, ∀ p ∈ (D.get ⟨i⟩).parents, ∀ e ∈ p.constructor?,
      e.index < i) : D.Acyclic := by
  have step : ∀ d e, D.Inherits d e → e.index < d.index := by
    intro d e h
    obtain ⟨p, hp, he⟩ := id h
    exact hordered d.index h.lt_size p hp e he
  intro d hd
  have descend : ∀ e, TransGen D.Inherits d e → e.index < d.index := by
    intro e he
    induction he with
    | single h => exact step _ _ h
    | tail _ h ih => exact Nat.lt_trans (step _ _ h) ih
  exact Nat.lt_irrefl _ (descend d hd)

end Declarations

end CaseCover
