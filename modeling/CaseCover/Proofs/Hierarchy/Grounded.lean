import Mathlib.Data.Fintype.EquivFin
import Mathlib.Order.WellFounded
import CaseCover.Proofs.Decl.Reachable
import CaseCover.Proofs.Hierarchy.Walks

/-!
Data types that are mentioned in their own parents. A data type mentions those that
occur anywhere in its declared parents, type arguments included, and a type is grounded
when none of the data types that can be reached from it in this way reaches itself.
Unfolding a type means to go on with a part of it or with one of its parents.
`bounded_of_grounded` says that a grounded type cannot be unfolded for ever, however
its arguments are copied and nested on the way up.
-/

namespace CaseCover

/-- A data type occurs somewhere in a type. -/
inductive Ty.Mentions (d : DataId) : Ty → Prop
  | root (args : List Ty) : Ty.Mentions d (.app d args)
  | arg {e : DataId} {args : List Ty} {t : Ty} (ht : t ∈ args) (h : t.Mentions d) :
      Ty.Mentions d (.app e args)
  | left {a b : Ty} (h : a.Mentions d) : Ty.Mentions d (.union a b)
  | right {a b : Ty} (h : b.Mentions d) : Ty.Mentions d (.union a b)

namespace Declarations

open Relation (ReflTransGen TransGen)

/-- A data type occurs in a declared parent of another. -/
def MentionedBy (D : Declarations) (e d : DataId) : Prop :=
  ∃ p ∈ (D.get d).parents, p.Mentions e

/-- No data type that is reached from the type through parents is mentioned, directly
or through the parents of others, in its own parents. -/
def Grounded (D : Declarations) (t : Ty) : Prop :=
  ∀ d e, t.Mentions d → ReflTransGen D.MentionedBy e d → ¬ TransGen D.MentionedBy e e

/-- One step of unfolding a type: to one of its parts, to the built-in type of a
literal, or to a declared parent. -/
inductive UnfoldsTo (D : Declarations) : Ty → Ty → Prop
  | left (a b : Ty) : D.UnfoldsTo (.union a b) a
  | right (a b : Ty) : D.UnfoldsTo (.union a b) b
  | base (v : Literal) : D.UnfoldsTo (.lit v) (.prim v.base)
  | arg {d : DataId} {args : List Ty} {a : Ty} (ha : a ∈ args) :
      D.UnfoldsTo (.app d args) a
  | parent {d : DataId} {args : List Ty} {p : Ty} (hp : p ∈ D.parentsOf d args) :
      D.UnfoldsTo (.app d args) p

/-- Unfolding a type comes to an end. -/
def Bounded (D : Declarations) (t : Ty) : Prop :=
  Acc (fun next prev => D.UnfoldsTo prev next) t

theorem UnfoldsTo.of_stepsUp {D : Declarations} {t up : Ty} (hup : D.StepsUp t up) :
    D.UnfoldsTo t up := by
  obtain ⟨d, args, rfl, hmem⟩ := hup
  exact .parent hmem

theorem bounded_prim (D : Declarations) (p : Prim) : D.Bounded (.prim p) :=
  Acc.intro _ fun _ h => nomatch h

theorem bounded_param (D : Declarations) (o : DataId) (i : Nat) :
    D.Bounded (.param o i) :=
  Acc.intro _ fun _ h => nomatch h

theorem bounded_lit (D : Declarations) (v : Literal) : D.Bounded (.lit v) := by
  refine Acc.intro _ fun t h => ?_
  cases h
  exact D.bounded_prim _

theorem bounded_union {D : Declarations} {a b : Ty} (ha : D.Bounded a)
    (hb : D.Bounded b) : D.Bounded (.union a b) := by
  refine Acc.intro _ fun t h => ?_
  cases h with
  | left => exact ha
  | right => exact hb

theorem bounded_join {D : Declarations} {a b : Ty} (ha : D.Bounded a)
    (hb : D.Bounded b) : D.Bounded (Ty.join a b) := by
  unfold Ty.join
  split
  · exact ha
  · split
    · exact hb
    · exact bounded_union ha hb

theorem bounded_app {D : Declarations} {d : DataId} {args : List Ty}
    (hargs : ∀ a ∈ args, D.Bounded a) (hparents : ∀ p ∈ D.parentsOf d args, D.Bounded p) :
    D.Bounded (.app d args) := by
  refine Acc.intro _ fun t h => ?_
  cases h with
  | arg ha => exact hargs t ha
  | parent hp => exact hparents t hp

/-- Putting bounded types into a type gives a bounded type, provided that every data
type that the type mentions gives one when it is applied to bounded types. -/
theorem bounded_substitute {D : Declarations} (owner : DataId) {args : List Ty}
    (hargs : ∀ a ∈ args, D.Bounded a) (t : Ty)
    (happ : ∀ e, t.Mentions e → ∀ inner : List Ty, (∀ a ∈ inner, D.Bounded a) →
      D.Bounded (.app e inner)) :
    D.Bounded (t.substitute owner args) := by
  induction t with
  | prim p => exact D.bounded_prim p
  | lit v => exact D.bounded_lit v
  | param o i =>
      unfold Ty.substitute
      split
      · cases hi : args[i]? with
        | none => exact D.bounded_prim .any
        | some a => exact hargs a (List.mem_of_getElem? hi)
      · exact D.bounded_param o i
  | union a b iha ihb =>
      rw [Ty.substitute]
      exact bounded_join (iha fun e he => happ e (.left he))
        (ihb fun e he => happ e (.right he))
  | app d inner ih =>
      rw [Ty.substitute_app]
      refine happ d (.root inner) _ fun a ha => ?_
      obtain ⟨b, hb, rfl⟩ := List.mem_map.1 ha
      exact ih b hb fun e he => happ e (.arg hb he)

/-- An application of a data type to bounded types is bounded when no endless chain of
mentions starts at the data type. The induction is on that chain. -/
theorem bounded_app_of_acc {D : Declarations} {d : DataId} (hd : Acc D.MentionedBy d) :
    ∀ args : List Ty, (∀ a ∈ args, D.Bounded a) → D.Bounded (.app d args) := by
  induction hd with
  | intro d _ ih =>
      intro args hargs
      refine bounded_app hargs fun q hq => ?_
      obtain ⟨p, hp, rfl⟩ := List.mem_map.1 hq
      exact bounded_substitute d hargs p fun e he => ih e ⟨p, hp, he⟩

theorem bounded_of_acc {D : Declarations} (t : Ty)
    (ht : ∀ d, t.Mentions d → Acc D.MentionedBy d) : D.Bounded t := by
  induction t with
  | prim p => exact D.bounded_prim p
  | lit v => exact D.bounded_lit v
  | param o i => exact D.bounded_param o i
  | union a b iha ihb =>
      exact bounded_union (iha fun d hd => ht d (.left hd))
        (ihb fun d hd => ht d (.right hd))
  | app d args ih =>
      exact bounded_app_of_acc (ht d (.root args)) args fun a ha =>
        ih a ha fun e he => ht e (.arg ha he)

theorem index_lt_of_mentionedBy {D : Declarations} {e d : DataId}
    (h : D.MentionedBy e d) : d.index < D.size := by
  obtain ⟨p, hp, -⟩ := h
  exact lt_size_of_mem_parents hp

/-- As only finitely many data types are declared, the mentions from a data type on
come to an end when none of the data types reached mentions itself. -/
theorem acc_mentionedBy {D : Declarations} (d : DataId)
    (hd : ∀ e, ReflTransGen D.MentionedBy e d → ¬ TransGen D.MentionedBy e e) :
    Acc D.MentionedBy d := by
  let Reached := { i : Fin D.size // ReflTransGen D.MentionedBy ⟨i⟩ d }
  let Below (x y : Reached) : Prop := TransGen D.MentionedBy ⟨x.1⟩ ⟨y.1⟩
  have htrans : IsTrans Reached Below := ⟨fun _ _ _ hxy hyz => hxy.trans hyz⟩
  have hirrefl : Std.Irrefl Below := ⟨fun x hx => hd _ x.2 hx⟩
  have hwf : WellFounded Below := Finite.wellFounded_of_trans_of_irrefl Below
  have declared : ∀ x : Reached, Acc D.MentionedBy ⟨x.1⟩ := by
    intro x
    induction hwf.apply x with
    | intro x _ ih =>
        refine Acc.intro _ fun e he => Acc.intro _ fun f hf => ?_
        have hlt := index_lt_of_mentionedBy hf
        have hreach : ReflTransGen D.MentionedBy e d := .head he x.2
        exact (ih ⟨⟨e.index, hlt⟩, hreach⟩ (.single he)).inv hf
  refine Acc.intro _ fun e he => ?_
  exact (declared ⟨⟨d.index, index_lt_of_mentionedBy he⟩, .refl⟩).inv he

/-- A grounded type cannot be unfolded for ever. -/
theorem bounded_of_grounded {D : Declarations} {t : Ty} (ht : D.Grounded t) :
    D.Bounded t :=
  bounded_of_acc t fun d hd => acc_mentionedBy d fun e he => ht d e hd he

theorem Bounded.unfolded {D : Declarations} {t u : Ty} (ht : D.Bounded t)
    (hu : TransGen D.UnfoldsTo t u) : D.Bounded u := by
  induction hu with
  | single h => exact ht.inv h
  | tail _ h ih => exact ih.inv h

/-- It is possible to induct on all that a bounded type unfolds to in one or more
steps. -/
theorem Bounded.transGen {D : Declarations} {t : Ty} (ht : D.Bounded t) :
    Acc (fun next prev => TransGen D.UnfoldsTo prev next) t := by
  have swap : ∀ a b, TransGen D.UnfoldsTo b a ↔
      TransGen (fun next prev => D.UnfoldsTo prev next) a b := by
    intro a b
    exact Relation.transGen_swap.symm
  have heq : (fun next prev => TransGen D.UnfoldsTo prev next) =
      TransGen (fun next prev => D.UnfoldsTo prev next) := by
    funext a b
    exact propext (swap a b)
  rw [heq]
  exact Acc.transGen ht

end Declarations

end CaseCover
