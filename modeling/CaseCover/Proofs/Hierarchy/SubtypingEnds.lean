import CaseCover.Proofs.Hierarchy.Grounded
import CaseCover.Proofs.Hierarchy.SubtypingCalls

/-!
When questions about subtyping have an answer. A comparison keeps its right side, or
goes on with a part of it, as long as positions are covariant; other positions exchange
the sides, and what is then on the left may grow along its parents. It cannot grow for
ever when it is grounded. So it suffices that the left side is grounded, or that the
right side has grounded types where the sides are exchanged. `inverted` shows that
without this a question may ask itself.
-/

namespace CaseCover

namespace Declarations

open Relation (ReflTransGen TransGen)
open Query (Ends Settles)

/-- Argument lists lead to questions about one argument of each side, and the sides are
exchanged only at a position that is not covariant. -/
theorem ConformCall.args {D : Declarations} {params : List TypeParam}
    {as bs : List Ty} {q : Ty × Ty} (hq : D.ConformCall params as bs q) :
    ∃ (i : Nat) (p : TypeParam) (a b : Ty), params[i]? = some p ∧ as[i]? = some a ∧
      bs[i]? = some b ∧ (q = (a, b) ∨ q = (b, a) ∧ p.variance ≠ .covariant) := by
  induction hq with
  | @up p params a b as bs hp => exact ⟨0, p, a, b, rfl, rfl, rfl, .inl rfl⟩
  | @down p params a b as bs hp _ => exact ⟨0, p, a, b, rfl, rfl, rfl, .inr ⟨rfl, hp⟩⟩
  | later _ _ ih =>
      obtain ⟨i, p, a, b, hp, ha, hb, hsides⟩ := ih
      exact ⟨i + 1, p, a, b, hp, ha, hb, hsides⟩

theorem transGen_of_view {D : Declarations} {t : Ty} {e : DataId} {us : List Ty}
    (hup : (D.upcast t e).value = some (.app e us)) {u : Ty} (hu : u ∈ us) :
    TransGen D.UnfoldsTo t u := by
  obtain ⟨-, hreach⟩ := D.upcast_sound hup
  have hunfold : ReflTransGen D.UnfoldsTo t (.app e us) :=
    ReflTransGen.mono (fun _ _ h => UnfoldsTo.of_stepsUp h) _ _ hreach
  exact .tail' hunfold (.arg hu)

theorem SubtypeFinite.of_calls {D : Declarations} {a b : Ty}
    (hcalls : ∀ c d, D.SubtypeCall (a, b) (c, d) → D.SubtypeFinite c d) :
    D.SubtypeFinite a b :=
  Acc.intro _ fun q hq => hcalls q.1 q.2 hq

/-- A question whose left side is a built-in type only takes the right side apart. -/
theorem subtypeFinite_prim (D : Declarations) (p : Prim) (b : Ty) :
    D.SubtypeFinite (.prim p) b := by
  induction b with
  | union x y ihx ihy =>
      refine .of_calls fun c d hcall => ?_
      cases hcall with
      | intoLeft => exact ihx
      | intoRight => exact ihy
  | prim q => exact .of_calls fun c d hcall => nomatch hcall
  | lit v => exact .of_calls fun c d hcall => nomatch hcall
  | app d args => exact .of_calls fun c d hcall => nomatch hcall
  | param o i => exact .of_calls fun c d hcall => nomatch hcall

/-- A type can be compared with every type, in both directions, when all that it
unfolds to can. The other type is kept, or taken apart as long as the first is kept. -/
theorem subtypeFinite_of_unfolded {D : Declarations} {a : Ty}
    (hbelow : ∀ c, TransGen D.UnfoldsTo a c → ∀ d,
      D.SubtypeFinite c d ∧ D.SubtypeFinite d c) (b : Ty) :
    D.SubtypeFinite a b ∧ D.SubtypeFinite b a := by
  have up : ∀ b, (∀ x y, b = .union x y → D.SubtypeFinite a x ∧ D.SubtypeFinite a y) →
      D.SubtypeFinite a b := by
    intro b hb
    refine .of_calls fun c d hcall => ?_
    cases hcall with
    | unionLeft => exact (hbelow _ (.single (.left _ _)) b).1
    | unionRight => exact (hbelow _ (.single (.right _ _)) b).1
    | intoLeft => exact (hb _ _ rfl).1
    | intoRight => exact (hb _ _ rfl).2
    | base => exact (hbelow _ (.single (.base _)) b).1
    | args hab hup hq =>
        obtain ⟨i, p, u, v, -, hu, -, hsides⟩ := hq.args
        have hunfold := transGen_of_view hup (List.mem_of_getElem? hu)
        rcases hsides with hkept | ⟨hswapped, -⟩
        · obtain ⟨rfl, rfl⟩ := Prod.mk.inj hkept
          exact (hbelow c hunfold d).1
        · obtain ⟨rfl, rfl⟩ := Prod.mk.inj hswapped
          exact (hbelow d hunfold c).2
  have down : ∀ b, (∀ x y, b = .union x y → D.SubtypeFinite x a ∧ D.SubtypeFinite y a) →
      D.SubtypeFinite b a := by
    intro b hb
    refine .of_calls fun c d hcall => ?_
    cases hcall with
    | unionLeft => exact (hb _ _ rfl).1
    | unionRight => exact (hb _ _ rfl).2
    | intoLeft => exact (hbelow _ (.single (.left _ _)) b).2
    | intoRight => exact (hbelow _ (.single (.right _ _)) b).2
    | base => exact D.subtypeFinite_prim _ _
    | @args d' e as bs us q hab hup hq =>
        obtain ⟨i, p, u, v, -, -, hv, hsides⟩ := hq.args
        have hunfold : TransGen D.UnfoldsTo (.app e bs) v :=
          .single (.arg (List.mem_of_getElem? hv))
        rcases hsides with hkept | ⟨hswapped, -⟩
        · obtain ⟨rfl, rfl⟩ := Prod.mk.inj hkept
          exact (hbelow d hunfold c).2
        · obtain ⟨rfl, rfl⟩ := Prod.mk.inj hswapped
          exact (hbelow c hunfold d).1
  induction b with
  | union x y ihx ihy =>
      constructor
      · refine up _ fun u v h => ?_
        obtain ⟨rfl, rfl⟩ := Ty.union.inj h
        exact ⟨ihx.1, ihy.1⟩
      · refine down _ fun u v h => ?_
        obtain ⟨rfl, rfl⟩ := Ty.union.inj h
        exact ⟨ihx.2, ihy.2⟩
  | prim p => exact ⟨up _ nofun, down _ nofun⟩
  | lit v => exact ⟨up _ nofun, down _ nofun⟩
  | app d args => exact ⟨up _ nofun, down _ nofun⟩
  | param o i => exact ⟨up _ nofun, down _ nofun⟩

/-- A bounded type can be compared with every type, in both directions. -/
theorem Bounded.subtypeFinite {D : Declarations} {a : Ty} (ha : D.Bounded a) (b : Ty) :
    D.SubtypeFinite a b ∧ D.SubtypeFinite b a := by
  have hacc := ha.transGen
  clear ha
  induction hacc generalizing b with
  | intro a _ ih => exact subtypeFinite_of_unfolded ih b

/-- Where the sides of a comparison with the type are exchanged, the type has a
grounded argument. Unions and covariant positions keep the sides. -/
inductive Anchored (D : Declarations) : Ty → Prop
  | prim (p : Prim) : D.Anchored (.prim p)
  | lit (v : Literal) : D.Anchored (.lit v)
  | param (o : DataId) (i : Nat) : D.Anchored (.param o i)
  | union {a b : Ty} (ha : D.Anchored a) (hb : D.Anchored b) : D.Anchored (.union a b)
  | app {d : DataId} {args : List Ty}
      (hkept : ∀ (i : Nat) p a, (D.get d).params[i]? = some p → args[i]? = some a →
        p.variance = .covariant → D.Anchored a)
      (hswapped : ∀ (i : Nat) p a, (D.get d).params[i]? = some p → args[i]? = some a →
        p.variance ≠ .covariant → D.Grounded a) : D.Anchored (.app d args)

/-- Every type can be compared with `b` on its right when it can with the sides of a
union and with what stands at the positions of an application. -/
theorem subtypeFinite_right {D : Declarations} (b : Ty)
    (hunion : ∀ x y, b = .union x y → ∀ a, D.SubtypeFinite a x ∧ D.SubtypeFinite a y)
    (happ : ∀ e bs, b = .app e bs → ∀ (i : Nat) p v, (D.get e).params[i]? = some p →
      bs[i]? = some v → ∀ u, (p.variance ≠ .covariant → D.SubtypeFinite v u) ∧
        D.SubtypeFinite u v) (a : Ty) : D.SubtypeFinite a b := by
  induction a with
  | prim p => exact D.subtypeFinite_prim p b
  | lit w =>
      refine .of_calls fun c d hcall => ?_
      cases hcall with
      | intoLeft => exact (hunion _ _ rfl _).1
      | intoRight => exact (hunion _ _ rfl _).2
      | base => exact D.subtypeFinite_prim _ _
  | union u v ihu ihv =>
      refine .of_calls fun c d hcall => ?_
      cases hcall with
      | unionLeft => exact ihu
      | unionRight => exact ihv
      | intoLeft => exact (hunion _ _ rfl _).1
      | intoRight => exact (hunion _ _ rfl _).2
  | app e as _ =>
      refine .of_calls fun c d hcall => ?_
      cases hcall with
      | intoLeft => exact (hunion _ _ rfl _).1
      | intoRight => exact (hunion _ _ rfl _).2
      | args hab hup hq =>
          obtain ⟨i, p, u, v, hp, -, hv, hsides⟩ := hq.args
          obtain ⟨hswap, hkeep⟩ := happ _ _ rfl i p v hp hv u
          rcases hsides with hkept | ⟨hswapped, hvariance⟩
          · obtain ⟨rfl, rfl⟩ := Prod.mk.inj hkept
            exact hkeep
          · obtain ⟨rfl, rfl⟩ := Prod.mk.inj hswapped
            exact hswap hvariance
  | param o i =>
      refine .of_calls fun c d hcall => ?_
      cases hcall with
      | intoLeft => exact (hunion _ _ rfl _).1
      | intoRight => exact (hunion _ _ rfl _).2

/-- Every type can be compared with an anchored one on its right. -/
theorem Anchored.subtypeFinite {D : Declarations} {b : Ty} (hb : D.Anchored b) (a : Ty) :
    D.SubtypeFinite a b := by
  induction hb generalizing a with
  | prim p => exact subtypeFinite_right (.prim p) nofun nofun a
  | lit v => exact subtypeFinite_right (.lit v) nofun nofun a
  | param o i => exact subtypeFinite_right (.param o i) nofun nofun a
  | @union x y hx hy ihx ihy =>
      refine subtypeFinite_right (.union x y) ?_ nofun a
      intro x y hxy a
      obtain ⟨rfl, rfl⟩ := Ty.union.inj hxy
      exact ⟨ihx a, ihy a⟩
  | @app d args hkept hswapped ih =>
      refine subtypeFinite_right (.app d args) nofun ?_ a
      intro e bs heq i p v hp hv u
      obtain ⟨rfl, rfl⟩ := Ty.app.inj heq
      by_cases hvariance : p.variance = .covariant
      · exact ⟨fun h => absurd hvariance h, ih i p v hp hv hvariance u⟩
      · have hgrounded := bounded_of_grounded (hswapped i p v hp hv hvariance)
        obtain ⟨hdown, hup⟩ := hgrounded.subtypeFinite u
        exact ⟨fun _ => hdown, hup⟩

/-- A type is anchored when the data types that occur in it have covariant parameters
only. -/
theorem anchored_of_covariant {D : Declarations} {b : Ty}
    (hb : ∀ d, b.Mentions d → ∀ p ∈ (D.get d).params, p.variance = .covariant) :
    D.Anchored b := by
  induction b with
  | prim p => exact .prim p
  | lit v => exact .lit v
  | param o i => exact .param o i
  | union x y ihx ihy =>
      exact .union (ihx fun d hd => hb d (.left hd)) (ihy fun d hd => hb d (.right hd))
  | app d args ih =>
      refine .app (fun i p a _ ha _ => ?_) fun i p a hp _ hvariance => ?_
      · have hmem := List.mem_of_getElem? ha
        exact ih a hmem fun e he => hb e (.arg hmem he)
      · exact absurd (hb d (.root args) p (List.mem_of_getElem? hp)) hvariance

/-- A question about subtyping has an answer exactly when no chain of its calls goes on
for ever. No chain does when the left side is grounded or the right side anchored. -/
theorem subtype_question_ends (D : Declarations) (a b : Ty) :
    ((Ends fun n => D.subtypeWithin n a b) ↔ D.SubtypeFinite a b) ∧
      (D.Grounded a ∨ D.Anchored b → D.SubtypeFinite a b) := by
  refine ⟨D.subtypeWithin_ends_iff a b, ?_⟩
  rintro (ha | hb)
  · exact ((bounded_of_grounded ha).subtypeFinite b).1
  · exact hb.subtypeFinite a

/-- A contravariant `N[-X]`, and `C` below `N[N[C]]`. -/
def inverted : Declarations :=
  let (n, D) := Workspace.initial.decls.declare "N" [⟨"X", .contravariant⟩]
    (.abstractType false)
  let (c, D) := D.declare "C" [] .singleton
  D.extend c (.app n [.app n [.app c []]])

theorem inverted_reachable : inverted.Reachable := by
  have hdeclared := (Reachable.initial.declare "N"
    (.abstractType [⟨"X", .contravariant⟩] false)).declare "C" .singleton
  exact hdeclared.extend ⟨9⟩ (by decide)
    (admits_unary ⟨8⟩ (by decide) rfl
      (admits_unary ⟨8⟩ (by decide) rfl (admits_nullary ⟨9⟩ (by decide) rfl)))

theorem inverted_acyclic : inverted.Acyclic := by
  refine acyclic_of_ordered ?_
  decide

/-- The question whether `C` is below `N[C]` asks itself. -/
theorem inverted_unanswered (n : Nat) :
    (inverted.subtypeWithin n (.app ⟨9⟩ []) (.app ⟨8⟩ [.app ⟨9⟩ []])).value? = none := by
  induction n with
  | zero => rfl
  | succ n ih =>
      have hview : (inverted.upcast (.app ⟨9⟩ []) ⟨8⟩).value =
          some (.app ⟨8⟩ [.app ⟨8⟩ [.app ⟨9⟩ []]]) := by decide
      rw [value?_subtypeWithin_view n (by simp [DecidedAtOnce]) hview]
      change (Query.both _ _).value? = none
      rw [Query.value?_both, ih]
      rfl

/-- Not every question about subtyping has an answer, even when no data type inherits
from itself. -/
theorem exists_endless_subtype_question :
    ¬ ∀ D : Declarations, D.Reachable → D.Acyclic → ∀ a b, D.Admits a → D.Admits b →
      Ends fun n => D.subtypeWithin n a b := by
  intro hall
  have hc : inverted.Admits (.app ⟨9⟩ []) := admits_nullary ⟨9⟩ (by decide) rfl
  have hn : inverted.Admits (.app ⟨8⟩ [.app ⟨9⟩ []]) :=
    admits_unary ⟨8⟩ (by decide) rfl hc
  obtain ⟨r, limit, hlimit⟩ := hall inverted inverted_reachable inverted_acyclic _ _ hc hn
  have hanswer := hlimit limit (Nat.le_refl limit)
  rw [inverted_unanswered] at hanswer
  exact nomatch hanswer

/-- In a hierarchy with questions that do not end, one whose left side is not grounded
but whose right side is anchored. -/
theorem subtype_question_ends_inverted :
    (inverted.Grounded (.app ⟨9⟩ []) ∨ inverted.Anchored (.app ⟨8⟩ [.prim .int])) ∧
      inverted.SubtypeFinite (.app ⟨9⟩ []) (.app ⟨8⟩ [.prim .int]) := by
  have hint : inverted.Grounded (.prim .int) := fun _ _ h => nomatch h
  have hanchored : inverted.Anchored (.app ⟨8⟩ [.prim .int]) := by
    refine .app (fun i p a hp ha hvariance => ?_) fun i p a _ ha _ => ?_
    · obtain rfl := List.mem_singleton.1 (List.mem_of_getElem? ha)
      exact .prim .int
    · obtain rfl := List.mem_singleton.1 (List.mem_of_getElem? ha)
      exact hint
  exact ⟨.inr hanchored, (inverted.subtype_question_ends _ _).2 (.inr hanchored)⟩

end Declarations

end CaseCover
