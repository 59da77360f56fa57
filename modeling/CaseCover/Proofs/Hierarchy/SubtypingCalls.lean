import Mathlib.Tactic.Common
import CaseCover.Hierarchy.Subtyping
import CaseCover.Proofs.Hierarchy.Walks
import CaseCover.Proofs.Query.Answers

/-!
The questions that a question about subtyping asks in turn. `SubtypeCall` follows the
branches of `subtypeWithin`, the exits between two nested questions included.
`subtypeWithin_ends_iff` says that a question has an answer, whatever the limit from
some limit on, exactly when no chain of such calls goes on for ever: the limit is
nothing but a bound on the depth of calls.
-/

namespace CaseCover

namespace Declarations

open Query (Settles Ends Refines)

/-- The question is answered without a nested one. -/
def DecidedAtOnce (a b : Ty) : Prop :=
  a = b ∨ a = .noType ∨ b = .noType ∨ a = .never ∨ b = .any ∨ a = .any

section Branches

variable (D : Declarations) (n : Nat)

theorem subtypeWithin_decided {a b : Ty} (hab : DecidedAtOnce a b) :
    ∃ r, ∀ n, (D.subtypeWithin (n + 1) a b).value? = some r := by
  by_cases htrue : a = b ∨ a = .noType ∨ b = .noType ∨ a = .never ∨ b = .any
  · refine ⟨true, fun n => ?_⟩
    unfold subtypeWithin
    rw [if_pos htrue, Query.value?_pure]
  · have hany : a = .any := by
      unfold DecidedAtOnce at hab
      tauto
    refine ⟨false, fun n => ?_⟩
    unfold subtypeWithin
    rw [if_neg htrue, if_pos hany, Query.value?_pure]

theorem subtypeWithin_undecided {a b : Ty} (hab : ¬ DecidedAtOnce a b) :
    ¬ (a = b ∨ a = .noType ∨ b = .noType ∨ a = .never ∨ b = .any) ∧ a ≠ .any := by
  unfold DecidedAtOnce at hab
  tauto

theorem subtypeWithin_union {x y b : Ty} (hab : ¬ DecidedAtOnce (.union x y) b) :
    D.subtypeWithin (n + 1) (.union x y) b =
      Query.both (D.subtypeWithin n x b) (D.subtypeWithin n y b) := by
  obtain ⟨hopen, hany⟩ := subtypeWithin_undecided hab
  rw [subtypeWithin, if_neg hopen, if_neg hany]

theorem subtypeWithin_intoUnion {a x y : Ty} (hab : ¬ DecidedAtOnce a (.union x y))
    (ha : ∀ u v, a ≠ .union u v) :
    D.subtypeWithin (n + 1) a (.union x y) =
      Query.either (D.subtypeWithin n a x) (D.subtypeWithin n a y) := by
  obtain ⟨hopen, hany⟩ := subtypeWithin_undecided hab
  rw [subtypeWithin, if_neg hopen, if_neg hany]
  exact ha

theorem subtypeWithin_lit {v : Literal} {b : Ty} (hab : ¬ DecidedAtOnce (.lit v) b)
    (hb : ∀ x y, b ≠ .union x y) :
    D.subtypeWithin (n + 1) (.lit v) b = D.subtypeWithin n (.prim v.base) b := by
  obtain ⟨hopen, hany⟩ := subtypeWithin_undecided hab
  rw [subtypeWithin, if_neg hopen, if_neg hany]
  exact hb

theorem subtypeWithin_app {d e : DataId} {as bs : List Ty}
    (hab : ¬ DecidedAtOnce (.app d as) (.app e bs)) :
    D.subtypeWithin (n + 1) (.app d as) (.app e bs) = (do
      match ← D.upcast (.app d as) e with
      | none => pure false
      | some up => conform (D.subtypeWithin n) (D.get e).params up.args bs) := by
  obtain ⟨hopen, hany⟩ := subtypeWithin_undecided hab
  rw [subtypeWithin, if_neg hopen]
  exact if_neg hany

end Branches

/-- The branches of a question about subtyping. -/
inductive SubtypeBranch (D : Declarations) : Ty → Ty → Prop
  | decided {a b : Ty} (r : Bool)
      (hr : ∀ n, (D.subtypeWithin (n + 1) a b).value? = some r) : D.SubtypeBranch a b
  | union {x y b : Ty} (hab : ¬ DecidedAtOnce (.union x y) b) :
      D.SubtypeBranch (.union x y) b
  | intoUnion {a x y : Ty} (hab : ¬ DecidedAtOnce a (.union x y))
      (ha : ∀ u v, a ≠ .union u v) : D.SubtypeBranch a (.union x y)
  | literal {v : Literal} {b : Ty} (hab : ¬ DecidedAtOnce (.lit v) b)
      (hb : ∀ x y, b ≠ .union x y) : D.SubtypeBranch (.lit v) b
  | view {d e : DataId} {as bs us : List Ty}
      (hab : ¬ DecidedAtOnce (.app d as) (.app e bs))
      (hup : (D.upcast (.app d as) e).value = some (.app e us)) :
      D.SubtypeBranch (.app d as) (.app e bs)

theorem subtypeBranch (D : Declarations) (a b : Ty) : D.SubtypeBranch a b := by
  by_cases hab : DecidedAtOnce a b
  · obtain ⟨r, hr⟩ := D.subtypeWithin_decided hab
    exact .decided r hr
  obtain ⟨hopen, hany⟩ := subtypeWithin_undecided hab
  have refused : (∀ n, D.subtypeWithin (n + 1) a b = pure false) →
      D.SubtypeBranch a b := by
    intro hfalse
    exact .decided false fun n => by rw [hfalse n, Query.value?_pure]
  by_cases hb : ∃ x y, b = .union x y
  · obtain ⟨x, y, rfl⟩ := hb
    cases a with
    | union u v => exact .union hab
    | prim _ | lit _ | app _ _ | param _ _ => exact .intoUnion hab nofun
  cases a with
  | union x y => exact .union hab
  | lit v => exact .literal hab fun x y h => hb ⟨x, y, h⟩
  | prim p =>
      refine refused fun n => ?_
      unfold subtypeWithin
      rw [if_neg hopen, if_neg hany]
      cases b with
      | union x y => exact absurd ⟨x, y, rfl⟩ hb
      | prim _ | lit _ | app _ _ | param _ _ => rfl
  | param o i =>
      refine refused fun n => ?_
      unfold subtypeWithin
      rw [if_neg hopen, if_neg hany]
      cases b with
      | union x y => exact absurd ⟨x, y, rfl⟩ hb
      | prim _ | lit _ | app _ _ | param _ _ => rfl
  | app d as =>
      cases b with
      | union x y => exact absurd ⟨x, y, rfl⟩ hb
      | prim _ | lit _ | param _ _ =>
          refine refused fun n => ?_
          unfold subtypeWithin
          rw [if_neg hopen, if_neg hany]
      | app e bs =>
          cases hup : (D.upcast (.app d as) e).value with
          | none =>
              refine .decided false fun n => ?_
              rw [subtypeWithin_app D n hab, Query.value?_bind]
              simp [hup]
          | some up =>
              obtain ⟨⟨us, rfl⟩, -⟩ := D.upcast_sound hup
              exact .view hab hup

/-- The answer of a question whose sides are applications, given the view of the
first. -/
theorem value?_subtypeWithin_view {D : Declarations} {d e : DataId}
    {as bs us : List Ty} (n : Nat) (hab : ¬ DecidedAtOnce (.app d as) (.app e bs))
    (hup : (D.upcast (.app d as) e).value = some (.app e us)) :
    (D.subtypeWithin (n + 1) (.app d as) (.app e bs)).value? =
      (conform (D.subtypeWithin n) (D.get e).params us bs).value? := by
  rw [subtypeWithin_app D n hab, Query.value?_bind, Query.value?_liftM, hup]
  rfl

theorem conform_refines {below below' : Ty → Ty → Query Bool}
    (hbelow : ∀ a b, Refines (below a b) (below' a b)) (params : List TypeParam)
    (as bs : List Ty) :
    Refines (conform below params as bs) (conform below' params as bs) := by
  induction params generalizing as bs with
  | nil => exact .rfl
  | cons p params ih =>
      cases as with
      | nil => exact .rfl
      | cons a as =>
          cases bs with
          | nil => exact .rfl
          | cons b bs =>
              refine Refines.both ?_ (ih as bs)
              cases p.variance with
              | covariant => exact hbelow a b
              | contravariant => exact hbelow b a
              | invariant => exact (hbelow a b).both (hbelow b a)

/-- A larger limit never changes an answer. -/
theorem subtypeWithin_refines (D : Declarations) (n : Nat) (a b : Ty) :
    Refines (D.subtypeWithin n a b) (D.subtypeWithin (n + 1) a b) := by
  induction n generalizing a b with
  | zero =>
      intro r hr
      rw [subtypeWithin, Query.value?_unanswered] at hr
      exact nomatch hr
  | succ n ih =>
      cases D.subtypeBranch a b with
      | decided r hr =>
          intro s hs
          rw [hr (n + 1), ← hr n]
          exact hs
      | union hab =>
          rw [subtypeWithin_union D n hab, subtypeWithin_union D (n + 1) hab]
          exact (ih _ _).both (ih _ _)
      | intoUnion hab ha =>
          rw [subtypeWithin_intoUnion D n hab ha,
            subtypeWithin_intoUnion D (n + 1) hab ha]
          exact (ih _ _).either (ih _ _)
      | literal hab hb =>
          rw [subtypeWithin_lit D n hab hb, subtypeWithin_lit D (n + 1) hab hb]
          exact ih _ _
      | @view d e as bs us hab hup =>
          intro s hs
          rw [value?_subtypeWithin_view _ hab hup] at hs ⊢
          exact conform_refines ih (D.get e).params us bs s hs

/-- The subtype relation that questions settle on. -/
def Below (D : Declarations) (a b : Ty) : Prop :=
  Settles (fun n => D.subtypeWithin n a b) true

/-- A hierarchy that answers whether a type is below another answers rightly. -/
theorem below_iff_of_isSubtype {H : Hierarchy} {a b : Ty} {r : Bool}
    (hr : (H.isSubtype a b).value? = some r) : H.decls.Below a b ↔ r = true := by
  have hsettles : Settles (fun n => H.decls.subtypeWithin n a b) r :=
    Query.settles_of_refines (fun n => H.decls.subtypeWithin_refines n a b) hr
  constructor
  · intro hbelow
    exact hsettles.unique hbelow
  · rintro rfl
    exact hsettles

/-- The first argument conforms to the second as a variance asks. -/
def Conforms (D : Declarations) (v : Variance) (a b : Ty) : Prop :=
  (v ≠ .contravariant → D.Below a b) ∧ (v ≠ .covariant → D.Below b a)

/-- The questions that two argument lists lead to. The second question of an invariant
position and those of later positions are only asked as long as all answers are
positive. -/
inductive ConformCall (D : Declarations) :
    List TypeParam → List Ty → List Ty → Ty × Ty → Prop
  | up {p : TypeParam} {params : List TypeParam} {a b : Ty} {as bs : List Ty}
      (hp : p.variance ≠ .contravariant) :
      D.ConformCall (p :: params) (a :: as) (b :: bs) (a, b)
  | down {p : TypeParam} {params : List TypeParam} {a b : Ty} {as bs : List Ty}
      (hp : p.variance ≠ .covariant) (hup : p.variance = .invariant → D.Below a b) :
      D.ConformCall (p :: params) (a :: as) (b :: bs) (b, a)
  | later {p : TypeParam} {params : List TypeParam} {a b : Ty} {as bs : List Ty}
      {q : Ty × Ty} (hhead : D.Conforms p.variance a b)
      (htail : D.ConformCall params as bs q) :
      D.ConformCall (p :: params) (a :: as) (b :: bs) q

/-- The questions that a question about subtyping asks in turn. -/
inductive SubtypeCall (D : Declarations) : Ty × Ty → Ty × Ty → Prop
  | unionLeft {x y b : Ty} (hab : ¬ DecidedAtOnce (.union x y) b) :
      D.SubtypeCall (.union x y, b) (x, b)
  | unionRight {x y b : Ty} (hab : ¬ DecidedAtOnce (.union x y) b)
      (hleft : D.Below x b) : D.SubtypeCall (.union x y, b) (y, b)
  | intoLeft {a x y : Ty} (hab : ¬ DecidedAtOnce a (.union x y))
      (ha : ∀ u v, a ≠ .union u v) : D.SubtypeCall (a, .union x y) (a, x)
  | intoRight {a x y : Ty} (hab : ¬ DecidedAtOnce a (.union x y))
      (ha : ∀ u v, a ≠ .union u v)
      (hleft : Settles (fun n => D.subtypeWithin n a x) false) :
      D.SubtypeCall (a, .union x y) (a, y)
  | base {v : Literal} {b : Ty} (hab : ¬ DecidedAtOnce (.lit v) b)
      (hb : ∀ x y, b ≠ .union x y) : D.SubtypeCall (.lit v, b) (.prim v.base, b)
  | args {d e : DataId} {as bs us : List Ty} {q : Ty × Ty}
      (hab : ¬ DecidedAtOnce (.app d as) (.app e bs))
      (hup : (D.upcast (.app d as) e).value = some (.app e us))
      (hq : D.ConformCall (D.get e).params us bs q) :
      D.SubtypeCall (.app d as, .app e bs) q

/-- No chain of calls that starts with a question goes on for ever. -/
def SubtypeFinite (D : Declarations) (a b : Ty) : Prop :=
  Acc (fun inner outer => D.SubtypeCall outer inner) (a, b)

/-- The question whether one argument conforms to another. -/
def conformAt (below : Ty → Ty → Query Bool) (v : Variance) (a b : Ty) : Query Bool :=
  match v with
  | .covariant => below a b
  | .contravariant => below b a
  | .invariant => Query.both (below a b) (below b a)

theorem conform_cons (below : Ty → Ty → Query Bool) (p : TypeParam)
    (params : List TypeParam) (a b : Ty) (as bs : List Ty) :
    conform below (p :: params) (a :: as) (b :: bs) =
      Query.both (conformAt below p.variance a b) (conform below params as bs) := rfl

theorem Conforms.of_settles {D : Declarations} {v : Variance} {a b : Ty}
    (hv : Settles (fun n => conformAt (D.subtypeWithin n) v a b) true) :
    D.Conforms v a b := by
  cases v with
  | covariant => exact ⟨fun _ => hv, fun h => absurd rfl h⟩
  | contravariant => exact ⟨fun h => absurd rfl h, fun _ => hv⟩
  | invariant =>
      obtain ⟨hup, hdown⟩ := Settles.of_both hv
      exact ⟨fun _ => hup, fun _ => hdown⟩

/-- Argument lists are compared in the end when all questions they lead to are
answered. -/
theorem conform_ends {D : Declarations} (params : List TypeParam) (as bs : List Ty)
    (hcalls : ∀ q, D.ConformCall params as bs q →
      Ends fun n => D.subtypeWithin n q.1 q.2) :
    Ends fun n => conform (D.subtypeWithin n) params as bs := by
  induction params generalizing as bs with
  | nil => exact Query.ends_pure true
  | cons p params ih =>
      cases as with
      | nil => exact Query.ends_pure true
      | cons a as =>
          cases bs with
          | nil => exact Query.ends_pure true
          | cons b bs =>
              have head : Ends fun n => conformAt (D.subtypeWithin n) p.variance a b := by
                cases hv : p.variance with
                | covariant => exact hcalls _ (.up (by simp [hv]))
                | contravariant => exact hcalls _ (.down (by simp [hv]) (by simp [hv]))
                | invariant =>
                    refine Ends.both (hcalls _ (.up (by simp [hv]))) fun hup => ?_
                    exact hcalls _ (.down (by simp [hv]) fun _ => hup)
              refine Ends.both head fun htrue => ih as bs fun q hq => ?_
              exact hcalls q (.later (.of_settles htrue) hq)

/-- A question all of whose chains of calls are finite has an answer. -/
theorem SubtypeFinite.ends {D : Declarations} {a b : Ty} (hab : D.SubtypeFinite a b) :
    Ends fun n => D.subtypeWithin n a b := by
  suffices ∀ q : Ty × Ty, Acc (fun inner outer => D.SubtypeCall outer inner) q →
      Ends fun n => D.subtypeWithin n q.1 q.2 from this (a, b) hab
  intro q hq
  induction hq with
  | intro q _ ih =>
      obtain ⟨a, b⟩ := q
      refine Ends.of_succ ?_
      cases D.subtypeBranch a b with
      | decided r hr => exact (Query.settles_of_value? hr).ends
      | union hab =>
          simp only [subtypeWithin_union D _ hab]
          refine Ends.both (ih _ (.unionLeft hab)) fun hleft => ?_
          exact ih _ (.unionRight hab hleft)
      | intoUnion hab ha =>
          simp only [subtypeWithin_intoUnion D _ hab ha]
          refine Ends.either (ih _ (.intoLeft hab ha)) fun hleft => ?_
          exact ih _ (.intoRight hab ha hleft)
      | literal hab hb =>
          simp only [subtypeWithin_lit D _ hab hb]
          exact ih _ (.base hab hb)
      | @view d e as bs us hab hup =>
          refine Ends.congr (fun n => value?_subtypeWithin_view n hab hup) ?_
          exact conform_ends _ us bs fun q hq => ih q (.args hab hup hq)

/-- An answered comparison of argument lists has asked, and got answers to, all the
questions that it leads to. -/
theorem value?_of_conformCall {D : Declarations} {n : Nat} {params : List TypeParam}
    {as bs : List Ty} {q : Ty × Ty} (hq : D.ConformCall params as bs q) {r : Bool}
    (hr : (conform (D.subtypeWithin n) params as bs).value? = some r) :
    ∃ s, (D.subtypeWithin n q.1 q.2).value? = some s := by
  have agrees : ∀ {a b : Ty} {s : Bool}, D.Below a b →
      (D.subtypeWithin n a b).value? = some s → s = true := by
    intro a b s hbelow hs
    exact hbelow.value?_eq (fun n => D.subtypeWithin_refines n a b) hs
  induction hq generalizing r with
  | @up p params a b as bs hp =>
      rw [conform_cons] at hr
      obtain ⟨s, hs, -, -⟩ := Query.value?_both_eq_some hr
      cases hv : p.variance with
      | covariant => exact ⟨s, by simpa [hv, conformAt] using hs⟩
      | contravariant => exact absurd hv hp
      | invariant =>
          rw [hv, conformAt] at hs
          obtain ⟨t, ht, -, -⟩ := Query.value?_both_eq_some hs
          exact ⟨t, ht⟩
  | @down p params a b as bs hp hup =>
      rw [conform_cons] at hr
      obtain ⟨s, hs, -, -⟩ := Query.value?_both_eq_some hr
      cases hv : p.variance with
      | covariant => exact absurd hv hp
      | contravariant => exact ⟨s, by simpa [hv, conformAt] using hs⟩
      | invariant =>
          rw [hv, conformAt] at hs
          obtain ⟨t, ht, hnext, -⟩ := Query.value?_both_eq_some hs
          exact ⟨s, hnext (agrees (hup hv) ht)⟩
  | @later p params a b as bs q hhead _ ih =>
      rw [conform_cons] at hr
      obtain ⟨s, hs, hrest, -⟩ := Query.value?_both_eq_some hr
      refine ih (hrest ?_)
      cases hv : p.variance with
      | covariant =>
          rw [hv] at hs hhead
          exact agrees (hhead.1 nofun) hs
      | contravariant =>
          rw [hv] at hs hhead
          exact agrees (hhead.2 nofun) hs
      | invariant =>
          rw [hv] at hs hhead
          obtain ⟨t, ht, hnext, -⟩ := Query.value?_both_eq_some hs
          exact agrees (hhead.2 nofun) (hnext (agrees (hhead.1 nofun) ht))

/-- An answered question has no endless chain of calls: each call is answered with a
smaller limit. -/
theorem subtypeFinite_of_value? {D : Declarations} {n : Nat} {a b : Ty} {r : Bool}
    (hr : (D.subtypeWithin n a b).value? = some r) : D.SubtypeFinite a b := by
  induction n generalizing a b r with
  | zero =>
      rw [subtypeWithin, Query.value?_unanswered] at hr
      exact nomatch hr
  | succ n ih =>
      refine Acc.intro _ fun q hq => ?_
      cases hq with
      | unionLeft hab =>
          rw [subtypeWithin_union D n hab] at hr
          obtain ⟨s, hs, -, -⟩ := Query.value?_both_eq_some hr
          exact ih hs
      | unionRight hab hleft =>
          rw [subtypeWithin_union D n hab] at hr
          obtain ⟨s, hs, hnext, -⟩ := Query.value?_both_eq_some hr
          have htrue := hleft.value?_eq (fun n => D.subtypeWithin_refines n _ _) hs
          exact ih (hnext htrue)
      | intoLeft hab ha =>
          rw [subtypeWithin_intoUnion D n hab ha] at hr
          obtain ⟨s, hs, -, -⟩ := Query.value?_either_eq_some hr
          exact ih hs
      | intoRight hab ha hleft =>
          rw [subtypeWithin_intoUnion D n hab ha] at hr
          obtain ⟨s, hs, hnext, -⟩ := Query.value?_either_eq_some hr
          have hfalse := hleft.value?_eq (fun n => D.subtypeWithin_refines n _ _) hs
          exact ih (hnext hfalse)
      | base hab hb =>
          rw [subtypeWithin_lit D n hab hb] at hr
          exact ih hr
      | args hab hup hcall =>
          rw [value?_subtypeWithin_view n hab hup] at hr
          obtain ⟨s, hs⟩ := value?_of_conformCall hcall hr
          exact ih hs

/-- A question about subtyping has an answer exactly when it has no endless chain of
calls. -/
theorem subtypeWithin_ends_iff (D : Declarations) (a b : Ty) :
    (Ends fun n => D.subtypeWithin n a b) ↔ D.SubtypeFinite a b := by
  constructor
  · rintro ⟨r, limit, hlimit⟩
    exact subtypeFinite_of_value? (hlimit limit (Nat.le_refl limit))
  · exact SubtypeFinite.ends

end Declarations

end CaseCover
