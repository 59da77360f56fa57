import CaseCover.Proofs.Hierarchy.JoinBounds

/-!
Joins as upper bounds under any variances. Without covariance a question about subtyping may go
on for ever, also one about a type and a join with it, and subtyping does not chain through
unconstrained positions. But where every data type has at most one parent, a join with an
application is reached from it by steps up and then argument by argument (`LeadsTo`), and the
question asked in this way is never answered with no (`SingleParent.join_upper_bound`).
-/

namespace CaseCover

namespace Declarations

open Relation (ReflTransGen)

variable {D : Declarations}

/-- Whenever the question whether a type is below another has an answer, it is yes. -/
def Unrefuted (D : Declarations) (a b : Ty) : Prop :=
  ∀ n r, (D.subtypeWithin n a b).value? = some r → r = true

theorem Below.unrefuted {a b : Ty} (h : D.Below a b) : D.Unrefuted a b :=
  fun _ _ hr => Query.Settles.value?_eq (fun n => D.subtypeWithin_refines n a b) h hr

/-- An argument is not found not to conform to another as a variance asks. -/
def Fits (D : Declarations) (v : Variance) (a b : Ty) : Prop :=
  (v ≠ .contravariant → D.Unrefuted a b) ∧ (v ≠ .covariant → D.Unrefuted b a)

theorem Conforms.fits {v : Variance} {a b : Ty} (h : D.Conforms v a b) : D.Fits v a b :=
  ⟨fun hv => (h.1 hv).unrefuted, fun hv => (h.2 hv).unrefuted⟩

theorem fits_self (D : Declarations) (v : Variance) (t : Ty) : D.Fits v t t :=
  (D.conforms_self v t).fits

theorem Fits.eq_true {v : Variance} {a b : Ty} (h : D.Fits v a b) {n : Nat} {r : Bool}
    (hr : (conformAt (D.subtypeWithin n) v a b).value? = some r) : r = true := by
  cases v with
  | covariant => exact h.1 nofun n r hr
  | contravariant => exact h.2 nofun n r hr
  | invariant =>
      obtain ⟨up, hup, hdown, -⟩ := Query.value?_both_eq_some hr
      exact h.2 nofun n r (hdown (h.1 nofun n up hup))

/-- Where one of the lists is empty, there is nothing to fit. -/
theorem atPositions_nil (D : Declarations) (params : List TypeParam) (as : List Ty) :
    AtPositions D.Fits params as [] := by
  intro i p a b _ _ hb
  rw [List.getElem?_nil] at hb
  cases hb

/-- Arguments that fit are not found not to conform. -/
theorem eq_true_of_conform {params : List TypeParam} {as bs : List Ty}
    (h : AtPositions D.Fits params as bs) {n : Nat} {r : Bool}
    (hr : (conform (D.subtypeWithin n) params as bs).value? = some r) : r = true := by
  induction params generalizing as bs with
  | nil => exact (Option.some.inj hr).symm
  | cons p params ih =>
      cases as with
      | nil => exact (Option.some.inj hr).symm
      | cons a as =>
          cases bs with
          | nil => exact (Option.some.inj hr).symm
          | cons b bs =>
              rw [conform_cons] at hr
              obtain ⟨head, hhead, hrest, -⟩ := Query.value?_both_eq_some hr
              obtain ⟨hfits, hfit⟩ := atPositions_cons.1 h
              exact ih hfit (hrest (hfits.eq_true hhead))

theorem ConformsAll.fits {params : List TypeParam} {as bs : List Ty}
    (h : D.ConformsAll params as bs) : AtPositions D.Fits params as bs :=
  fun i p a b hp ha hb => (h i p a b hp ha hb).fits

/-- An application is not found not to be below another when the arguments of its view fit. -/
theorem unrefuted_of_view {d e : DataId} {as bs us : List Ty}
    (hup : (D.upcast (.app d as) e).value = some (.app e us))
    (h : AtPositions D.Fits (D.get e).params us bs) : D.Unrefuted (.app d as) (.app e bs) := by
  by_cases hab : Ty.app d as = .app e bs
  · rw [hab]
    exact (D.below_self _).unrefuted
  have hopen : ¬ DecidedAtOnce (.app d as) (.app e bs) := by simp [DecidedAtOnce, hab]
  intro n r hr
  cases n with
  | zero => cases hr
  | succ n =>
      rw [value?_subtypeWithin_view n hopen hup] at hr
      exact eq_true_of_conform h hr

/-- How a type is found to lead to a join with it: it is below the join, or the steps up from it
lead to an application whose arguments fit those of the join. -/
inductive LeadsTo (D : Declarations) (a : Ty) : Ty → Prop
  | below {r : Ty} (h : D.Below a r) : D.LeadsTo a r
  | view {e : DataId} {us rs : List Ty} (hup : ReflTransGen D.StepsUp a (.app e us))
      (hargs : AtPositions D.Fits (D.get e).params us rs) : D.LeadsTo a (.app e rs)

theorem LeadsTo.unrefuted (hsingle : D.SingleParent) {a r : Ty} (h : D.LeadsTo a r) :
    D.Unrefuted a r := by
  cases h with
  | below h => exact h.unrefuted
  | view hup hargs =>
      obtain ⟨d, as, rfl⟩ : ∃ d as, a = .app d as := by
        rcases hup.cases_head with rfl | ⟨_, ⟨d, as, rfl, -⟩, -⟩
        · exact ⟨_, _, rfl⟩
        · exact ⟨d, as, rfl⟩
      exact unrefuted_of_view (hsingle.upcast_eq hup) hargs

/-- A literal leads to what its built-in type leads to, which it is below. -/
theorem leadsTo_of_widen {t r : Ty} (h : D.LeadsTo t.widen r) : D.LeadsTo t r := by
  cases t with
  | lit v =>
      cases h with
      | below h => exact .below (below_literal h)
      | view hup _ =>
          rcases hup.cases_head with heq | ⟨_, ⟨_, _, heq, -⟩, -⟩
          · cases heq
          · cases heq
  | prim _ | union _ _ | app _ _ | param _ _ => exact h

/-- What an application on the way up leads to, an application or `any`, the type leads to. -/
theorem leadsTo_of_stepsUp {a r : Ty} {m : DataId} {us : List Ty}
    (hup : ReflTransGen D.StepsUp a (.app m us)) (hr : r = .any ∨ ∃ e rs, r = .app e rs)
    (h : D.LeadsTo (.app m us) r) : D.LeadsTo a r := by
  cases h with
  | view hview hargs => exact .view (hup.trans hview) hargs
  | below h =>
      rcases hr with rfl | ⟨e, rs, rfl⟩
      · exact .below (D.below_any a)
      · obtain ⟨ws, hws⟩ := exists_view_of_below h
        exact .view (hup.trans (D.upcast_sound hws).2) ((below_iff_of_view hws).1 h).fits

/-- The join of two applications is an application or `any`. -/
theorem lub_apps {n : Nat} {a b r : Ty} (ha : ∃ d as, a = .app d as) (hb : ∃ e bs, b = .app e bs)
    (hr : (D.lubWithin n a b).value? = some r) : r = .any ∨ ∃ f rs, r = .app f rs := by
  induction n generalizing a b r with
  | zero => cases hr
  | succ n ih =>
      cases joinOutcome hr with
      | same => exact .inr ha
      | unconstrained h =>
          obtain ⟨_, _, rfl⟩ := ha
          obtain ⟨_, _, rfl⟩ := hb
          rcases h with h | h
          · cases h
          · cases h
      | args => exact .inr ⟨_, _, rfl⟩
      | right => exact .inr hb
      | left => exact .inr ha
      | widened _ hw _ =>
          obtain ⟨_, _, rfl⟩ := ha
          obtain ⟨_, _, rfl⟩ := hb
          exact hw.elim (absurd rfl) (absurd rfl)
      | met _ _ hq hmet =>
          obtain ⟨_, _, m, us, vs, -, rfl, -⟩ := meeting?_views hq
          exact ih ⟨m, us, rfl⟩ ⟨m, vs, rfl⟩ hmet
      | top => exact .inl rfl

section Arguments

variable {bound : Ty → Ty → Query Ty}

/-- What the arguments at one position are joined to fits both. -/
theorem fits_of_joinAt
    (hbound : ∀ a b r, (bound a b).value? = some r → D.Unrefuted a r ∧ D.Unrefuted b r)
    {v : Variance} {a b t : Ty} (h : (joinAt bound v a b).value? = some (some t)) :
    D.Fits v a t ∧ D.Fits v b t := by
  have hequal : (if a = b then some a else none) = some t → D.Fits v a t ∧ D.Fits v b t := by
    intro h
    rw [Option.ite_none_right_eq_some] at h
    obtain ⟨rfl, heq⟩ := h
    obtain rfl := Option.some.inj heq
    exact ⟨D.fits_self v a, D.fits_self v a⟩
  cases v with
  | covariant =>
      rw [joinAt, Query.value?_map, Option.map_eq_some_iff] at h
      obtain ⟨r, hr, heq⟩ := h
      obtain rfl := Option.some.inj heq
      obtain ⟨hleft, hright⟩ := hbound a b r hr
      exact ⟨⟨fun _ => hleft, absurd rfl⟩, ⟨fun _ => hright, absurd rfl⟩⟩
  | contravariant => exact hequal (Option.some.inj h)
  | invariant => exact hequal (Option.some.inj h)

/-- Joined arguments fit those that they are joined from. -/
theorem fits_of_joinArgs
    (hbound : ∀ a b r, (bound a b).value? = some r → D.Unrefuted a r ∧ D.Unrefuted b r)
    {params : List TypeParam} {as bs rs : List Ty}
    (h : (joinArgs bound params as bs).value? = some (some rs)) :
    AtPositions D.Fits params as rs ∧ AtPositions D.Fits params bs rs := by
  have hnone : ∀ {params as bs rs}, some (some []) = some (some rs) →
      AtPositions D.Fits params as rs ∧ AtPositions D.Fits params bs rs := by
    intro params as bs rs hrs
    obtain rfl := Option.some.inj (Option.some.inj hrs)
    exact ⟨D.atPositions_nil params as, D.atPositions_nil params bs⟩
  induction params generalizing as bs rs with
  | nil => exact hnone h
  | cons p params ih =>
      cases as with
      | nil => exact hnone h
      | cons a as =>
          cases bs with
          | nil => exact hnone h
          | cons b bs =>
              rw [joinArgs_cons, Query.value?_bind_eq_some] at h
              obtain ⟨first, hfirst, h⟩ := h
              cases first with
              | none => cases h
              | some t =>
                  obtain ⟨rest, hrest, h⟩ := Query.value?_bind_eq_some.1 h
                  obtain ⟨ts, rfl, rfl⟩ := Option.map_eq_some_iff.1 (Option.some.inj h)
                  obtain ⟨hleft, hright⟩ := fits_of_joinAt hbound hfirst
                  obtain ⟨hlefts, hrights⟩ := ih hrest
                  exact ⟨atPositions_cons.2 ⟨hleft, hlefts⟩, atPositions_cons.2 ⟨hright, hrights⟩⟩

end Arguments

namespace SingleParent

/-- A join is reached from both types. The induction is on the limit; only where two applications
meet do both have to be taken up to the data type where they meet. -/
theorem leadsTo_join (hsingle : D.SingleParent) {n : Nat} {a b r : Ty}
    (hr : (D.lubWithin n a b).value? = some r) : D.LeadsTo a r ∧ D.LeadsTo b r := by
  induction n generalizing a b r with
  | zero => cases hr
  | succ n ih =>
      cases joinOutcome hr with
      | same => exact ⟨.below (D.below_self a), .below (D.below_self a)⟩
      | unconstrained => exact ⟨.below (D.below_noType a), .below (D.below_noType b)⟩
      | right h => exact ⟨.below h, .below (D.below_self b)⟩
      | left h => exact ⟨.below (D.below_self a), .below h⟩
      | top => exact ⟨.below (D.below_any a), .below (D.below_any b)⟩
      | args _ hargs =>
          obtain ⟨hleft, hright⟩ := fits_of_joinArgs (fun a b r hr =>
            ⟨(ih hr).1.unrefuted hsingle, (ih hr).2.unrefuted hsingle⟩) hargs
          exact ⟨.view .refl hleft, .view .refl hright⟩
      | widened _ _ hwidened =>
          obtain ⟨hleft, hright⟩ := ih hwidened
          exact ⟨leadsTo_of_widen hleft, leadsTo_of_widen hright⟩
      | met _ _ hq hmet =>
          obtain ⟨d, as, m, us, vs, rfl, rfl, -, hup, hup'⟩ := meeting?_views hq
          have happ := lub_apps ⟨m, us, rfl⟩ ⟨m, vs, rfl⟩ hmet
          obtain ⟨hleft, hright⟩ := ih hmet
          exact ⟨leadsTo_of_stepsUp hup happ hleft, leadsTo_of_stepsUp hup' happ hright⟩

/-- Where every data type has at most one parent, a join that is found is above both types, as
far as the questions whether it is have answers. -/
theorem join_upper_bound (hsingle : D.SingleParent) {n : Nat} {a b r : Ty}
    (hr : ((D.within n).lub a b).value? = some r) :
    (∀ m x, ((D.within m).isSubtype a r).value? = some x → x = true) ∧
      ∀ m x, ((D.within m).isSubtype b r).value? = some x → x = true := by
  obtain ⟨hleft, hright⟩ := hsingle.leadsTo_join hr
  exact ⟨hleft.unrefuted hsingle, hright.unrefuted hsingle⟩

end SingleParent

/-- `Channel[-I, +O]`, and `Log[+O]` and `Echo[+O]` below `Channel[str, O]`. -/
def channels : Declarations :=
  let (channel, D) := Workspace.initial.decls.declare "Channel"
    [⟨"I", .contravariant⟩, ⟨"O", .covariant⟩] (.abstractType false)
  let (log, D) := D.declare "Log" [⟨"O", .covariant⟩] (.product [])
  let (echo, D) := D.declare "Echo" [⟨"O", .covariant⟩] (.product [])
  (D.extend log (.app channel [.prim .str, .param log 0])).extend echo
    (.app channel [.prim .str, .param echo 0])

/-- `Log[1]` and `Echo[2]` meet at `Channel[str, int]`. -/
theorem join_upper_bound_channels :
    channels.SingleParent ∧
      ((channels.within 6).lub (.app ⟨9⟩ [.lit (.int 1)]) (.app ⟨10⟩ [.lit (.int 2)])).value? =
        some (.app ⟨8⟩ [.prim .str, .prim .int]) ∧
      ((channels.within 6).isSubtype (.app ⟨9⟩ [.lit (.int 1)])
        (.app ⟨8⟩ [.prim .str, .prim .int])).value? = some true ∧
      ((channels.within 6).isSubtype (.app ⟨10⟩ [.lit (.int 2)])
        (.app ⟨8⟩ [.prim .str, .prim .int])).value? = some true := by
  have hsingle : channels.SingleParent := singleParent_of_ordered (by decide)
  have hjoin : ((channels.within 6).lub (.app ⟨9⟩ [.lit (.int 1)])
      (.app ⟨10⟩ [.lit (.int 2)])).value? = some (.app ⟨8⟩ [.prim .str, .prim .int]) := by decide
  obtain ⟨hleft, hright⟩ := hsingle.join_upper_bound hjoin
  have hanswers : ∀ t ∈ [Ty.app ⟨9⟩ [.lit (.int 1)], .app ⟨10⟩ [.lit (.int 2)]],
      ((channels.within 6).isSubtype t (.app ⟨8⟩ [.prim .str, .prim .int])).value?.isSome = true :=
    by decide
  obtain ⟨x, hx⟩ := Option.isSome_iff_exists.1 (hanswers _ List.mem_cons_self)
  obtain ⟨y, hy⟩ := Option.isSome_iff_exists.1
    (hanswers _ (List.mem_cons_of_mem _ List.mem_cons_self))
  refine ⟨hsingle, hjoin, ?_, ?_⟩
  · rw [hx, hleft 6 x hx]
  · rw [hy, hright 6 y hy]

end Declarations

end CaseCover
