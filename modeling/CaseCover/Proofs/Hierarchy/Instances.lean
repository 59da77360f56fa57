import CaseCover.Proofs.Decl.Reachable
import CaseCover.Proofs.Hierarchy.Children
import CaseCover.Proofs.Hierarchy.Views

/-!
Which children of a sealed type are found to have an instance under it. The parameters of a
child are read off where its view at the parent meets the target. They can be read off when
each argument of the view is a parameter that meets the same type wherever it occurs, has no
parameters, or is an application of the data type that it meets, with such arguments again
(`Matched`). Then a child that has any instance below the target gets one
(`instance_of_below`); where a parameter meets a supertype instead, or two different types,
an instance may be missed.
-/

namespace CaseCover

namespace Declarations

open Query (Settles)

/-- A type over the parameters of a data type meets another type, and each parameter that
it mentions meets a type that is known for it. -/
inductive Matched (owner : DataId) (known : Nat → Ty → Prop) : Ty → Ty → Prop
  | solved {i : Nat} {t : Ty} (ht : known i t) : Matched owner known (.param owner i) t
  | closed {u : Ty} (hu : u.Over owner 0) (t : Ty) : Matched owner known u t
  | app {d : DataId} {inner actuals : List Ty}
      (h : ∀ q ∈ inner.zip actuals, Matched owner known q.1 q.2) :
      Matched owner known (.app d inner) (.app d actuals)

theorem Matched.mono {owner : DataId} {known known' : Nat → Ty → Prop} {u t : Ty}
    (h : Matched owner known u t) (hknown : ∀ i s, known i s → known' i s) :
    Matched owner known' u t := by
  induction h with
  | solved ht => exact .solved (hknown _ _ ht)
  | closed hu t => exact .closed hu t
  | app _ ih => exact .app ih

/-- A type is bound for the parameter at a position. -/
def Binds (bindings : List (Option Ty)) (i : Nat) (t : Ty) : Prop :=
  bindings[i]? = some (some t)

/-- After a step, what is bound for parameters is as a solution says, and no less than
before. -/
structure Solving (σ : Nat → Ty) (before after : List (Option Ty)) : Prop where
  length_eq : after.length = before.length
  kept : ∀ i t, Binds before i t → Binds after i t
  agrees : ∀ i t, Binds after i t → σ i = t

theorem Solving.trans {σ : Nat → Ty} {first second third : List (Option Ty)}
    (h : Solving σ first second) (h' : Solving σ second third) : Solving σ first third where
  length_eq := h'.length_eq.trans h.length_eq
  kept := fun i t hi => h'.kept i t (h.kept i t hi)
  agrees := h'.agrees

theorem solving_self {σ : Nat → Ty} {bindings : List (Option Ty)}
    (hσ : ∀ i t, Binds bindings i t → σ i = t) : Solving σ bindings bindings :=
  ⟨rfl, fun _ _ h => h, hσ⟩

theorem solving_set {σ : Nat → Ty} {bindings : List (Option Ty)}
    (hσ : ∀ i t, Binds bindings i t → σ i = t) {i : Nat} (hi : bindings[i]? = some none) :
    Solving σ bindings (bindings.set i (some (σ i))) where
  length_eq := List.length_set
  kept := by
    intro j t hj
    have hne : i ≠ j := by
      rintro rfl
      exact nomatch Option.some.inj (hi.symm.trans hj)
    rwa [Binds, List.getElem?_set_ne hne]
  agrees := by
    intro j t hj
    by_cases hij : i = j
    · subst hij
      have hlt : i < bindings.length := (List.getElem?_eq_some_iff.1 hi).1
      rw [Binds, List.getElem?_set_self hlt] at hj
      exact Option.some.inj (Option.some.inj hj)
    · rw [Binds, List.getElem?_set_ne hij] at hj
      exact hσ j t hj

section Binding

variable {D : Declarations} {owner : DataId} {σ : Nat → Ty}

/-- A parameter that meets what the solution says for it is bound to that. -/
theorem bindParams_param {bindings : List (Option Ty)}
    (hσ : ∀ i t, Binds bindings i t → σ i = t) {i : Nat} (hi : i < bindings.length) :
    ∃ after, Settles (fun n =>
        (D.within n).bindParams owner (.param owner i) (σ i) bindings) after ∧
      Solving σ bindings after ∧ Binds after i (σ i) := by
  cases hknown : bindings[i] with
  | none =>
      have hopen : bindings[i]? = some none := by
        rw [List.getElem?_eq_getElem hi, hknown]
      refine ⟨_, Query.settles_of_value? fun n => ?_, solving_set hσ hopen, ?_⟩
      · simp [Hierarchy.bindParams, hopen]
      · rw [Binds, List.getElem?_set_self hi]
  | some known =>
      have hbound : Binds bindings i known := by
        rw [Binds, List.getElem?_eq_getElem hi, hknown]
      obtain rfl := hσ i known hbound
      have hset : bindings.set i (some (σ i)) = bindings := by
        rw [← hknown, List.set_getElem_self]
      refine ⟨bindings, .of_succ (Query.settles_of_value? fun n => ?_), solving_self hσ, hbound⟩
      unfold Binds at hbound
      simp [Hierarchy.bindParams, hbound, Hierarchy.lub, lubWithin, hset]

/-- Types that meet others, each of which binds its parameters, bind all of them. -/
theorem bindParamsList_solves {inner actuals : List Ty} {arity : Nat}
    (hinner : ∀ u ∈ inner, u.Over owner arity)
    (hmatch : ∀ q ∈ inner.zip actuals, ∀ bindings : List (Option Ty),
      q.1.Over owner bindings.length → (∀ i t, Binds bindings i t → σ i = t) →
      ∃ after, Settles (fun n => (D.within n).bindParams owner q.1 q.2 bindings) after ∧
        Solving σ bindings after ∧ Matched owner (Binds after) q.1 q.2)
    {bindings : List (Option Ty)} (hlength : bindings.length = arity)
    (hσ : ∀ i t, Binds bindings i t → σ i = t) :
    ∃ after, Settles (fun n =>
        (D.within n).bindParamsList owner inner actuals bindings) after ∧
      Solving σ bindings after ∧
      ∀ q ∈ inner.zip actuals, Matched owner (Binds after) q.1 q.2 := by
  induction inner generalizing actuals bindings with
  | nil =>
      refine ⟨bindings, Query.settles_of_value? fun n => rfl, solving_self hσ, fun q hq => ?_⟩
      simp at hq
  | cons u inner ih =>
      cases actuals with
      | nil =>
          exact ⟨bindings, Query.settles_of_value? fun n => rfl, solving_self hσ,
            fun q hq => by simp at hq⟩
      | cons actual actuals =>
          have hover := hinner u List.mem_cons_self
          obtain ⟨between, hfirst, hsolving, hmatched⟩ :=
            hmatch (u, actual) List.mem_cons_self bindings (hlength ▸ hover) hσ
          obtain ⟨after, hrest, hsolving', hmatched'⟩ :=
            ih (fun v hv => hinner v (List.mem_cons_of_mem u hv))
              (fun q hq => hmatch q (List.mem_cons_of_mem _ hq))
              (hsolving.length_eq.trans hlength) hsolving.agrees
          refine ⟨after, hfirst.bind hrest, hsolving.trans hsolving', fun q hq => ?_⟩
          rcases List.mem_cons.1 hq with rfl | hq
          · exact hmatched.mono hsolving'.kept
          · exact hmatched' q hq

theorem bindParamsList_closed {inner : List Ty}
    (hinner : ∀ u ∈ inner, ∀ (t : Ty) (bindings : List (Option Ty)),
      Settles (fun n => (D.within n).bindParams owner u t bindings) bindings)
    (actuals : List Ty) (bindings : List (Option Ty)) :
    Settles (fun n => (D.within n).bindParamsList owner inner actuals bindings) bindings := by
  induction inner generalizing actuals with
  | nil => exact Query.settles_of_value? fun n => rfl
  | cons u inner ih =>
      cases actuals with
      | nil => exact Query.settles_of_value? fun n => rfl
      | cons actual actuals =>
          have hfirst := hinner u List.mem_cons_self actual bindings
          exact hfirst.bind (ih (fun v hv => hinner v (List.mem_cons_of_mem u hv)) actuals)

/-- A type without parameters binds nothing. -/
theorem bindParams_closed {u : Ty} (hu : u.Over owner 0) (t : Ty)
    (bindings : List (Option Ty)) :
    Settles (fun n => (D.within n).bindParams owner u t bindings) bindings := by
  induction hu generalizing t bindings with
  | prim p => exact Query.settles_of_value? fun n => by cases t <;> rfl
  | lit v => exact Query.settles_of_value? fun n => by cases t <;> rfl
  | union => exact Query.settles_of_value? fun n => by cases t <;> rfl
  | param hi => exact absurd hi (Nat.not_lt_zero _)
  | @app d inner _ ih =>
      cases t with
      | app e actuals =>
          by_cases hde : d = e
          · simp only [Hierarchy.bindParams, if_pos hde]
            exact bindParamsList_closed ih actuals bindings
          · exact Query.settles_of_value? fun n => by simp [Hierarchy.bindParams, hde]
      | prim p => exact Query.settles_of_value? fun n => rfl
      | lit v => exact Query.settles_of_value? fun n => rfl
      | union x y => exact Query.settles_of_value? fun n => rfl
      | param o i => exact Query.settles_of_value? fun n => rfl

/-- Where a type meets another as a solution says, the parameters that it mentions are bound
as the solution says. -/
theorem bindParams_solves {u t : Ty} (hmatch : Matched owner (fun i s => σ i = s) u t)
    {bindings : List (Option Ty)} (hover : u.Over owner bindings.length)
    (hσ : ∀ i t, Binds bindings i t → σ i = t) :
    ∃ after, Settles (fun n => (D.within n).bindParams owner u t bindings) after ∧
      Solving σ bindings after ∧ Matched owner (Binds after) u t := by
  induction hmatch generalizing bindings with
  | @solved i t ht =>
      subst ht
      cases hover with
      | param hi =>
          obtain ⟨after, hsettles, hsolving, hbinds⟩ := bindParams_param hσ hi
          exact ⟨after, hsettles, hsolving, .solved hbinds⟩
  | closed hu t => exact ⟨bindings, bindParams_closed hu t bindings, solving_self hσ, .closed hu t⟩
  | @app d inner actuals _ ih =>
      have hinner : ∀ a ∈ inner, a.Over owner bindings.length := by
        cases hover with
        | app h => exact h
      obtain ⟨after, hsettles, hsolving, hmatched⟩ :=
        bindParamsList_solves hinner (fun q hq _ => ih q hq) rfl hσ
      refine ⟨after, ?_, hsolving, .app hmatched⟩
      simpa only [Hierarchy.bindParams, if_pos] using hsettles

end Binding

/-- The parameters of a child can be read off where its view at a parent meets a target. -/
def Solvable (D : Declarations) (child parent : DataId) (bs : List Ty) : Prop :=
  ∃ σ : Nat → Ty, ∀ us, (D.upcast (D.genericSelf child) parent).value = some (.app parent us) →
    ∀ q ∈ us.zip bs, Matched child (fun i t => σ i = t) q.1 q.2

/-- An instance whose parameters are what they meet is below a type, or above it, when any
instance is. -/
theorem Matched.transfers {D : Declarations} {owner : DataId} {as cs : List Ty} {u t : Ty}
    (hmatch : Matched owner (fun i s => cs[i]? = some s) u t) :
    (D.Below (u.substitute owner as) t → D.Below (u.substitute owner cs) t) ∧
      (D.Below t (u.substitute owner as) → D.Below t (u.substitute owner cs)) := by
  induction hmatch with
  | @solved i t ht =>
      have hsubst : (Ty.param owner i).substitute owner cs = t := by
        rw [Ty.substitute, if_pos rfl, ht, Option.getD_some]
      rw [hsubst]
      exact ⟨fun _ => D.below_self t, fun _ => D.below_self t⟩
  | closed hu t =>
      rw [hu.substitute_eq cs as]
      exact ⟨id, id⟩
  | @app d inner actuals _ ih =>
      have argument : ∀ {i : Nat} {a b : Ty}, (inner.map (Ty.substitute owner cs))[i]? = some a →
          actuals[i]? = some b → ∃ a', (inner.map (Ty.substitute owner as))[i]? = some a' ∧
            (D.Below a' b → D.Below a b) ∧ (D.Below b a' → D.Below b a) := by
        intro i a b ha hb
        rw [List.getElem?_map, Option.map_eq_some_iff] at ha
        obtain ⟨u, hu, rfl⟩ := ha
        refine ⟨u.substitute owner as, by rw [List.getElem?_map, hu, Option.map_some], ?_⟩
        apply ih (u, b)
        apply List.mem_of_getElem?
        rw [List.getElem?_zip_eq_some]
        exact ⟨hu, hb⟩
      rw [Ty.substitute_app, Ty.substitute_app, below_app_iff, below_app_iff, below_app_iff,
        below_app_iff]
      constructor
      · intro h i p a b hp ha hb
        obtain ⟨a', ha', hup, hdown⟩ := argument ha hb
        have hold := h i p a' b hp ha' hb
        exact ⟨fun hv => hup (hold.1 hv), fun hv => hdown (hold.2 hv)⟩
      · intro h i p b a hp hb ha
        obtain ⟨a', ha', hup, hdown⟩ := argument ha hb
        have hold := h i p b a' hp hb ha'
        exact ⟨fun hv => hdown (hold.1 hv), fun hv => hup (hold.2 hv)⟩

/-- Binding the parameters of a child that can be read off gives an instance below the
target, if there is any. -/
theorem bindings_solve {D : Declarations} (hD : D.ParentsScoped) {child parent : DataId}
    {as bs us : List Ty} (hlength : as.length = (D.get child).arity)
    (hbelow : D.Below (.app child as) (.app parent bs))
    (hup : (D.upcast (D.genericSelf child) parent).value = some (.app parent us))
    {σ : Nat → Ty} (hσ : ∀ q ∈ us.zip bs, Matched child (fun i t => σ i = t) q.1 q.2) :
    ∃ after : List (Option Ty), Settles (fun n => (D.within n).bindParamsList child us bs
        (List.replicate (D.get child).arity none)) after ∧
      D.Below (.app child (after.map (·.getD .any))) (.app parent bs) := by
  have husOver : ∀ u ∈ us, u.Over child (D.get child).arity := by
    cases (upcast_instance hD hlength parent).2 _ hup with
    | app h => exact h
  have hunbound : ∀ i t, Binds (List.replicate (D.get child).arity none) i t → σ i = t := by
    intro i t h
    rw [Binds, List.getElem?_replicate] at h
    split at h
    · exact nomatch Option.some.inj h
    · exact nomatch h
  have hsolves : ∀ q ∈ us.zip bs, ∀ bindings : List (Option Ty),
      q.1.Over child bindings.length → (∀ i t, Binds bindings i t → σ i = t) →
      ∃ after, Settles (fun n => (D.within n).bindParams child q.1 q.2 bindings) after ∧
        Solving σ bindings after ∧ Matched child (Binds after) q.1 q.2 :=
    fun q hq _ => bindParams_solves (hσ q hq)
  obtain ⟨after, hsettles, hsolving, hmatched⟩ :=
    bindParamsList_solves husOver hsolves List.length_replicate hunbound
  refine ⟨after, hsettles, ?_⟩
  have hmeets : Matched child (fun i s => (after.map (·.getD .any))[i]? = some s)
      (.app parent us) (.app parent bs) := by
    refine .app fun q hq => (hmatched q hq).mono fun i s hs => ?_
    rw [List.getElem?_map, hs]
    rfl
  have hfound : (after.map (·.getD .any)).length = (D.get child).arity := by
    rw [List.length_map, hsolving.length_eq, List.length_replicate]
  -- Both instances are compared with the target through the instances of one view.
  have hview := (upcast_instance hD hlength parent).1
  have hview' := (upcast_instance hD hfound parent).1
  rw [hup, Option.map_some, Ty.substitute_app] at hview hview'
  rw [below_view_iff hview, ← Ty.substitute_app] at hbelow
  rw [below_view_iff hview', ← Ty.substitute_app]
  exact hmeets.transfers.1 hbelow

/-- A child with an instance below an application, whose parameters can be read off, is found
to have one. -/
theorem instantiateChild_settles {D : Declarations} (hD : D.ParentsScoped)
    {child parent : DataId} {as bs : List Ty} (hlength : as.length = (D.get child).arity)
    (hbelow : D.Below (.app child as) (.app parent bs))
    (hsolvable : (D.get child).arity ≠ 0 → D.Solvable child parent bs) :
    ∃ cs, D.Below (.app child cs) (.app parent bs) ∧
      Settles (fun n => (D.within n).instantiateChild child (.app parent bs))
        (some (.app child cs)) := by
  have answered : ∀ {cs : List Ty}, D.Below (.app child cs) (.app parent bs) →
      Settles (fun n => do
        let candidate ← Query.build (.app child cs)
        return if ← (D.within n).isSubtype candidate (.app parent bs) then some candidate
          else none) (some (.app child cs)) := by
    intro cs hcs
    apply Query.Settles.bind (Query.settles_of_value? fun n => rfl)
    exact Query.Settles.bind hcs (Query.settles_of_value? fun n => rfl)
  by_cases harity : (D.get child).arity = 0
  · have hnil : as = [] := List.eq_nil_of_length_eq_zero (hlength.trans harity)
    rw [hnil] at hbelow
    refine ⟨[], hbelow, ?_⟩
    simp only [Hierarchy.instantiateChild, if_pos harity]
    exact Query.Settles.bind (Query.settles_of_value? fun n => rfl) (answered hbelow)
  · obtain ⟨σ, hσ⟩ := hsolvable harity
    obtain ⟨ws, hws⟩ := exists_view_of_below hbelow
    obtain ⟨hview, -⟩ := upcast_instance hD hlength parent
    rw [hws, eq_comm, Option.map_eq_some_iff] at hview
    obtain ⟨up, hup, -⟩ := hview
    obtain ⟨⟨us, rfl⟩, -⟩ := D.upcast_sound hup
    obtain ⟨after, hbind, hcs⟩ := bindings_solve hD hlength hbelow hup (hσ us hup)
    refine ⟨_, hcs, ?_⟩
    simp only [Hierarchy.instantiateChild, if_neg harity]
    apply Query.Settles.bind (Query.settles_of_value? fun n => rfl)
    apply Query.Settles.bind
      (Query.settles_of_value? fun n => (Query.value?_liftM _).trans (congrArg some hup))
    apply hbind.bind
    exact Query.Settles.bind (Query.settles_of_value? fun n => rfl) (answered hcs)

/-- A child of a sealed type that has an instance below it, and whose parameters can be read
off, is found to have one, and some instance of it is among the direct subtypes. -/
theorem instance_of_below {D : Declarations} (hD : D.ParentsScoped) {child parent : DataId}
    (hsealed : (D.get parent).isSealed = true) (hchild : child ∈ (D.get parent).children)
    {as bs : List Ty} (hlength : as.length = (D.get child).arity)
    (hbelow : D.Below (.app child as) (.app parent bs))
    (hsolvable : (D.get child).arity ≠ 0 → D.Solvable child parent bs) :
    ∃ cs, D.Below (.app child cs) (.app parent bs) ∧
      Settles (fun n => (D.within n).instantiateChild child (.app parent bs))
        (some (.app child cs)) ∧
      ∀ subtypes, D.DirectSubtypes (.app parent bs) subtypes → .app child cs ∈ subtypes := by
  obtain ⟨cs, hcs, limit, hlimit⟩ := instantiateChild_settles hD hlength hbelow hsolvable
  refine ⟨cs, hcs, ⟨limit, hlimit⟩, ?_⟩
  rintro subtypes ⟨later, hlater⟩
  have hsubtypes := hlater (max limit later) (by omega)
  simp only [Hierarchy.directSubtypes, if_pos hsealed] at hsubtypes
  exact Query.mem_value?_filterMap hsubtypes hchild (hlimit (max limit later) (by omega))

/-- `Some` has the instance `Some[int]` under `Option[int]`, and it is found. -/
theorem instance_of_below_some_int :
    ∃ cs, Workspace.initial.decls.Below (.app ⟨1⟩ cs) (.app ⟨0⟩ [.prim .int]) ∧
      Settles (fun n => (Workspace.initial.decls.within n).instantiateChild ⟨1⟩
        (.app ⟨0⟩ [.prim .int])) (some (.app ⟨1⟩ cs)) ∧
      ∀ subtypes, Workspace.initial.decls.DirectSubtypes (.app ⟨0⟩ [.prim .int]) subtypes →
        .app ⟨1⟩ cs ∈ subtypes := by
  have hbelow : Workspace.initial.decls.Below (.app ⟨1⟩ [.prim .int])
      (.app ⟨0⟩ [.prim .int]) :=
    below_of_isSubtype (H := Workspace.initial.decls.within 8) rfl
  have hsolvable : Workspace.initial.decls.Solvable ⟨1⟩ ⟨0⟩ [.prim .int] := by
    refine ⟨fun _ => .prim .int, fun us hus q hq => ?_⟩
    have hview : (Workspace.initial.decls.upcast (Workspace.initial.decls.genericSelf ⟨1⟩)
        ⟨0⟩).value = some (.app ⟨0⟩ [.param ⟨1⟩ 0]) := rfl
    obtain ⟨-, rfl⟩ := Ty.app.inj (Option.some.inj (hus.symm.trans hview))
    rw [List.mem_singleton.1 hq]
    exact .solved rfl
  exact instance_of_below (parentsScoped_of_forall (by decide)) rfl (by decide) rfl hbelow
    fun _ => hsolvable

/-- The initial data types with a sealed `Base[+A]`, and a product `Boxed[+T]` that extends
`Base[Some[T]]`. -/
def boxes : Declarations :=
  let D := (Workspace.initial.decls.declare "Base" [⟨"A", .covariant⟩] (.abstractType true)).2
  let D := (D.declare "Boxed" [⟨"T", .covariant⟩] (.product [])).2
  let D := D.defineFields ⟨9⟩ [⟨"value", .param ⟨9⟩ 0⟩]
  D.extend ⟨9⟩ (.app ⟨8⟩ [.app ⟨1⟩ [.param ⟨9⟩ 0]])

theorem boxes_reachable : boxes.Reachable := by
  have hdeclared := (Reachable.initial.declare "Base"
    (.abstractType [⟨"A", .covariant⟩] true)).declare "Boxed" (.product [⟨"T", .covariant⟩])
  have hfields := hdeclared.defineFields ⟨9⟩ (by decide)
    (List.forall_mem_singleton.2 (Admits.param (o := ⟨9⟩) (by decide) 0) :
      ∀ f ∈ [(⟨"value", .param ⟨9⟩ 0⟩ : Field)], _)
  exact hfields.extend ⟨9⟩ (by decide) (admits_unary ⟨8⟩ (by decide) rfl
    (admits_unary ⟨1⟩ (by decide) rfl (.param (by decide) 0)))

/-- A child with an instance below a sealed type may be found to have none: `Boxed[int]` is
below `Base[Option[int]]`, but the parameter of `Boxed` is not read off. -/
theorem exists_missed_instance :
    ¬ ∀ (D : Declarations) (child parent : DataId) (as bs : List Ty), D.Reachable →
      (D.get parent).isSealed = true → child ∈ (D.get parent).children →
      as.length = (D.get child).arity → D.Below (.app child as) (.app parent bs) →
      ∃ inst, Settles (fun n => (D.within n).instantiateChild child (.app parent bs))
        (some inst) := by
  intro hall
  have hbelow : boxes.Below (.app ⟨9⟩ [.prim .int]) (.app ⟨8⟩ [.app ⟨0⟩ [.prim .int]]) :=
    below_of_isSubtype (H := boxes.within 8) rfl
  obtain ⟨inst, hinst⟩ := hall boxes ⟨9⟩ ⟨8⟩ _ _ boxes_reachable rfl (by decide) rfl hbelow
  have hmissed : Settles (fun n => (boxes.within n).instantiateChild ⟨9⟩
      (.app ⟨8⟩ [.app ⟨0⟩ [.prim .int]])) none :=
    Query.settles_of_refines (fun n => boxes.instantiateChild_refines n _ _) (n := 8) rfl
  exact nomatch hinst.unique hmissed

end Declarations

end CaseCover
