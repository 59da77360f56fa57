import CaseCover.Hierarchy.Children
import CaseCover.Proofs.Hierarchy.JoinCalls

/-!
The direct subtypes of a type, whatever the limit on nested questions. As a larger limit
never changes an answer (`directSubtypes_refines`), the subtypes that a hierarchy finds
within its limit are those of its declarations.
-/

namespace CaseCover

namespace Declarations

open Query (Settles Refines)

/-- The declarations as a hierarchy with a limit. -/
abbrev within (D : Declarations) (limit : Nat) : Hierarchy := ⟨D, limit⟩

theorem bindParamsList_refines {D : Declarations} {n : Nat} {owner : DataId}
    {ts : List Ty} (hts : ∀ t ∈ ts, ∀ actual bindings,
      Refines ((D.within n).bindParams owner t actual bindings)
        ((D.within (n + 1)).bindParams owner t actual bindings))
    (actuals : List Ty) (bindings : List (Option Ty)) :
    Refines ((D.within n).bindParamsList owner ts actuals bindings)
      ((D.within (n + 1)).bindParamsList owner ts actuals bindings) := by
  induction ts generalizing actuals bindings with
  | nil => exact .rfl
  | cons t ts ih =>
      cases actuals with
      | nil => exact .rfl
      | cons actual actuals =>
          have head := hts t List.mem_cons_self actual bindings
          refine head.bind fun known => ih (fun u hu => ?_) actuals known
          exact hts u (List.mem_cons_of_mem t hu)

theorem bindParams_refines (D : Declarations) (n : Nat) (owner : DataId) (t actual : Ty)
    (bindings : List (Option Ty)) :
    Refines ((D.within n).bindParams owner t actual bindings)
      ((D.within (n + 1)).bindParams owner t actual bindings) := by
  induction t generalizing actual bindings with
  | prim p => cases actual <;> exact .rfl
  | lit v => cases actual <;> exact .rfl
  | union a b _ _ => cases actual <;> exact .rfl
  | param o i =>
      rw [Hierarchy.bindParams, Hierarchy.bindParams]
      split
      · split
        · exact .rfl
        · exact .rfl
        · exact (D.lubWithin_refines n _ _).bind fun _ => .rfl
      · exact .rfl
  | app d args ih =>
      cases actual with
      | app e actuals =>
          rw [Hierarchy.bindParams, Hierarchy.bindParams]
          split
          · exact bindParamsList_refines ih actuals bindings
          · exact .rfl
      | prim p => exact .rfl
      | lit v => exact .rfl
      | union x y => exact .rfl
      | param o i => exact .rfl

theorem instantiateChild_refines (D : Declarations) (n : Nat) (child : DataId)
    (target : Ty) :
    Refines ((D.within n).instantiateChild child target)
      ((D.within (n + 1)).instantiateChild child target) := by
  cases target with
  | app parent actuals =>
      rw [Hierarchy.instantiateChild, Hierarchy.instantiateChild]
      by_cases harity : (D.get child).arity = 0
      · rw [if_pos harity, if_pos harity]
        refine Refines.bind .rfl fun args => ?_
        cases args with
        | none => exact .rfl
        | some args =>
            refine Refines.bind .rfl fun candidate => ?_
            exact (D.subtypeWithin_refines n _ _).bind fun _ => .rfl
      · rw [if_neg harity, if_neg harity]
        refine Refines.bind .rfl fun generic => Refines.bind .rfl fun view => ?_
        cases view with
        | none => exact .rfl
        | some view =>
            refine Refines.bind ?_ fun bindings => Refines.bind .rfl fun args => ?_
            · exact bindParamsList_refines
                (fun t _ => D.bindParams_refines n child t) actuals _
            cases args with
            | none => exact .rfl
            | some args =>
                refine Refines.bind .rfl fun candidate => ?_
                exact (D.subtypeWithin_refines n _ _).bind fun _ => .rfl
  | prim p => exact .rfl
  | lit v => exact .rfl
  | union x y => exact .rfl
  | param o i => exact .rfl

/-- A larger limit never changes the direct subtypes. -/
theorem directSubtypes_refines (D : Declarations) (n : Nat) (t : Ty) :
    Refines ((D.within n).directSubtypes t) ((D.within (n + 1)).directSubtypes t) := by
  cases t with
  | app d args =>
      rw [Hierarchy.directSubtypes, Hierarchy.directSubtypes]
      split
      · exact Query.filterMap_refines
          (fun child => D.instantiateChild_refines n child (.app d args)) _
      · exact .rfl
  | prim p => cases p <;> exact .rfl
  | lit v => exact .rfl
  | union x y => exact .rfl
  | param o i => exact .rfl

/-- The direct subtypes of a type are those of the list. -/
def DirectSubtypes (D : Declarations) (t : Ty) (subtypes : List Ty) : Prop :=
  Settles (fun n => (D.within n).directSubtypes t) subtypes

/-- What a hierarchy finds are the direct subtypes. -/
theorem directSubtypes_of_value? {H : Hierarchy} {t : Ty} {found : List Ty}
    (hfound : (H.directSubtypes t).value? = some found) : H.decls.DirectSubtypes t found :=
  Query.settles_of_refines (fun n => H.decls.directSubtypes_refines n t) hfound

theorem below_of_isSubtype {H : Hierarchy} {a b : Ty}
    (hab : (H.isSubtype a b).value? = some true) : H.decls.Below a b :=
  (below_iff_of_isSubtype hab).2 rfl

/-- Only `bool`, unions and sealed types have direct subtypes. -/
theorem DirectSubtypes.cases {D : Declarations} {t : Ty} {subtypes : List Ty}
    (ht : D.DirectSubtypes t subtypes) (hne : subtypes ≠ []) :
    t = .prim .bool ∨ (∃ a b, t = .union a b) ∨
      ∃ d args, t = .app d args ∧ (D.get d).isSealed = true := by
  obtain ⟨limit, hlimit⟩ := ht
  have hanswer : ((D.within limit).directSubtypes t).value? = some subtypes :=
    hlimit limit (Nat.le_refl limit)
  have childless : some [] = some subtypes → False := fun h => hne (Option.some.inj h).symm
  cases t with
  | prim p =>
      cases p with
      | bool => exact .inl rfl
      | _ => exact (childless hanswer).elim
  | lit v => exact (childless hanswer).elim
  | param o i => exact (childless hanswer).elim
  | union a b => exact .inr (.inl ⟨a, b, rfl⟩)
  | app d args =>
      by_cases hsealed : (D.get d).isSealed = true
      · exact .inr (.inr ⟨d, args, rfl, hsealed⟩)
      · rw [Hierarchy.directSubtypes, if_neg hsealed] at hanswer
        exact (childless hanswer).elim

theorem DirectSubtypes.eq_nil {D : Declarations} {t : Ty} {subtypes : List Ty}
    (ht : D.DirectSubtypes t subtypes) (hbool : t ≠ .prim .bool)
    (hunion : ∀ a b, t ≠ .union a b)
    (hsealed : ∀ d args, t = .app d args → (D.get d).isSealed = false) : subtypes = [] := by
  by_contra hne
  rcases ht.cases hne with h | ⟨a, b, h⟩ | ⟨d, args, h, hd⟩
  · exact hbool h
  · exact hunion a b h
  · rw [hsealed d args h] at hd
    exact Bool.false_ne_true hd

section Members

variable {D : Declarations}

/-- An instance of a child is below the target, and its arguments are what the parameters of the
child were bound to, if it has any. -/
theorem instantiateChild_inversion {H : Hierarchy} {child : DataId} {target s : Ty}
    (hs : (H.instantiateChild child target).value? = some (some s)) :
    ∃ parent actuals cs, target = .app parent actuals ∧ s = .app child cs ∧
      (H.isSubtype s target).value? = some true ∧
      ((H.decls.get child).arity = 0 ∧ cs = [] ∨ ∃ inner bindings,
        (H.bindParamsList child inner actuals
          (List.replicate (H.decls.get child).arity none)).value? = some bindings ∧
        cs = bindings.map (·.getD .any)) := by
  cases target with
  | app parent actuals =>
      have hcandidate : ∀ args : List Ty, (do
            let candidate ← Query.build (.app child args)
            return if ← H.isSubtype candidate (.app parent actuals) then some candidate
              else none : Query (Option Ty)).value? = some (some s) →
          s = .app child args ∧ (H.isSubtype s (.app parent actuals)).value? = some true := by
        intro args hs
        obtain ⟨candidate, hcandidate, hs⟩ := Query.value?_bind_eq_some.1 hs
        obtain ⟨below, hbelow, hs⟩ := Query.value?_bind_eq_some.1 hs
        cases below with
        | false => cases Option.some.inj hs
        | true =>
            obtain rfl : candidate = s := Option.some.inj (Option.some.inj hs)
            exact ⟨(Option.some.inj hcandidate).symm, hbelow⟩
      rw [Hierarchy.instantiateChild] at hs
      by_cases harity : (H.decls.get child).arity = 0
      · rw [if_pos harity] at hs
        obtain ⟨found, hfound, hs⟩ := Query.value?_bind_eq_some.1 hs
        obtain rfl := Option.some.inj hfound
        obtain ⟨happ, hbelow⟩ := hcandidate [] hs
        exact ⟨parent, actuals, [], rfl, happ, hbelow, .inl ⟨harity, rfl⟩⟩
      · rw [if_neg harity] at hs
        obtain ⟨generic, -, hs⟩ := Query.value?_bind_eq_some.1 hs
        obtain ⟨view?, -, hs⟩ := Query.value?_bind_eq_some.1 hs
        cases view? with
        | none => cases Option.some.inj hs
        | some view =>
            obtain ⟨bindings, hbindings, hs⟩ := Query.value?_bind_eq_some.1 hs
            obtain ⟨found, hfound, hs⟩ := Query.value?_bind_eq_some.1 hs
            obtain rfl := Option.some.inj hfound
            obtain ⟨happ, hbelow⟩ := hcandidate _ hs
            refine ⟨parent, actuals, _, rfl, happ, hbelow, .inr ?_⟩
            exact ⟨view.args, bindings, hbindings, rfl⟩
  | prim _ | lit _ | union _ _ | param _ _ => cases Option.some.inj hs

/-- The direct subtypes of an application are applications of its children. -/
theorem child_of_directSubtype {d : DataId} {args subtypes : List Ty}
    (h : D.DirectSubtypes (.app d args) subtypes) {s : Ty} (hs : s ∈ subtypes) :
    ∃ c cs, s = .app c cs ∧ c ∈ (D.get d).children := by
  obtain ⟨limit, hlimit⟩ := h
  have hanswer : ((D.within limit).directSubtypes (.app d args)).value? = some subtypes :=
    hlimit limit (Nat.le_refl limit)
  unfold Hierarchy.directSubtypes at hanswer
  dsimp only at hanswer
  split at hanswer
  · obtain ⟨c, hc, hinstance⟩ := Query.mem_of_value?_filterMap hanswer hs
    obtain ⟨-, -, cs, -, rfl, -⟩ := instantiateChild_inversion hinstance
    exact ⟨c, cs, rfl, hc⟩
  · obtain rfl : [] = subtypes := Option.some.inj hanswer
    exact absurd hs List.not_mem_nil

theorem not_union_of_mem_leaves {t s : Ty} (hs : s ∈ t.leaves) (a b : Ty) : s ≠ .union a b := by
  induction t with
  | union x y ihx ihy =>
      rcases List.mem_append.1 hs with hs | hs
      · exact ihx hs
      · exact ihy hs
  | prim p => simp [List.mem_singleton.1 hs]
  | lit v => simp [List.mem_singleton.1 hs]
  | app d args _ => simp [List.mem_singleton.1 hs]
  | param o i => simp [List.mem_singleton.1 hs]

/-- No direct subtype is a union. -/
theorem directSubtype_ne_union {t : Ty} {subtypes : List Ty} (h : D.DirectSubtypes t subtypes)
    {s : Ty} (hs : s ∈ subtypes) (a b : Ty) : s ≠ .union a b := by
  have hunique : ∀ {found : List Ty}, (∀ n, ((D.within n).directSubtypes t).value? =
      some found) → s ∈ found := by
    intro found hfound
    rw [← h.unique (Query.settles_of_value? hfound)]
    exact hs
  rcases h.cases (List.ne_nil_of_mem hs) with rfl | ⟨x, y, rfl⟩ | ⟨d, args, rfl, -⟩
  · have hmem : s ∈ [Ty.ofLiteral (.bool true), Ty.ofLiteral (.bool false)] :=
      hunique fun n => rfl
    rintro rfl
    simp [Ty.ofLiteral] at hmem
  · have hmem : s ∈ (Ty.union x y).members := hunique fun n => rfl
    rw [Ty.members, List.mem_eraseDups] at hmem
    exact not_union_of_mem_leaves hmem a b
  · obtain ⟨c, cs, rfl, -⟩ := child_of_directSubtype h hs
    simp

theorem bool_of_directSubtype {subtypes : List Ty} (h : D.DirectSubtypes (.prim .bool) subtypes)
    {s : Ty} (hs : s ∈ subtypes) : ∃ b, s = .lit (.bool b) := by
  rw [h.unique (Query.settles_of_value? fun n => rfl)] at hs
  simpa [Ty.ofLiteral, or_comm] using hs

end Members

end Declarations

end CaseCover
