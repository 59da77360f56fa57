import CaseCover.Proofs.Hierarchy.JoinBounds
import CaseCover.Proofs.Value.Shapes

/-!
The types at which a value is viewed. Where subtyping chains, they are below the type of the
value, and as plain as it is (`Linear.of_mem_views`): a direct subtype of a plain type is below
it, and the arguments of an instance of a child come out of the arguments of the type that was
asked about.
-/

namespace CaseCover

namespace Declarations

variable {D : Declarations}

/-- One binding for each of some parameters, to a plain type where there is one. -/
structure PlainBindings (D : Declarations) (arity : Nat) (bindings : List (Option Ty)) : Prop where
  length_eq : bindings.length = arity
  plain : ∀ t, some t ∈ bindings → D.Plain t

theorem PlainBindings.none (D : Declarations) (arity : Nat) :
    D.PlainBindings arity (List.replicate arity none) where
  length_eq := List.length_replicate
  plain := fun _ ht => nomatch (List.mem_replicate.1 ht).2

theorem PlainBindings.set {arity : Nat} {bindings : List (Option Ty)}
    (h : D.PlainBindings arity bindings) (i : Nat) {t : Ty} (ht : D.Plain t) :
    D.PlainBindings arity (bindings.set i (some t)) where
  length_eq := by rw [List.length_set, h.length_eq]
  plain := by
    intro u hu
    rcases List.mem_or_eq_of_mem_set hu with hu | hu
    · exact h.plain u hu
    · exact Option.some.inj hu ▸ ht

/-- What stays open becomes `any`. -/
theorem PlainBindings.getD_any {arity : Nat} {bindings : List (Option Ty)}
    (h : D.PlainBindings arity bindings) : ∀ t ∈ bindings.map (·.getD .any), D.Plain t := by
  intro t ht
  obtain ⟨b, hb, rfl⟩ := List.mem_map.1 ht
  cases b with
  | none => exact .any
  | some u => exact h.plain u hb

namespace Linear

variable {n arity : Nat} {owner : DataId}

theorem plainBindings_bindParamsList {ts actuals : List Ty} {before after : List (Option Ty)}
    (hts : ∀ t ∈ ts, ∀ {actual before after}, D.Plain actual → D.PlainBindings arity before →
      ((D.within n).bindParams owner t actual before).value? = some after →
        D.PlainBindings arity after)
    (hactuals : ∀ a ∈ actuals, D.Plain a) (hbefore : D.PlainBindings arity before)
    (h : ((D.within n).bindParamsList owner ts actuals before).value? = some after) :
    D.PlainBindings arity after := by
  induction ts generalizing actuals before with
  | nil =>
      obtain rfl := Option.some.inj h
      exact hbefore
  | cons t ts ih =>
      cases actuals with
      | nil =>
          obtain rfl := Option.some.inj h
          exact hbefore
      | cons actual actuals =>
          obtain ⟨known, hknown, hrest⟩ := Query.value?_bind_eq_some.1 h
          refine ih (fun u hu => hts u (List.mem_cons_of_mem t hu))
            (fun a ha => hactuals a (List.mem_cons_of_mem actual ha)) ?_ hrest
          exact hts t List.mem_cons_self (hactuals actual List.mem_cons_self) hbefore hknown

/-- Parameters that meet plain types are bound to plain types. -/
theorem plainBindings_bindParams (hD : D.Reachable) (hlinear : D.Linear) {t actual : Ty}
    {before after : List (Option Ty)} (hactual : D.Plain actual)
    (hbefore : D.PlainBindings arity before)
    (h : ((D.within n).bindParams owner t actual before).value? = some after) :
    D.PlainBindings arity after := by
  induction t generalizing actual before after with
  | param o i =>
      rw [Hierarchy.bindParams] at h
      split at h
      · split at h
        · obtain rfl := Option.some.inj h
          exact hbefore
        · obtain rfl := Option.some.inj h
          exact hbefore.set i hactual
        · rename_i known hknown
          obtain ⟨joined, hjoined, h⟩ := Query.value?_bind_eq_some.1 h
          obtain rfl := Option.some.inj h
          have hplain := hbefore.plain known (List.mem_of_getElem? hknown)
          exact hbefore.set i (hlinear.join_above hD hplain hactual hjoined).1
      · obtain rfl := Option.some.inj h
        exact hbefore
  | app d args ih =>
      cases actual with
      | app e actuals =>
          rw [Hierarchy.bindParams] at h
          split at h
          · exact plainBindings_bindParamsList (fun t ht => ih t ht) (fun a ha => hactual.arg ha)
              hbefore h
          · obtain rfl := Option.some.inj h
            exact hbefore
      | prim _ | lit _ | union _ _ | param _ _ =>
          obtain rfl := Option.some.inj h
          exact hbefore
  | prim _ | lit _ | union _ _ _ _ =>
      cases actual <;>
        (obtain rfl := Option.some.inj h
         exact hbefore)

/-- An instance of a declared child of a plain type is plain and below it. -/
theorem plain_instance (hD : D.Reachable) (hlinear : D.Linear) {child : DataId} {target s : Ty}
    (hchild : child.index < D.size) (htarget : D.Plain target)
    (hs : ((D.within n).instantiateChild child target).value? = some (some s)) :
    D.Plain s ∧ D.Below s target := by
  obtain ⟨parent, actuals, cs, rfl, rfl, hbelow, hcs⟩ := instantiateChild_inversion hs
  refine ⟨?_, below_of_isSubtype hbelow⟩
  have hargs : cs.length = (D.get child).arity ∧ ∀ c ∈ cs, D.Plain c := by
    rcases hcs with ⟨harity, rfl⟩ | ⟨inner, bindings, hbindings, rfl⟩
    · exact ⟨harity.symm, by simp⟩
    · have hplain := plainBindings_bindParamsList
        (fun t _ {_ _ _} => hlinear.plainBindings_bindParams hD) (fun a ha => htarget.arg ha)
        (.none D (D.get child).arity) hbindings
      exact ⟨by rw [List.length_map, hplain.length_eq], hplain.getD_any⟩
  refine ⟨.app hchild hargs.1 fun c hc => (hargs.2 c hc).admitted, ?_, ?_⟩
  · rw [Ty.hasUnion_app, List.any_eq_false]
    exact fun c hc => Bool.eq_false_iff.1 (hargs.2 c hc).union_free
  · rw [Ty.hasNoType_app, List.any_eq_false]
    exact fun c hc => Bool.eq_false_iff.1 (hargs.2 c hc).constrained

/-- The direct subtypes of a plain type are plain and below it. -/
theorem plain_directSubtype (hD : D.Reachable) (hlinear : D.Linear) {t s : Ty}
    {subtypes : List Ty} (ht : D.Plain t) (hsubtypes : D.DirectSubtypes t subtypes)
    (hs : s ∈ subtypes) : D.Plain s ∧ D.Below s t := by
  rcases hsubtypes.cases (List.ne_nil_of_mem hs) with rfl | ⟨a, b, rfl⟩ | ⟨d, args, rfl, -⟩
  · obtain ⟨b, rfl⟩ := bool_of_directSubtype hsubtypes hs
    exact ⟨⟨.lit _, rfl, rfl⟩, D.below_base (.bool b)⟩
  · exact absurd rfl (ht.ne_union a b)
  · obtain ⟨limit, hlimit⟩ := hsubtypes
    have hanswer : ((D.within limit).directSubtypes (.app d args)).value? = some subtypes :=
      hlimit limit (Nat.le_refl limit)
    unfold Hierarchy.directSubtypes at hanswer
    dsimp only at hanswer
    split at hanswer
    · obtain ⟨c, hc, hinstance⟩ := Query.mem_of_value?_filterMap hanswer hs
      obtain ⟨p, hp, -⟩ := inherits_of_child hD d c hc
      exact hlinear.plain_instance hD (lt_size_of_mem_parents hp) ht hinstance
    · obtain rfl : [] = subtypes := Option.some.inj hanswer
      exact absurd hs List.not_mem_nil

/-- A value of a plain type is viewed at plain types below it only. -/
theorem of_mem_views (hD : D.Reachable) (hlinear : D.Linear) {u v : Value} (hv : D.IsValue v)
    (hplain : D.Plain v.ty) (hu : u ∈ v.views) :
    D.IsValue u ∧ D.Plain u.ty ∧ D.Below u.ty v.ty := by
  induction hv with
  | @viewed t subtypes inner hsubtypes hmem hinner ih =>
      rcases List.mem_cons.1 hu with rfl | hu
      · exact ⟨.viewed hsubtypes hmem hinner, hplain, D.below_self t⟩
      · obtain ⟨hsub, hbelow⟩ := hlinear.plain_directSubtype hD hplain hsubtypes hmem
        obtain ⟨hvalue, huplain, huinner⟩ := ih hsub hu
        exact ⟨hvalue, huplain, hlinear.below_trans hD huplain.admitted hsub.admitted
          hsub.constrained huinner hbelow⟩
  | tuple hkind htypes hparts =>
      rw [List.mem_singleton.1 hu]
      exact ⟨.tuple hkind htypes hparts, hplain, D.below_self _⟩
  | sequence hkind htypes helements =>
      rw [List.mem_singleton.1 hu]
      exact ⟨.sequence hkind htypes helements, hplain, D.below_self _⟩
  | single ht =>
      rw [List.mem_singleton.1 hu]
      exact ⟨.single ht, hplain, D.below_self _⟩
  | atom ht =>
      rw [List.mem_singleton.1 hu]
      exact ⟨.atom ht, hplain, D.below_self _⟩

end Linear

end Declarations

end CaseCover
