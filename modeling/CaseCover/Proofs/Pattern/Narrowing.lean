import CaseCover.Proofs.Hierarchy.JoinOrder
import CaseCover.Proofs.Pattern.Witnesses
import CaseCover.Proofs.Value.Views

/-!
Pattern types that stay below a type. What a deconstruction makes of types below those of its
fields is below an application with these fields: following an occurrence of a parameter leads
below its argument (`Inside.project`), so does widening where the argument is no literal type
(`Inside.widen`), and what is said about a parameter is joined below its argument unless the join
falls short (`Linear.inside_lubAll`). An ascription that is itself below the type narrows to
types below it (`Linear.inside_reproject`).
-/

namespace CaseCover

namespace Declarations

variable {D : Declarations}

/-- A type without unions is below another type. -/
structure Inside (D : Declarations) (u t : Ty) : Prop where
  unionFree : D.UnionFree u
  below : D.Below u t

namespace Inside

variable {u t : Ty}

theorem noType (t : Ty) : D.Inside .noType t := ⟨.noType, D.noType_below t⟩

theorem never (t : Ty) : D.Inside .never t := ⟨⟨.prim .never, rfl⟩, D.never_below t⟩

theorem trans (hD : D.Reachable) (hlinear : D.Linear) {s : Ty} (h : D.Inside u s)
    (hs : D.Plain s) (hst : D.Below s t) : D.Inside u t :=
  ⟨h.unionFree, hlinear.below_trans hD h.unionFree.admitted hs.admitted hs.constrained h.below hst⟩

/-- The built-in type of a literal is below what the literal is below, but for a literal type. -/
theorem widen (h : D.Inside u t) (ht : D.Plain t) (hwide : ∀ v, t ≠ .lit v) :
    D.Inside u.widen t := by
  refine ⟨h.unionFree.widen, ?_⟩
  cases u with
  | lit v =>
      cases h.below.comparison with
      | atOnce hat =>
          rcases hat with heq | heq | heq | heq | rfl
          · exact absurd heq.symm (hwide v)
          · cases heq
          · exact absurd heq ht.ne_noType
          · cases heq
          · exact D.below_any _
      | intoUnion _ _ _ => exact absurd rfl (ht.ne_union _ _)
      | literal _ hbase => exact hbase
  | prim _ | union _ _ | app _ _ | param _ _ => exact h.below

end Inside

/-- Only an application has a view. -/
theorem upcast_eq_none {t : Ty} (ht : ∀ d args, t ≠ .app d args) (target : DataId) :
    (D.upcast t target).value = none := by
  cases h : (D.upcast t target).value with
  | none => rfl
  | some up =>
      obtain ⟨⟨us, rfl⟩, hreach⟩ := D.upcast_sound h
      rcases hreach.cases_head with heq | ⟨_, ⟨d, args, heq, -⟩, -⟩
      · exact absurd heq (ht target us)
      · exact absurd heq (ht d args)

/-- Applications of one data type are below each other when their arguments are, position by
position. -/
theorem Linear.inside_app (hlinear : D.Linear) {d : DataId} {args others : List Ty}
    (hargs : D.Plain (.app d args)) (hlength : others.length = args.length)
    (h : ∀ (i : Nat) u t, others[i]? = some u → args[i]? = some t → D.Inside u t) :
    D.Inside (.app d others) (.app d args) := by
  have heach : List.Forall₂ D.Inside others args := by
    refine List.forall₂_iff_get.2 ⟨hlength, fun i hi hi' => ?_⟩
    exact h i others[i] args[i] (List.getElem?_eq_getElem hi) (List.getElem?_eq_getElem hi')
  refine ⟨hargs.unionFree.with_args hlength fun u hu => ?_, below_app_iff.2 ?_⟩
  · obtain ⟨t, -, hut⟩ := exists_related heach hu
    exact hut.unionFree
  · exact hlinear.conformsAll_of_forall₂ d (heach.imp fun _ _ hut => hut.below)

/-- What stands in a type below an instance of a declared type, where a parameter stands in that,
is below the argument for the parameter. -/
theorem Inside.project (hD : D.Reachable) (hlinear : D.Linear) {owner : DataId} {index : Nat}
    {path : List Nat} {t u : Ty} {args : List Ty} (hat : t.ParamAt owner index path)
    (hu : D.Inside u (t.substitute owner args)) :
    D.Inside (D.project u t path).value (args[index]?.getD .any) := by
  induction hat generalizing u with
  | here => simpa [Declarations.project, Ty.substitute] using hu
  | @arg g inner position t path ht _ ih =>
      rw [Ty.substitute_app] at hu
      unfold Declarations.project
      by_cases hopen : u = .noType
      · rw [if_pos hopen]
        exact .noType _
      rw [if_neg hopen]
      dsimp only
      rw [Traced.value_bind]
      cases hview : (D.upcast u g).value with
      | none => exact .noType _
      | some view =>
          obtain ⟨⟨us, rfl⟩, hup⟩ := D.upcast_sound hview
          dsimp only [Ty.args]
          rw [ht]
          cases hnext : us[position]? with
          | none => exact .noType _
          | some next =>
              refine ih ⟨(hu.unionFree.stepsUp hD hlinear hup).arg (List.mem_of_getElem? hnext), ?_⟩
              cases u with
              | app e es =>
                  have hlength := (hu.unionFree.stepsUp hD hlinear hup).admitted.length_args
                  have hposition : position < (D.get g).params.length := by
                    have hlt := (List.getElem?_eq_some_iff.1 hnext).1
                    rw [hlength] at hlt
                    exact hlt
                  have hsubstituted : (inner.map (Ty.substitute owner args))[position]? =
                      some (t.substitute owner args) := by
                    rw [List.getElem?_map, ht, Option.map_some]
                  have hconforms := (below_iff_of_view hview).1 hu.below position _ next _
                    (List.getElem?_eq_getElem hposition) hnext hsubstituted
                  refine hconforms.1 ?_
                  rw [hlinear.covariant g _ (List.getElem_mem hposition)]
                  decide
              | prim _ | lit _ | union _ _ | param _ _ =>
                  rw [upcast_eq_none (by simp)] at hview
                  cases hview

namespace Linear

variable {n : Nat} {t : Ty}

/-- A join that does not fall short stays below what all its types are below. -/
theorem inside_lubAll (hD : D.Reachable) (hlinear : D.Linear) {ts : List Ty} {r : Ty}
    (ht : D.Plain t) (hts : ∀ u ∈ ts, D.Inside u t)
    (hr : ((D.within n).lubAll ts).value? = some r) (hshort : ¬ (D.within n).FallsShort ts) :
    D.Inside r t :=
  ⟨hlinear.unionFree_lubAll hD (fun u hu => (hts u hu).unionFree) hr,
    hlinear.lubAll_least hD (fun u hu => (hts u hu).unionFree) hr hshort ht
      fun u hu => (hts u hu).below⟩

/-- Two applications of one data type below a plain type may be mixed argument by argument: what
is one of two types is below whatever both are below. -/
theorem inside_mixed (hlinear : D.Linear) (pick : Ty × Ty → Ty)
    (hpick : ∀ q, pick q = q.1 ∨ pick q = q.2) (ht : D.Plain t) {d : DataId} {as bs : List Ty}
    (ha : D.Inside (.app d as) t) (hb : D.Inside (.app d bs) t) :
    D.Inside (.app d ((as.zip bs).map pick)) t := by
  have hlength : as.length = bs.length :=
    ha.unionFree.admitted.length_args.trans hb.unionFree.admitted.length_args.symm
  refine ⟨ha.unionFree.with_args (by simp [hlength]) fun u hu => ?_, ?_⟩
  · obtain ⟨q, hq, rfl⟩ := List.mem_map.1 hu
    have hmem := List.of_mem_zip hq
    rcases hpick q with h | h
    · exact h.symm ▸ ha.unionFree.arg hmem.1
    · exact h.symm ▸ hb.unionFree.arg hmem.2
  · have hfits : (Junction.app d ((as.zip bs).map fun q => ⟨q.1, q.2, pick q⟩)).Fits D := by
      refine .app d fun j hj => .least fun c _ hleft hright => ?_
      obtain ⟨q, -, rfl⟩ := List.mem_map.1 hj
      rcases hpick q with h | h
      · exact h.symm ▸ hleft
      · exact h.symm ▸ hright
    have hbelow := hfits.isLeast hlinear t ht
    simp only [Junction.app, List.map_map, Function.comp_def, List.map_fst_zip hlength.le,
      List.map_snd_zip hlength.ge] at hbelow
    exact hbelow ha.below hb.below

/-- The narrower of two types below a plain type is below it. -/
theorem inside_narrower {inner ascribed r : Ty} {H : Hierarchy} (hinner : D.Inside inner t)
    (hascribed : D.Inside ascribed t)
    (hr : (Extractor.narrower H inner ascribed).value? = some r) : D.Inside r t := by
  obtain ⟨below, -, hr⟩ := Query.value?_bind_eq_some.1 hr
  cases below with
  | true => exact Option.some.inj hr ▸ hinner
  | false =>
      obtain ⟨above, -, hr⟩ := Query.value?_bind_eq_some.1 hr
      cases above with
      | true => exact Option.some.inj hr ▸ hascribed
      | false => exact Option.some.inj hr ▸ hinner

/-- A type below a plain type, narrowed by an ascription that is below it too, stays below it. -/
theorem inside_reproject (hD : D.Reachable) (hlinear : D.Linear) {inner ascribed r : Ty}
    (hinner : D.Inside inner t) (ht : D.Plain t) (hascribed : D.Plain ascribed)
    (hbelow : D.Below ascribed t)
    (hr : (Extractor.reproject (D.within n) inner ascribed).value? = some r) : D.Inside r t := by
  have hinside : D.Inside ascribed t := ⟨hascribed.unionFree, hbelow⟩
  unfold Extractor.reproject at hr
  split at hr
  · exact Option.some.inj hr ▸ hinside
  · rename_i d args e es
    split at hr
    · have hfilled : ∀ {bs}, D.Inside (.app d bs) t → D.Inside
          (.app d (args.zipWith (fun a b => if a = .noType then b else a) bs)) t := by
        intro bs hbs
        have hmixed := hlinear.inside_mixed (fun q => if q.1 = .noType then q.2 else q.1)
          (fun q => by split <;> simp) ht hinner hbs
        rwa [List.map_zip_eq_zipWith] at hmixed
      dsimp only at hr
      split at hr
      · rename_i hsame
        obtain rfl := Option.some.inj hr
        exact hfilled (hsame ▸ hinside)
      · obtain ⟨view?, hview, hr⟩ := Query.value?_bind_eq_some.1 hr
        cases view? with
        | none => exact Option.some.inj hr ▸ hinner
        | some view =>
            have hd : d.index < D.size := by
              cases hinner.unionFree.admitted with
              | app hd _ _ => exact hd
            obtain ⟨hplain, hinstance⟩ := hlinear.plain_instance hD hd hascribed hview
            obtain ⟨-, -, bs, -, rfl, -⟩ := instantiateChild_inversion hview
            obtain rfl := Option.some.inj hr
            exact hfilled (Inside.trans hD hlinear ⟨hplain.unionFree, hinstance⟩ hascribed hbelow)
    · exact inside_narrower hinner hinside hr
  · exact inside_narrower hinner hinside hr

end Linear

end Declarations

namespace Extractor

open Declarations (Inside occurrencesIn mem_alignment_iff mem_occurrencesIn_iff)

variable {E : Extractor} {d : DataId} {args : List Ty}

/-- What an occurrence says about a parameter is below its argument, if the types of the fields
are below those of the application. -/
theorem inside_of_aligned (hD : E.hierarchy.decls.Reachable) (hlinear : E.hierarchy.decls.Linear)
    {types : List Ty} {aligned : List (Nat × Ty)}
    (htypes : ∀ (i : Nat) f u, (E.hierarchy.decls.get d).fields[i]? = some f →
      occurrencesIn d f.ty ≠ [] → types[i]? = some u →
        E.hierarchy.decls.Inside u (f.ty.substitute d args))
    (haligned : (E.alignFields d (E.hierarchy.decls.alignment d) types).value? = some aligned) :
    ∀ a ∈ aligned, E.hierarchy.decls.Inside a.2 (args[a.1]?.getD .any) := by
  intro a ha
  obtain ⟨o, ho, hfound⟩ := Query.mem_of_value?_filterMap haligned ha
  obtain ⟨f, hf, hat⟩ := mem_alignment_iff.1 ho
  rw [hf] at hfound
  cases hu : types[o.field]? with
  | none =>
      rw [hu] at hfound
      cases Option.some.inj hfound
  | some u =>
      rw [hu] at hfound
      obtain rfl := Option.some.inj (Option.some.inj hfound)
      have hoccurs := List.ne_nil_of_mem (mem_occurrencesIn_iff.2 hat)
      exact Inside.project hD hlinear hat (htypes o.field f u hf hoccurs hu)

/-- The type of a product whose fields are matched below their types in a plain application, none
of whose arguments is a literal type, is below that application, unless a join falls short. -/
theorem inside_combineProduct (hD : E.hierarchy.decls.Reachable)
    (hlinear : E.hierarchy.decls.Linear) (hargs : E.hierarchy.decls.Plain (.app d args))
    (hwide : ∀ a ∈ args, ∀ v, a ≠ .lit v) {results : List (List PatternType)}
    (hresults : ∀ (i : Nat) f result, (E.hierarchy.decls.get d).fields[i]? = some f →
      occurrencesIn d f.ty ≠ [] → results[i]? = some result →
        E.hierarchy.decls.Plain (f.ty.substitute d args) ∧
          (∀ q ∈ result, E.hierarchy.decls.Inside q.ty (f.ty.substitute d args)) ∧
            ¬ E.hierarchy.FallsShort (result.map PatternType.ty))
    (hsaid : ∀ types aligned,
      (Query.each (fun r => E.hierarchy.lubAll (r.map PatternType.ty)) results).value? =
        some types →
      (E.alignFields d (E.hierarchy.decls.alignment d) types).value? = some aligned →
        ∀ param, ¬ E.hierarchy.FallsShort (said param (aligned.map fun a => (a.1, a.2.widen))))
    {r : PatternType}
    (hr : (E.combineProduct d (E.hierarchy.decls.alignment d) results).value? = some r) :
    E.hierarchy.decls.Inside r.ty (.app d args) := by
  obtain ⟨types, aligned, htypes, haligned, hty⟩ := type_of_combineProduct hr
  have heach := Query.forall₂_of_value?_each htypes
  have hentries : ∀ a ∈ aligned, E.hierarchy.decls.Inside a.2 (args[a.1]?.getD .any) := by
    refine inside_of_aligned hD hlinear (fun i f u hf hoccurs hu => ?_) haligned
    obtain ⟨hi, rfl⟩ := List.getElem?_eq_some_iff.1 hu
    have hi' : i < results.length := heach.length_eq ▸ hi
    obtain ⟨hplain, hinside, hshort⟩ :=
      hresults i f _ hf hoccurs (List.getElem?_eq_getElem hi')
    refine hlinear.inside_lubAll hD hplain (fun x hx => ?_) (heach.get hi' hi) hshort
    obtain ⟨q, hq, rfl⟩ := List.mem_map.1 hx
    exact hinside q hq
  obtain ⟨others, happ, hlength, hothers⟩ := arguments_of_said hty
  rw [happ]
  refine hlinear.inside_app hargs (hlength.trans hargs.admitted.length_args.symm)
    fun param u t hu ht => ?_
  rcases hothers param u hu with ⟨-, rfl⟩ | hjoin
  · exact .noType t
  · refine hlinear.inside_lubAll hD (hargs.arg (List.mem_of_getElem? ht)) (fun x hx => ?_) hjoin
      (hsaid types aligned htypes haligned param)
    obtain ⟨a, ha, heq⟩ := List.mem_map.1 (mem_said.1 hx)
    obtain ⟨rfl, rfl⟩ := Prod.mk.inj heq
    have hentry := hentries a ha
    rw [ht, Option.getD_some] at hentry
    exact hentry.widen (hargs.arg (List.mem_of_getElem? ht))
      (hwide t (List.mem_of_getElem? ht))

/-- The type of an extractor whose elements are matched below the element type of a plain
application, which is no literal type, is below that application, unless the join falls short. -/
theorem inside_combineExtractor (hD : E.hierarchy.decls.Reachable)
    (hlinear : E.hierarchy.decls.Linear) {element : Ty}
    (happ : E.hierarchy.decls.Plain (.app d [element])) (hwide : ∀ v, element ≠ .lit v)
    {results : List (List PatternType)}
    (hresults : ∀ q ∈ results.flatten, E.hierarchy.decls.Inside q.ty element)
    (hshort : ¬ E.hierarchy.FallsShort (results.flatten.map PatternType.ty)) {r : PatternType}
    (hr : (E.combineExtractor d results).value? = some r) :
    E.hierarchy.decls.Inside r.ty (.app d [element]) := by
  have hsingle : ∀ {u}, E.hierarchy.decls.Inside u element →
      E.hierarchy.decls.Inside (.app d [u]) (.app d [element]) := by
    intro u hu
    refine hlinear.inside_app happ rfl fun i x t hx ht => ?_
    cases i with
    | zero => exact Option.some.inj hx ▸ Option.some.inj ht ▸ hu
    | succ i => cases hx
  rcases type_of_combineExtractor hr with ⟨-, hty⟩ | ⟨-, joined, hjoined, hty⟩
  · rw [hty]
    exact hsingle (.never element)
  · rw [hty]
    have helement := happ.arg (List.mem_singleton_self _)
    refine hsingle ((hlinear.inside_lubAll hD helement (fun x hx => ?_) hjoined hshort).widen
      helement hwide)
    obtain ⟨q, hq, rfl⟩ := List.mem_map.1 hx
    exact hresults q hq

end Extractor

end CaseCover
