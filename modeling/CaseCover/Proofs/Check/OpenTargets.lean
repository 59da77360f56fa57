import CaseCover.Analysis.Session
import CaseCover.Proofs.Check.RowOrder
import CaseCover.Proofs.Decl.Admitted
import CaseCover.Proofs.Pattern.Alternatives
import CaseCover.Proofs.Pattern.Witnesses

/-!
What a pattern that covers an open type has said about it. The check asks one pattern type whether
the open type is below all of its witnesses, and the witnesses have forgotten what they cannot say:
a pattern vouches for the type (`Extractor.Vouches`) through names, alternations, ascriptions and
the parts whose fields have a parameter of their own (`vouches_of_yields`). Where every part is such
a part and no argument is a narrow type, of which a literal may be all, the pattern is irrefutable
at the type (`Vouches.irrefutable`); where a part is not, it may be a literal
(`exists_refutable_cover`).
-/

namespace CaseCover

/-- An answered test of all elements is passed by each of them. -/
theorem Query.passes_of_all {α : Type} {p : α → Query Bool} {as : List α}
    (h : (all p as).value? = some true) : ∀ a ∈ as, (p a).value? = some true := by
  induction as with
  | nil => simp
  | cons a as ih =>
      obtain ⟨b, hb, hrest, hfalse⟩ := value?_both_eq_some h
      cases b with
      | false => cases hfalse rfl
      | true => exact List.forall_mem_cons.2 ⟨hb, ih (hrest rfl)⟩

/-- A pattern that matches every value of a type, as far as its syntax and declared fields tell. -/
inductive Declarations.Irrefutable (D : Declarations) : Pattern → Ty → Prop
  | wildcard (n : PatternNode) (t : Ty) : D.Irrefutable (.wildcard n) t
  | binding (n : PatternNode) (x : String) (t : Ty) : D.Irrefutable (.binding n x) t
  | named {n : PatternNode} {x : String} {p : Pattern} {t : Ty} (h : D.Irrefutable p t) :
      D.Irrefutable (.named n x p) t
  | branch {n : PatternNode} {branches : List Pattern} {p : Pattern} {t : Ty} (hp : p ∈ branches)
      (h : D.Irrefutable p t) : D.Irrefutable (.alternation n branches) t
  | typed {n : PatternNode} {p : Pattern} {s t : Ty} (ht : D.Below t s) (h : D.Irrefutable p t) :
      D.Irrefutable (.typed n p s) t
  | variant {n : PatternNode} {d e : DataId} {parts : List Pattern} {as us : List Ty}
      (hup : (D.upcast (.app e as) d).value = some (.app d us))
      (hparts : ∀ (field : Nat) f part, (D.get d).fields[field]? = some f →
        parts[field]? = some part → D.Irrefutable part (f.ty.substitute d us)) :
      D.Irrefutable (.variant n d parts) (.app e as)

/-- A type of which a pattern can match all values without being irrefutable: it has at most one
value, is a union, or is unconstrained. -/
def Ty.isNarrow : Ty → Bool
  | .prim p => p == .never || p == .noType || p == .unit
  | .lit _ | .union _ _ => true
  | .app _ _ | .param _ _ => false

/-- A type, the arguments of its supertypes, and what these expose in turn. -/
inductive Declarations.Exposes (D : Declarations) : Ty → Ty → Prop
  | self (t : Ty) : D.Exposes t t
  | arg {d e : DataId} {as us : List Ty} {u w : Ty}
      (hup : (D.upcast (.app e as) d).value = some (.app d us)) (hu : u ∈ us)
      (hw : D.Exposes u w) : D.Exposes (.app e as) w

/-- A type that exposes no narrow type. -/
def Declarations.Broad (D : Declarations) (t : Ty) : Prop := ∀ u, D.Exposes t u → u.isNarrow = false

namespace Extractor

open Declarations (Comparison below_iff_of_view exists_view_of_below)

/-- Whatever the parts yield, there are not too many choices to list a witness for each. -/
def ListsChoices (E : Extractor) (parts : List Pattern) : Prop :=
  ∀ results, List.Forall₂ E.Yields parts results →
    choiceCount (results.map proofs) ≤ max 1 E.maxWitnesses

/-- All witnesses of a pattern are supertypes of a type. What is asked of a deconstruction's parts
is only what its witnesses keep: nothing when there are too many choices, and nothing of a field
that shares its parameter, has none, or stands in a contravariant one. The parts of a sequence are
joined, so nothing is asked of them. -/
inductive Vouches (E : Extractor) : Pattern → Ty → Prop
  | wildcard (n : PatternNode) (t : Ty) : E.Vouches (.wildcard n) t
  | binding (n : PatternNode) (x : String) (t : Ty) : E.Vouches (.binding n x) t
  | rest (n : PatternNode) (t : Ty) : E.Vouches (.rest n) t
  | named {n : PatternNode} {x : String} {p : Pattern} {t : Ty} (h : E.Vouches p t) :
      E.Vouches (.named n x p) t
  | branch {n : PatternNode} {branches : List Pattern} {p : Pattern} {t : Ty} (hp : p ∈ branches)
      (h : E.Vouches p t) : E.Vouches (.alternation n branches) t
  | typed {n : PatternNode} {p : Pattern} {s t : Ty} (ht : E.hierarchy.decls.Below t s)
      (h : ¬ p.OnlyAscribes → E.Vouches p t) : E.Vouches (.typed n p s) t
  | variant {n : PatternNode} {d e : DataId} {parts : List Pattern} {as us : List Ty}
      (hup : (E.hierarchy.decls.upcast (.app e as) d).value = some (.app d us))
      (hparts : E.ListsChoices parts → ∀ (field param : Nat) part u,
        E.hierarchy.decls.Reflects d field param → parts[field]? = some part →
          us[param]? = some u → E.Vouches part u) :
      E.Vouches (.variant n d parts) (.app e as)
  | extractor {n : PatternNode} {d e : DataId} {parts : List Pattern} {as us : List Ty}
      (hup : (E.hierarchy.decls.upcast (.app e as) d).value = some (.app d us)) :
      E.Vouches (.extractor n d parts) (.app e as)
  | literal {n : PatternNode} {v : Literal} {t : Ty}
      (ht : E.hierarchy.decls.Below t (.ofLiteral v)) : E.Vouches (.literal n v) t
  | union {p : Pattern} {a b : Ty} (ha : E.Vouches p a) (hb : E.Vouches p b) :
      E.Vouches p (.union a b)
  | never (p : Pattern) : E.Vouches p .never
  | unconstrained (p : Pattern) : E.Vouches p .noType

/-- A pattern all of which its witnesses keep: there are no sequences in it, every field that it
takes apart has a parameter of its own, and no ascription stands right under another. -/
inductive Transparent (E : Extractor) : Pattern → Prop
  | wildcard (n : PatternNode) : E.Transparent (.wildcard n)
  | binding (n : PatternNode) (x : String) : E.Transparent (.binding n x)
  | literal (n : PatternNode) (v : Literal) : E.Transparent (.literal n v)
  | named {n : PatternNode} {x : String} {p : Pattern} (h : E.Transparent p) :
      E.Transparent (.named n x p)
  | alternation {n : PatternNode} {branches : List Pattern}
      (h : ∀ p ∈ branches, E.Transparent p) : E.Transparent (.alternation n branches)
  | typed {n : PatternNode} {p : Pattern} {s : Ty} (hp : ¬ p.OnlyAscribes)
      (h : E.Transparent p) : E.Transparent (.typed n p s)
  | variant {n : PatternNode} {d : DataId} {parts : List Pattern} (hlists : E.ListsChoices parts)
      (hreflects : ∀ field < parts.length, ∃ param, E.hierarchy.decls.Reflects d field param)
      (hparts : ∀ p ∈ parts, E.Transparent p) : E.Transparent (.variant n d parts)

variable {E : Extractor} {t : Ty}

/-- Only an application of a descendant is below the applications of a data type, apart from
unions of such types and what is below everything. -/
theorem vouches_of_applications {p : Pattern} {d : DataId} {ws : List Ty} (hne : ws ≠ [])
    (hws : ∀ w ∈ ws, ∃ args, w = .app d args)
    (hview : ∀ e as us, (E.hierarchy.decls.upcast (.app e as) d).value = some (.app d us) →
      (∀ w ∈ ws, E.hierarchy.decls.Below (.app e as) w) → E.Vouches p (.app e as))
    (ht : ∀ w ∈ ws, E.hierarchy.decls.Below t w) : E.Vouches p t := by
  obtain ⟨w, hw⟩ := List.exists_mem_of_ne_nil ws hne
  obtain ⟨args, rfl⟩ := hws w hw
  induction t with
  | prim q =>
      cases (ht _ hw).comparison with
      | atOnce hat =>
          rcases hat with heq | hq | heq | hq | heq
          · cases heq
          · exact hq ▸ .unconstrained p
          · cases heq
          · exact hq ▸ .never p
          · cases heq
  | lit v => exact absurd (ht _ hw) Declarations.not_below_app_of_lit
  | param o i =>
      cases (ht _ hw).comparison with
      | atOnce hat => simp [Declarations.HoldsAtOnce] at hat
  | app e as =>
      obtain ⟨us, hup⟩ := exists_view_of_below (ht _ hw)
      exact hview e as us hup ht
  | union a b iha ihb =>
      have hsides : ∀ v ∈ ws, E.hierarchy.decls.Below a v ∧ E.hierarchy.decls.Below b v := by
        intro v hv
        obtain ⟨args, rfl⟩ := hws v hv
        cases (ht _ hv).comparison with
        | atOnce hat => simp [Declarations.HoldsAtOnce] at hat
        | union ha hb => exact ⟨ha, hb⟩
      exact .union (iha fun v hv => (hsides v hv).1) (ihb fun v hv => (hsides v hv).2)

/-- Below all witnesses of a product is below all witnesses of a part, at the parameter that only
the part's field has. -/
theorem below_proofs_of_product {d e : DataId} {results : List (List PatternType)}
    {r : PatternType}
    (hr : (E.combineProduct d (E.hierarchy.decls.alignment d) results).value? = some r)
    (hne : ∀ options ∈ results.map proofs, options ≠ [])
    (hcount : choiceCount (results.map proofs) ≤ max 1 E.maxWitnesses) {as us : List Ty}
    (hup : (E.hierarchy.decls.upcast (.app e as) d).value = some (.app d us))
    (hbelow : ∀ w ∈ r.proofs, E.hierarchy.decls.Below (.app e as) w) {field param : Nat}
    (hreflects : E.hierarchy.decls.Reflects d field param) {result : List PatternType}
    (hresult : results[field]? = some result) {u : Ty} (hu : us[param]? = some u) :
    ∀ w ∈ proofs result, E.hierarchy.decls.Below u w := by
  intro w hw
  have hoptions : (results.map proofs)[field]? = some (proofs result) := by
    rw [List.getElem?_map, hresult, Option.map_some]
  obtain ⟨choice, hchoice, hget⟩ := exists_choice hne hoptions hw
  rcases (combineProduct_inversion hr).2 with ⟨hmany, -⟩ | hlisted
  · exact absurd hcount hmany
  obtain ⟨whole, hwhole, aligned, haligned, happlied⟩ := hlisted choice hchoice
  obtain ⟨args, rfl, harg⟩ := argument_of_choice hreflects hget haligned happlied
  have hconforms := (below_iff_of_view hup).1
    (hbelow _ (PatternType.mem_proofs_of_mem_witnesses hwhole))
  obtain ⟨q, hq, hkept⟩ := hreflects.kept
  exact (hconforms param q u w hq hu harg).1 hkept

theorem vouches_of_isCatchAll {p : Pattern} (hp : p.isCatchAll = true) (t : Ty) :
    E.Vouches p t := by
  induction p with
  | wildcard n => exact .wildcard n t
  | binding n x => exact .binding n x t
  | named n x p ih => exact .named (ih hp)
  | typed _ _ _ | literal _ _ | variant _ _ _ | extractor _ _ _ | rest _ | alternation _ _ =>
      cases hp

/-- A pattern vouches for every type that is below the witnesses of a pattern type of it. -/
theorem vouches_of_yields {p : Pattern} {found : List PatternType} (h : E.Yields p found)
    {r : PatternType} (hr : r ∈ found)
    (ht : ∀ w ∈ r.proofs, E.hierarchy.decls.Below t w) : E.Vouches p t := by
  induction p generalizing found r t with
  | wildcard n => exact .wildcard n t
  | binding n x => exact .binding n x t
  | rest n => exact .rest n t
  | named n x p ih =>
      rw [Yields, evaluate] at h
      exact .named (ih h hr ht)
  | literal n v =>
      rw [h.literal] at hr
      obtain rfl := List.mem_singleton.1 hr
      exact .literal (ht _ (List.mem_singleton_self _))
  | alternation n branches ih =>
      obtain ⟨-, results, hresults, rfl⟩ := h.alternation
      obtain ⟨result, hresult, hr⟩ := List.mem_flatten.1 hr
      obtain ⟨p, hp, hyields⟩ := exists_related_to hresults hresult
      exact .branch hp (ih p hp hyields hr ht)
  | typed n p s ih =>
      by_cases hp : p.isCatchAll = true
      · rw [h.ascription hp] at hr
        obtain rfl := List.mem_singleton.1 hr
        refine .typed (ht s ?_) fun _ => vouches_of_isCatchAll hp t
        exact List.mem_singleton_self s
      · obtain ⟨inner, hinner, hfound⟩ := h.typed hp
        obtain ⟨part, hpart, hwitnesses⟩ := exists_related_to hfound hr
        rw [PatternType.proofs_eq_witnesses (by simp [hwitnesses]), hwitnesses] at ht
        refine .typed (ht s List.mem_cons_self) fun honly => ?_
        have hsome : part.witnesses ≠ [] := fun hnone => honly (hinner.onlyAscribes hpart hnone)
        refine ih hinner hpart fun w hw => ?_
        rw [PatternType.proofs_eq_witnesses hsome] at hw
        exact ht w (List.mem_cons_of_mem s hw)
  | variant n d parts ih =>
      obtain ⟨r', rfl, happlies, hmade⟩ := h.variant
      obtain rfl := List.mem_singleton.1 hr
      refine vouches_of_applications r.proofs_ne_nil happlies.proofs
        (fun e as us hup hbelow => ?_) ht
      refine .variant hup fun hlists field param part u hreflects hpart hu => ?_
      rcases hmade with ⟨rfl, -⟩ | ⟨results, hyields, hproduct⟩
      · cases hpart
      obtain ⟨hfield, rfl⟩ := List.getElem?_eq_some_iff.1 hpart
      have hfield' : field < results.length := hyields.length_eq ▸ hfield
      have hresult := hyields.get hfield hfield'
      -- Any pattern type of the part will do: a whole was listed for each of its witnesses.
      obtain ⟨s, hs⟩ := List.exists_mem_of_ne_nil _ (Yields.ne_nil hresult)
      refine ih _ (List.getElem_mem hfield) hresult hs fun w hw => ?_
      exact below_proofs_of_product hproduct (proofs_ne_nil_of_yields hyields)
        (hlists results hyields) hup hbelow hreflects (List.getElem?_eq_getElem hfield') hu w
        (List.mem_flatMap.2 ⟨s, hs, hw⟩)
  | extractor n d parts =>
      obtain ⟨r', results, rfl, -, hextractor⟩ := h.extractor
      obtain rfl := List.mem_singleton.1 hr
      have happlies := (combineExtractor_inversion hextractor).1
      exact vouches_of_applications r.proofs_ne_nil happlies.proofs
        (fun e as us hup _ => .extractor hup) ht

/-- Only a narrow type is below the type of a literal. -/
theorem isNarrow_of_below_literal {D : Declarations} {v : Literal}
    (h : D.Below t (.ofLiteral v)) : t.isNarrow = true := by
  generalize hb : Ty.ofLiteral v = b at h
  cases h.comparison with
  | atOnce hat =>
      rcases hat with rfl | rfl | rfl | rfl | rfl
      · cases v <;> (cases hb; rfl)
      · rfl
      · cases v <;> cases hb
      · rfl
      · cases v <;> cases hb
  | union _ _ => rfl
  | literal _ _ => rfl
  | intoUnion _ _ _ => cases v <;> cases hb
  | view _ _ => cases v <;> cases hb

/-- A pattern all of which its witnesses keep is irrefutable at a broad type that it vouches for.
The other ways to vouch for a type need a narrow one. -/
theorem Vouches.irrefutable (hD : E.hierarchy.decls.Reachable) {p : Pattern}
    (h : E.Vouches p t) (hp : E.Transparent p) (ht : E.hierarchy.decls.Admits t)
    (hbroad : E.hierarchy.decls.Broad t) : E.hierarchy.decls.Irrefutable p t := by
  have narrow : ∀ {u}, E.hierarchy.decls.Broad u → u.isNarrow = true →
      ∀ q, E.hierarchy.decls.Irrefutable q u := by
    intro u hu hnarrow
    cases hnarrow.symm.trans (hu u (.self u))
  induction h with
  | wildcard n t => exact .wildcard n t
  | binding n x t => exact .binding n x t
  | rest n t => cases hp
  | named _ ih =>
      cases hp with
      | named hp => exact .named (ih hp ht hbroad)
  | branch hmem _ ih =>
      cases hp with
      | alternation hp => exact .branch hmem (ih (hp _ hmem) ht hbroad)
  | typed hbelow _ ih =>
      cases hp with
      | typed honly hp => exact .typed hbelow (ih honly hp ht hbroad)
  | @variant n d e parts as us hup _ ih =>
      cases hp with
      | variant hlists hreflects hparts =>
          have hview := ht.stepsUp hD (E.hierarchy.decls.upcast_sound hup).2
          refine .variant hup fun field f part hf hpart => ?_
          obtain ⟨hfield, -⟩ := List.getElem?_eq_some_iff.1 hpart
          obtain ⟨param, hreflect⟩ := hreflects field hfield
          obtain ⟨f', hf', hty⟩ := hreflect.declared
          obtain rfl := Option.some.inj (hf'.symm.trans hf)
          obtain ⟨q, hq, -⟩ := hreflect.kept
          have hparam : param < us.length :=
            hview.length_args ▸ (List.getElem?_eq_some_iff.1 hq).1
          have hu : us[param]? = some us[param] := List.getElem?_eq_getElem hparam
          have hsubstitute : f'.ty.substitute d us = us[param] := by
            rw [hty, Ty.substitute, if_pos rfl, hu, Option.getD_some]
          have hmem : us[param] ∈ us := List.getElem_mem hparam
          rw [hsubstitute]
          exact ih hlists field param part _ hreflect hpart hu
            (hparts part (List.mem_of_getElem? hpart)) (hview.arg hmem)
            fun w hw => hbroad w (.arg hup hmem hw)
  | extractor _ => cases hp
  | literal hbelow => exact narrow hbroad (isNarrow_of_below_literal hbelow) _
  | union _ _ _ _ => exact narrow hbroad rfl _
  | never p => exact narrow hbroad rfl p
  | unconstrained p => exact narrow hbroad rfl p

/-- A pattern type that is found for a pattern, with valid alignments remembered. -/
def Finds (E : Extractor) (x : Pattern × PatternType) : Prop :=
  ∃ fields later found, fields.Valid E.hierarchy.decls ∧
    (E.extract x.1).answer fields = some (.ok found, later) ∧ x.2 ∈ found

theorem Finds.vouches {x : Pattern × PatternType} (hx : E.Finds x)
    (ht : ∀ w ∈ x.2.proofs, E.hierarchy.decls.Below t w) : E.Vouches x.1 t := by
  obtain ⟨fields, later, found, hfields, hfound, hmem⟩ := hx
  exact vouches_of_yields (yields_of_evaluate hfields (extract_eq_ok_iff.1 hfound).2).1 hmem ht

end Extractor

namespace Checker

variable {C : Checker} {t : Ty}

/-- A type that is matched as a whole is below the type and all witnesses. -/
theorem below_of_matchesWhole {p : PatternType}
    (h : (C.matchesWhole t p).value? = some true) :
    ∀ w ∈ p.proofs, C.hierarchy.decls.Below t w := by
  obtain ⟨b, hb, h⟩ := Query.value?_bind_eq_some.1 h
  cases b with
  | false => cases Option.some.inj h
  | true =>
      intro w hw
      rcases PatternType.eq_ty_or_mem_of_mem_proofs hw with rfl | hw
      · exact (Declarations.below_iff_of_isSubtype hb).2 rfl
      · have hpass := Query.passes_of_all h w hw
        split at hpass
        · rename_i hnone
          exact hnone ▸ C.hierarchy.decls.below_noType t
        · exact (Declarations.below_iff_of_isSubtype hpass).2 rfl

theorem below_of_isCatchAll {p : PatternType} (h : p.isCatchAll = true) :
    ∀ w ∈ p.proofs, C.hierarchy.decls.Below t w := by
  obtain ⟨hsome, hall⟩ := PatternType.isCatchAll_iff.1 h
  intro w hw
  rw [PatternType.proofs_eq_witnesses hsome] at hw
  exact hall w hw ▸ C.hierarchy.decls.below_noType t

/-- An open type is covered by one pattern alone, whose witnesses are all above the type. -/
theorem exists_cover (hopen : C.hierarchy.decls.isClosed t = false)
    {patterns : List (Pattern × PatternType)}
    (h : (C.check t patterns).value? = some .covered) : ∃ x ∈ patterns,
      (∀ w ∈ x.2.proofs, C.hierarchy.decls.Below t w) ∧
        (C.check t [x]).value? = some .covered := by
  unfold check at h
  by_cases hcatch : (patterns.any fun x => x.2.isCatchAll) = true
  · obtain ⟨x, hx, hcatch⟩ := List.any_eq_true.1 hcatch
    refine ⟨x, hx, below_of_isCatchAll hcatch, ?_⟩
    simp [check, hcatch]
  · rw [if_neg hcatch, if_neg (by simp [hopen])] at h
    obtain ⟨b, hb, h⟩ := Query.value?_bind_eq_some.1 h
    cases b with
    | false => cases Option.some.inj h
    | true =>
        obtain ⟨p, hp, hwhole⟩ := (Query.value?_any_eq_some hb).1 rfl
        obtain ⟨x, hx, rfl⟩ := List.mem_map.1 hp
        refine ⟨x, hx, below_of_matchesWhole hwhole, ?_⟩
        have hnot : ¬ x.2.isCatchAll = true := fun h => hcatch (List.any_eq_true.2 ⟨x, hx, h⟩)
        simp [check, checkOpen, hnot, hopen, Query.any, Query.value?_either, hwhole]

/-- An open type is covered only where one of the patterns covers it alone and vouches for it.
That pattern is irrefutable if its witnesses keep all that it says, and the type is broad. -/
theorem open_target_covered (hD : C.hierarchy.decls.Reachable)
    (ht : C.hierarchy.decls.Admits t) (hopen : C.hierarchy.decls.isClosed t = false)
    {patterns : List (Pattern × PatternType)} (hfound : ∀ x ∈ patterns, C.extractor.Finds x)
    (h : (C.check t patterns).value? = some .covered) : ∃ x ∈ patterns,
      (C.check t [x]).value? = some .covered ∧ C.extractor.Vouches x.1 t ∧
        (C.extractor.Transparent x.1 → C.hierarchy.decls.Broad t →
          C.hierarchy.decls.Irrefutable x.1 t) := by
  obtain ⟨x, hx, hbelow, halone⟩ := exists_cover hopen h
  have hvouches := (hfound x hx).vouches hbelow
  exact ⟨x, hx, halone, hvouches, fun hclear hbroad => hvouches.irrefutable hD hclear ht hbroad⟩

/-- A checker that knows a product `P` with one field, and an open data type `O` below an
application of it. -/
def extended (params : List TypeParam) (field parent : Ty) : Checker :=
  let (p, D) := Workspace.initial.decls.declare "P" params (.product [])
  let (o, D) := (D.defineFields p [⟨"v", field⟩]).declare "O" [] (.abstractType false)
  ⟨(D.extend o parent).within 4, {}⟩

theorem extended_reachable (params : List TypeParam) (field parent : Ty)
    (hfield : (Workspace.initial.decls.declare "P" params (.product [])).2.Admits field)
    (hparent : (((Workspace.initial.decls.declare "P" params (.product [])).2.defineFields ⟨8⟩
      [⟨"v", field⟩]).declare "O" [] (.abstractType false)).2.Admits parent) :
    (extended params field parent).hierarchy.decls.Reachable := by
  have hp := Declarations.Reachable.initial.declare "P" (.product params)
  have hfields : ∀ f ∈ [(⟨"v", field⟩ : Field)],
      (Workspace.initial.decls.declare "P" params (.product [])).2.Admits f.ty :=
    List.forall_mem_singleton.2 hfield
  have ho := (hp.defineFields ⟨8⟩ (by decide : 8 < 9) hfields).declare "O" (.abstractType [] false)
  exact ho.extend ⟨9⟩ (by decide : 9 < 10) hparent

/-- `P[+A](v: A)`, and `O` below `P[int]`. -/
def genericField : Checker :=
  extended [⟨"A", .covariant⟩] (.param ⟨8⟩ 0) (.app ⟨8⟩ [.prim .int])

/-- `P(_: int)`, of which the pattern type keeps the type of its field. -/
def genericPart : Pattern × PatternType :=
  (.variant default ⟨8⟩ [.typed default (.wildcard default) (.prim .int)],
    .singleton (.app ⟨8⟩ [.prim .int]))

/-- Nothing is lost of `P(_: int)`. -/
theorem transparent_genericPart : genericField.extractor.Transparent genericPart.1 := by
  refine .variant (fun results hresults => ?_) (fun field hfield => ?_) ?_
  · cases hresults with
    | cons hfirst hrest =>
        cases hrest
        rw [hfirst.ascription rfl]
        decide
  · obtain rfl : field = 0 := Nat.lt_one_iff.1 hfield
    exact ⟨0, ⟨⟨"v", .param ⟨8⟩ 0⟩, by decide, rfl⟩, by decide, ⟨"A", .covariant⟩, by decide,
      by decide⟩
  · simp only [List.forall_mem_singleton]
    exact .typed (by rintro ⟨⟩) (.wildcard default)

/-- The only argument that `O` has as a supertype's is `int`. -/
theorem broad_genericField : genericField.hierarchy.decls.Broad (.app ⟨9⟩ []) := by
  intro u hu
  cases hu with
  | self => rfl
  | arg hup ha hu =>
      have hO : genericField.hierarchy.decls.parentsOf ⟨9⟩ [] = [.app ⟨8⟩ [.prim .int]] := by decide
      have hP : genericField.hierarchy.decls.parentsOf ⟨8⟩ [.prim .int] = [] := by decide
      rcases (genericField.hierarchy.decls.upcast_sound hup).2.cases_head with
        heq | ⟨_, ⟨_, _, heq, hparent⟩, hrest⟩
      · obtain ⟨-, rfl⟩ := Ty.app.inj heq
        cases ha
      · obtain ⟨rfl, rfl⟩ := Ty.app.inj heq
        rw [hO] at hparent
        obtain rfl := List.mem_singleton.1 hparent
        rcases hrest.cases_head with heq | ⟨_, ⟨_, _, heq, hparent⟩, -⟩
        · obtain ⟨-, rfl⟩ := Ty.app.inj heq
          obtain rfl := List.mem_singleton.1 ha
          cases hu with
          | self => rfl
        · obtain ⟨rfl, rfl⟩ := Ty.app.inj heq
          rw [hP] at hparent
          cases hparent

/-- `P(_: int)` covers the open type `O` below `P[int]`, and matches all of its values. -/
theorem open_target_covered_by_product :
    ∃ x ∈ [genericPart], (genericField.check (.app ⟨9⟩ []) [x]).value? = some .covered ∧
      genericField.extractor.Vouches x.1 (.app ⟨9⟩ []) ∧
        genericField.hierarchy.decls.Irrefutable x.1 (.app ⟨9⟩ []) := by
  have hreachable : genericField.hierarchy.decls.Reachable :=
    extended_reachable [⟨"A", .covariant⟩] (.param ⟨8⟩ 0) (.app ⟨8⟩ [.prim .int])
      (.param (by decide) 0) (Declarations.admits_unary ⟨8⟩ (by decide) (by decide) (.prim .int))
  have hfound : genericField.extractor.Finds genericPart := by
    refine ⟨{}, ⟨[(⟨8⟩, [[⟨0, 0, []⟩]])]⟩, _, FieldCache.valid_empty _, ?_,
      List.mem_singleton_self _⟩
    rw [Extractor.answer_extract]
    rfl
  obtain ⟨x, hx, hcovered, hvouches, hwhole⟩ := open_target_covered hreachable
    (Declarations.admits_nullary ⟨9⟩ (by decide) (by decide)) (by decide)
    (List.forall_mem_singleton.2 hfound) (by decide)
  refine ⟨x, hx, hcovered, hvouches, hwhole ?_ broad_genericField⟩
  rw [List.mem_singleton.1 hx]
  exact transparent_genericPart

/-- An open type may be covered by a pattern that matches few of its values: `P(1)` has the
witness `P`, and covers the open type `O` below `P`. -/
theorem exists_refutable_cover :
    ¬ ∀ (C : Checker) (t : Ty) (patterns : List (Pattern × PatternType)),
      C.hierarchy.decls.Reachable → C.hierarchy.decls.Admits t →
        C.hierarchy.decls.isClosed t = false → t.flags.hasNoType = false →
          (∀ x ∈ patterns, C.extractor.Finds x) →
            (C.check t patterns).value? = some .covered →
              ∃ x ∈ patterns, C.hierarchy.decls.Irrefutable x.1 t := by
  intro hall
  have hreachable := extended_reachable [] (.prim .int) (.app ⟨8⟩ []) (.prim .int)
    (Declarations.admits_nullary ⟨8⟩ (by decide) (by decide))
  have hfound : (extended [] (.prim .int) (.app ⟨8⟩ [])).extractor.Finds
      (.variant default ⟨8⟩ [.literal default (.int 1)], .singleton (.app ⟨8⟩ [])) := by
    refine ⟨{}, ⟨[(⟨8⟩, [[]])]⟩, _, FieldCache.valid_empty _, ?_, List.mem_singleton_self _⟩
    rw [Extractor.answer_extract]
    rfl
  obtain ⟨x, hx, hwhole⟩ := hall (extended [] (.prim .int) (.app ⟨8⟩ [])) (.app ⟨9⟩ [])
    [(.variant default ⟨8⟩ [.literal default (.int 1)], .singleton (.app ⟨8⟩ []))] hreachable
    (Declarations.admits_nullary ⟨9⟩ (by decide) (by decide)) (by decide) (by decide)
    (List.forall_mem_singleton.2 hfound) (by decide)
  obtain rfl := List.mem_singleton.1 hx
  cases hwhole with
  | variant hup hparts =>
      cases hparts 0 ⟨"v", .prim .int⟩ (.literal default (.int 1)) (by decide) rfl

end Checker

end CaseCover
