import CaseCover.Proofs.Pattern.Evaluation
import CaseCover.Proofs.Value.Matching

/-!
Patterns whose pattern types are unconstrained. A deconstruction names its data type in
every witness, so a catch-all pattern type comes from a wildcard, and the pattern matches
every value (`matches_of_isCatchAll`); only an ascription to the placeholder for an
unconstrained type is misread.
-/

namespace CaseCover

/-- A pattern ascribes a type outside of all deconstructions. -/
inductive Pattern.Ascribes (t : Ty) : Pattern → Prop
  | here (n : PatternNode) (p : Pattern) : Ascribes t (.typed n p t)
  | typed {n : PatternNode} {p : Pattern} {s : Ty} (h : Ascribes t p) :
      Ascribes t (.typed n p s)
  | named {n : PatternNode} {x : String} {p : Pattern} (h : Ascribes t p) :
      Ascribes t (.named n x p)
  | branch {n : PatternNode} {branches : List Pattern} {p : Pattern} (hp : p ∈ branches)
      (h : Ascribes t p) : Ascribes t (.alternation n branches)

namespace PatternType

/-- Every witness is more than the placeholder for an unconstrained type. -/
def Constrained (p : PatternType) : Prop := ∀ w ∈ p.witnesses, w ≠ .noType

theorem isCatchAll_iff {p : PatternType} :
    p.isCatchAll = true ↔ p.witnesses ≠ [] ∧ ∀ w ∈ p.witnesses, w = .noType := by
  simp [isCatchAll]

theorem Constrained.not_isCatchAll {p : PatternType} (hp : p.Constrained) :
    ¬ p.isCatchAll = true := by
  intro hcatch
  rcases isCatchAll_iff.1 hcatch with ⟨hwitnesses, hall⟩
  rcases List.exists_mem_of_ne_nil p.witnesses hwitnesses with ⟨w, hw⟩
  exact hp w hw (hall w hw)

theorem constrained_singleton {t : Ty} (ht : t ≠ .noType) :
    (singleton t).Constrained := by
  intro w hw
  rwa [List.mem_singleton.1 hw]

end PatternType

namespace Extractor

open Extraction (answer_bind_eq_ok)

variable {E : Extractor}

theorem applyAligned_eq_app {adt : DataId} {aligned : List (Nat × Ty)} {t : Ty}
    (ht : (E.applyAligned adt aligned).value? = some t) : ∃ args, t = .app adt args := by
  rw [applyAligned, Query.value?_bind_eq_some] at ht
  rcases ht with ⟨bindings, -, ht⟩
  exact ⟨_, (Option.some.inj ht).symm⟩

theorem constrained_of_each {ty : Ty} {f : List Ty → Query Ty} {choices : List (List Ty)}
    (hf : ∀ choice t, (f choice).value? = some t → ∃ d args, t = .app d args)
    {p : PatternType}
    (hp : (do
      let witnesses ← Query.each f choices
      return ⟨ty, witnesses.eraseDups⟩ : Query PatternType).value? = some p) :
    p.Constrained := by
  rcases Query.value?_bind_eq_some.1 hp with ⟨witnesses, hwitnesses, hp⟩
  obtain rfl := Option.some.inj hp
  intro w hw
  rcases Query.mem_of_value?_each hwitnesses (List.mem_eraseDups.1 hw) with ⟨choice, -, hw⟩
  rcases hf choice w hw with ⟨d, args, rfl⟩
  exact nofun

theorem constrained_combineProduct {adt : DataId} {alignment : List (List Occurrence)}
    {results : List (List PatternType)} {p : PatternType}
    (hp : (E.combineProduct adt alignment results).value? = some p) : p.Constrained := by
  rw [combineProduct, Query.value?_bind_eq_some] at hp
  rcases hp with ⟨types, -, hp⟩
  rcases Query.value?_bind_eq_some.1 hp with ⟨aligned, -, hp⟩
  rcases Query.value?_bind_eq_some.1 hp with ⟨ty, hty, hp⟩
  cases hchoices : E.choices? (results.map proofs) with
  | none =>
      rw [hchoices] at hp
      obtain rfl := Option.some.inj hp
      rcases applyAligned_eq_app hty with ⟨args, rfl⟩
      exact PatternType.constrained_singleton nofun
  | some choices =>
      rw [hchoices] at hp
      refine constrained_of_each (fun choice t ht => ?_) hp
      rcases Query.value?_bind_eq_some.1 ht with ⟨aligned, -, ht⟩
      exact ⟨adt, applyAligned_eq_app ht⟩

theorem constrained_combineExtractor {adt : DataId} {results : List (List PatternType)}
    {p : PatternType} (hp : (E.combineExtractor adt results).value? = some p) :
    p.Constrained := by
  unfold combineExtractor at hp
  by_cases hempty : results.isEmpty = true
  · rw [if_pos hempty] at hp
    obtain rfl := Option.some.inj hp
    exact PatternType.constrained_singleton nofun
  · rw [if_neg hempty] at hp
    rcases Query.value?_bind_eq_some.1 hp with ⟨element, -, hp⟩
    rcases Query.value?_bind_eq_some.1 hp with ⟨ty, hty, hp⟩
    cases hchoices : E.choices? (results.map proofs) with
    | none =>
        rw [hchoices] at hp
        obtain rfl := Option.some.inj hp
        obtain rfl := Option.some.inj hty
        exact PatternType.constrained_singleton nofun
    | some choices =>
        rw [hchoices] at hp
        refine constrained_of_each (fun choice t ht => ?_) hp
        rcases Query.value?_bind_eq_some.1 ht with ⟨join, -, ht⟩
        exact ⟨adt, [join], (Option.some.inj ht).symm⟩

/-- A product with a part for each field is taken apart by its alignment, which is kept. -/
theorem answer_combineVariant_product {adt : DataId} {declared : List Field}
    (hkind : (E.hierarchy.decls.get adt).kind = .product declared)
    {results : List (List PatternType)} (hlength : declared.length = results.length)
    (span : Span) (fields : FieldCache) :
    (E.combineVariant adt results span).answer fields =
      (E.combineProduct adt (fields.resolve E.hierarchy.decls adt).1 results).value?.map
        fun r => (.ok r, (fields.resolve E.hierarchy.decls adt).2) := by
  have hresolved := Extraction.answer_resolve E.hierarchy.decls adt
    (fun alignment => Extraction.ask (E.combineProduct adt alignment results)) fields
  rw [Extraction.answer_ask] at hresolved
  unfold combineVariant
  simp only [hkind, ne_eq, hlength, not_true_eq_false, if_false]
  exact hresolved

/-- A variant that has a pattern type is the value of a singleton, or a product taken apart. -/
theorem combineVariant_eq_ok {adt : DataId} {results : List (List PatternType)}
    {span : Span} {fields later : FieldCache} {p : PatternType}
    (hp : (E.combineVariant adt results span).answer fields = some (.ok p, later)) :
    ((E.hierarchy.decls.get adt).isSingleton = true ∧ results = [] ∧
      p = .singleton (.app adt (List.replicate (E.hierarchy.decls.get adt).arity .noType))) ∨
    ((E.hierarchy.decls.get adt).isSingleton = false ∧
      (E.combineProduct adt (fields.resolve E.hierarchy.decls adt).1 results).value? =
        some p) := by
  cases hkind : (E.hierarchy.decls.get adt).kind with
  | singleton =>
      simp only [combineVariant, hkind] at hp
      by_cases hempty : results.isEmpty = true
      · rw [if_pos hempty] at hp
        rcases answer_bind_eq_ok.1 hp with ⟨ty, between, hty, hp⟩
        obtain rfl := Option.some.inj (Extraction.answer_ask_eq_ok.1 hty).1
        obtain ⟨rfl, -⟩ := Extraction.answer_pure_eq_ok.1 hp
        exact .inl ⟨by simp [DataType.isSingleton, hkind], List.isEmpty_iff.1 hempty, rfl⟩
      · rw [if_neg hempty] at hp
        exact absurd hp Extraction.answer_refuse_ne_ok
  | product declared =>
      by_cases hlength : declared.length = results.length
      · rw [answer_combineVariant_product hkind hlength] at hp
        obtain ⟨r, hr, heq⟩ := Option.map_eq_some_iff.1 hp
        obtain rfl := Except.ok.inj (Prod.mk.inj heq).1
        exact .inr ⟨by simp [DataType.isSingleton, hkind], hr⟩
      · simp only [combineVariant, hkind, ne_eq, hlength, not_false_eq_true, if_true] at hp
        exact absurd hp Extraction.answer_refuse_ne_ok
  | abstractType isSealed =>
      simp only [combineVariant, hkind] at hp
      exact absurd hp Extraction.answer_refuse_ne_ok
  | sequence =>
      simp only [combineVariant, hkind] at hp
      exact absurd hp Extraction.answer_refuse_ne_ok

theorem constrained_combineVariant {adt : DataId} {results : List (List PatternType)}
    {span : Span} {fields later : FieldCache} {p : PatternType}
    (hp : (E.combineVariant adt results span).answer fields = some (.ok p, later)) :
    p.Constrained := by
  rcases combineVariant_eq_ok hp with ⟨-, -, rfl⟩ | ⟨-, hproduct⟩
  · exact PatternType.constrained_singleton (by simp)
  · exact constrained_combineProduct hproduct

/-- A type ascribed to a pattern with a type of its own is a witness of the whole. -/
theorem mem_witnesses_combine_typed {n : PatternNode} {q : Pattern} {t : Ty}
    {results : List (List PatternType)} {fields later : FieldCache}
    {found : List PatternType}
    (hfound : (E.combine (.typed n q t) results).answer fields =
      some (.ok found, later)) {p : PatternType} (hp : p ∈ found) : t ∈ p.witnesses := by
  rcases Query.mem_of_value?_each (Extraction.answer_ask_eq_ok.1 hfound).1 hp with
    ⟨inner, -, hp⟩
  rcases Query.value?_bind_eq_some.1 hp with ⟨ty, -, hp⟩
  obtain rfl := Option.some.inj hp
  exact List.mem_cons_self

theorem combine_extractor_eq_ok {n : PatternNode} {adt : DataId} {parts : List Pattern}
    {results : List (List PatternType)} {fields later : FieldCache}
    {found : List PatternType}
    (hfound : (E.combine (.extractor n adt parts) results).answer fields =
      some (.ok found, later)) :
    ∃ p, (E.combineExtractor adt results).value? = some p ∧ found = [p] := by
  unfold combine at hfound
  by_cases harity : (E.hierarchy.decls.get adt).arity = 1
  · simp only [if_pos harity] at hfound
    rcases answer_bind_eq_ok.1 hfound with ⟨p, between, hp, hdone⟩
    obtain ⟨rfl, -⟩ := Extraction.answer_pure_eq_ok.1 hdone
    exact ⟨p, (Extraction.answer_ask_eq_ok.1 hp).1, rfl⟩
  · simp only [if_neg harity] at hfound
    exact absurd hfound Extraction.answer_refuse_ne_ok

/-- A deconstruction has constrained pattern types only. -/
theorem constrained_of_variant {n : PatternNode} {adt : DataId} {parts : List Pattern}
    {fields later : FieldCache} {found : List PatternType}
    (hfound : (E.evaluate (.variant n adt parts)).answer fields = some (.ok found, later))
    {t : PatternType} (ht : t ∈ found) : t.Constrained := by
  rw [evaluate] at hfound
  rcases answer_bind_eq_ok.1 hfound with ⟨_, l₁, -, hparts⟩
  rcases answer_bind_eq_ok.1 hparts with ⟨results, l₂, -, hcombine⟩
  rcases answer_bind_eq_ok.1 hcombine with ⟨u, l₃, hu, hdone⟩
  obtain ⟨rfl, -⟩ := Extraction.answer_pure_eq_ok.1 hdone
  rw [List.mem_singleton.1 ht]
  exact constrained_combineVariant hu

theorem constrained_of_extractor {n : PatternNode} {adt : DataId} {parts : List Pattern}
    {fields later : FieldCache} {found : List PatternType}
    (hfound : (E.evaluate (.extractor n adt parts)).answer fields =
      some (.ok found, later)) {t : PatternType} (ht : t ∈ found) : t.Constrained := by
  rw [evaluate] at hfound
  rcases answer_bind_eq_ok.1 hfound with ⟨_, l₁, -, hparts⟩
  rcases answer_bind_eq_ok.1 hparts with ⟨results, l₂, -, hcombine⟩
  rcases combine_extractor_eq_ok hcombine with ⟨u, hu, rfl⟩
  rw [List.mem_singleton.1 ht]
  exact constrained_combineExtractor hu

/-- Only an ascription to the placeholder has an unconstrained pattern type. -/
theorem eq_noType_of_typed {n : PatternNode} {p : Pattern} {ascribed : Ty}
    {fields later : FieldCache} {found : List PatternType}
    (hfound : (E.evaluate (.typed n p ascribed)).answer fields = some (.ok found, later))
    {t : PatternType} (ht : t ∈ found) (hcatch : t.isCatchAll = true) :
    ascribed = .noType := by
  rw [evaluate] at hfound
  by_cases hp : p.isCatchAll = true
  · rw [if_pos hp] at hfound
    rcases Extraction.answer_pure_eq_ok.1 hfound with ⟨rfl, -⟩
    rw [List.mem_singleton.1 ht] at hcatch
    simp [PatternType.isCatchAll, PatternType.ascription] at hcatch
  · rw [if_neg hp] at hfound
    rcases answer_bind_eq_ok.1 hfound with ⟨inner, between, -, hcombine⟩
    have hwitness := mem_witnesses_combine_typed hcombine ht
    exact (PatternType.isCatchAll_iff.1 hcatch).2 ascribed hwitness

theorem constrained_of_literal {n : PatternNode} {l : Literal} {fields later : FieldCache}
    {found : List PatternType}
    (hfound : (E.evaluate (.literal n l)).answer fields = some (.ok found, later))
    {t : PatternType} (ht : t ∈ found) : t.Constrained := by
  rw [evaluate] at hfound
  rcases answer_bind_eq_ok.1 hfound with ⟨ty, between, hty, hdone⟩
  obtain rfl := Option.some.inj (Extraction.answer_ask_eq_ok.1 hty).1
  obtain ⟨rfl, -⟩ := Extraction.answer_pure_eq_ok.1 hdone
  rw [List.mem_singleton.1 ht]
  apply PatternType.constrained_singleton
  cases l <;> simp [Ty.ofLiteral]

theorem mem_of_alternation {n : PatternNode} {branches : List Pattern}
    {fields later : FieldCache} {found : List PatternType}
    (hfound : (E.evaluate (.alternation n branches)).answer fields =
      some (.ok found, later)) {t : PatternType} (ht : t ∈ found) :
    ∃ p ∈ branches, ∃ before after inner,
      (E.evaluate p).answer before = some (.ok inner, after) ∧ t ∈ inner := by
  cases branches with
  | nil => exact absurd hfound Extraction.answer_refuse_ne_ok
  | cons first rest =>
      rw [evaluate] at hfound
      rcases answer_bind_eq_ok.1 hfound with ⟨_, l₁, -, hparts⟩
      rcases answer_bind_eq_ok.1 hparts with ⟨results, l₂, hresults, hcombine⟩
      obtain ⟨rfl, -⟩ := Extraction.answer_pure_eq_ok.1 hcombine
      rcases List.mem_flatten.1 ht with ⟨inner, hinner, ht⟩
      rcases mem_of_evaluateAll hresults hinner with ⟨p, hp, before, after, hp'⟩
      exact ⟨p, hp, before, after, inner, hp', ht⟩

/-- A pattern of which some pattern type is unconstrained matches every value, unless it
ascribes the placeholder for an unconstrained type. -/
theorem matches_of_isCatchAll {p : Pattern} {fields later : FieldCache}
    {found : List PatternType}
    (hfound : (E.evaluate p).answer fields = some (.ok found, later))
    (hascribed : ¬ p.Ascribes .noType) {t : PatternType} (ht : t ∈ found)
    (hcatch : t.isCatchAll = true) (v : Value) : E.hierarchy.decls.Matches p v := by
  induction p generalizing fields later found t with
  | wildcard n => exact .wildcard n v
  | binding n x => exact .binding n x v
  | rest n => exact .rest n v
  | named n x p ih =>
      rw [evaluate] at hfound
      exact .named (ih hfound (fun h => hascribed (.named h)) ht hcatch)
  | literal n l => exact absurd hcatch (constrained_of_literal hfound ht).not_isCatchAll
  | typed n p ascribed _ =>
      have hplaceholder := eq_noType_of_typed hfound ht hcatch
      exact absurd (hplaceholder ▸ .here n p) hascribed
  | variant n adt parts _ =>
      exact absurd hcatch (constrained_of_variant hfound ht).not_isCatchAll
  | extractor n adt parts _ =>
      exact absurd hcatch (constrained_of_extractor hfound ht).not_isCatchAll
  | alternation n branches ih =>
      rcases mem_of_alternation hfound ht with ⟨p, hp, before, after, inner, hp', ht⟩
      exact .branch hp (ih p hp hp' (fun h => hascribed (.branch hp h)) ht hcatch)

end Extractor

/-- A pattern type that is found for a pattern under some declarations, within any limits
and whatever is remembered about fields. -/
def Declarations.Extracts (D : Declarations) (p : Pattern) (t : PatternType) : Prop :=
  ∃ (E : Extractor) (fields later : FieldCache) (found : List PatternType),
    E.hierarchy.decls = D ∧ (E.extract p).answer fields = some (.ok found, later) ∧
      t ∈ found

/-- A pattern with a pattern type is evaluated to it. -/
theorem Declarations.Extracts.evaluated {D : Declarations} {p : Pattern} {t : PatternType}
    (ht : D.Extracts p t) :
    ∃ (E : Extractor) (fields later : FieldCache) (found : List PatternType),
      E.hierarchy.decls = D ∧ (E.evaluate p).answer fields = some (.ok found, later) ∧
        t ∈ found := by
  rcases ht with ⟨E, fields, later, found, hdecls, hfound, ht⟩
  rw [Extractor.answer_extract] at hfound
  by_cases hrest : p.isRest = true
  · rw [if_pos hrest] at hfound
    exact nomatch hfound
  · rw [if_neg hrest] at hfound
    exact ⟨E, fields, later, found, hdecls, hfound, ht⟩

/-- A pattern that has an unconstrained pattern type matches every value, unless it
ascribes the placeholder for an unconstrained type. -/
theorem Declarations.Extracts.matches_of_isCatchAll {D : Declarations} {p : Pattern}
    {t : PatternType} (ht : D.Extracts p t) (hascribed : ¬ p.Ascribes .noType)
    (hcatch : t.isCatchAll = true) (v : Value) : D.Matches p v := by
  rcases ht.evaluated with ⟨E, fields, later, found, rfl, hfound, ht⟩
  exact Extractor.matches_of_isCatchAll hfound hascribed ht hcatch v

/-- A deconstruction and an extractor have constrained pattern types only. -/
theorem Declarations.Extracts.constrained {D : Declarations} {p : Pattern}
    {t : PatternType} (ht : D.Extracts p t) {n : PatternNode} {d : DataId}
    {parts : List Pattern} (hp : p = .variant n d parts ∨ p = .extractor n d parts) :
    t.Constrained := by
  rcases ht.evaluated with ⟨E, fields, later, found, rfl, hfound, hmem⟩
  rcases hp with rfl | rfl
  · exact Extractor.constrained_of_variant hfound hmem
  · exact Extractor.constrained_of_extractor hfound hmem

end CaseCover
