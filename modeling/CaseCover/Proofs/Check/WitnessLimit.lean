import CaseCover.Proofs.Check.OpenTargets

/-!
The limit on witnesses. Where a deconstruction has more choices of witnesses than the limit, its
own type takes their place. The type of a pattern does not depend on witnesses, nor does it depend
on the limit whether a pattern has witnesses and whether they are all unconstrained
(`agrees_of_yields`); so the limit never shows where a closed type is checked. An open type is
compared with the witnesses themselves: the type that takes their place may be above it when they
are not, which takes a pattern with more choices than the limit and a type above the target
(`check_with_witness_limits`).
-/

namespace CaseCover

section Related

variable {α β : Type}

/-- What is made of related elements is related. -/
theorem forall₂_of_forall₂ {R : α → α → Prop} {S S' : α → β → Prop} {T : β → β → Prop}
    (hmade : ∀ {a a' b b'}, R a a' → S a b → S' a' b' → T b b') {as as' : List α}
    {bs bs' : List β} (has : List.Forall₂ R as as') (hbs : List.Forall₂ S as bs)
    (hbs' : List.Forall₂ S' as' bs') : List.Forall₂ T bs bs' := by
  induction has generalizing bs bs' with
  | nil =>
      cases hbs
      cases hbs'
      exact .nil
  | cons ha _ ih =>
      cases hbs with
      | cons hb hbs =>
          cases hbs' with
          | cons hb' hbs' => exact .cons (hmade ha hb hb') (ih hbs hbs')

end Related

namespace PatternType

/-- Two pattern types that differ in their witnesses only, and of which both or none of them only
ascribe their type, and both or none of them have a constrained witness. -/
structure Agrees (r r' : PatternType) : Prop where
  ty : r.ty = r'.ty
  isAscription : r.isAscription = r'.isAscription
  unconstrained : r.witnesses.all (· = .noType) = r'.witnesses.all (· = .noType)

namespace Agrees

variable {r r' : PatternType}

theorem rfl : r.Agrees r := ⟨Eq.refl _, Eq.refl _, Eq.refl _⟩

theorem isCatchAll (h : r.Agrees r') : r.isCatchAll = r'.isCatchAll := by
  have hempty : r.witnesses.isEmpty = r'.witnesses.isEmpty := h.isAscription
  rw [PatternType.isCatchAll, PatternType.isCatchAll, hempty, h.unconstrained]

/-- Pattern types of one type agree when both have witnesses of a data type. -/
theorem of_applies {d : DataId} (hty : r.ty = r'.ty) (h : r.Applies d) (h' : r'.Applies d)
    (hne : r.witnesses ≠ []) (hne' : r'.witnesses ≠ []) : r.Agrees r' := by
  have hconstrained {r : PatternType} (h : r.Applies d) (hne : r.witnesses ≠ []) :
      r.isAscription = false ∧ r.witnesses.all (· = .noType) = false := by
    obtain ⟨w, hw⟩ := List.exists_mem_of_ne_nil _ hne
    obtain ⟨args, rfl⟩ := h.witnesses w hw
    refine ⟨by simpa [PatternType.isAscription] using hne, List.all_eq_false.2 ⟨_, hw, ?_⟩⟩
    simp
  obtain ⟨hascription, hall⟩ := hconstrained h hne
  obtain ⟨hascription', hall'⟩ := hconstrained h' hne'
  exact ⟨hty, hascription.trans hascription'.symm, hall.trans hall'.symm⟩

/-- A further witness leaves pattern types in agreement. -/
theorem cons (h : r.Agrees r') (ty t : Ty) :
    Agrees ⟨ty, t :: r.witnesses⟩ ⟨ty, t :: r'.witnesses⟩ := by
  refine ⟨Eq.refl _, Eq.refl _, ?_⟩
  rw [List.all_cons, List.all_cons, h.unconstrained]

end Agrees

end PatternType

open PatternType (Agrees)

namespace Extractor

section Types

variable {E : Extractor}

/-- The type of a product taken apart, from the types that its parts yield. -/
def productType (E : Extractor) (d : DataId) (alignment : List (List Occurrence))
    (types : List (List Ty)) : Query Ty := do
  let joined ← Query.each E.hierarchy.lubAll types
  let aligned ← E.alignFields d alignment joined
  E.applyAligned d (aligned.map fun a => (a.1, a.2.widen))

/-- The type of an extractor, from the types that its parts yield. -/
def extractorType (E : Extractor) (d : DataId) (types : List (List Ty)) : Query Ty :=
  if types.isEmpty then pure (.app d [.never])
  else do return .app d [(← E.hierarchy.lubAll types.flatten).widen]

theorem ty_of_combineProduct {d : DataId} {alignment : List (List Occurrence)}
    {results : List (List PatternType)} {r : PatternType}
    (hr : (E.combineProduct d alignment results).value? = some r) :
    (E.productType d alignment (results.map (List.map PatternType.ty))).value? = some r.ty := by
  obtain ⟨types, aligned, htypes, haligned, hty⟩ := type_of_combineProduct hr
  rw [productType, Query.each_map]
  exact Query.value?_bind_eq_some.2 ⟨types, htypes,
    Query.value?_bind_eq_some.2 ⟨aligned, haligned, hty⟩⟩

theorem ty_of_combineExtractor {d : DataId} {results : List (List PatternType)} {r : PatternType}
    (hr : (E.combineExtractor d results).value? = some r) :
    (E.extractorType d (results.map (List.map PatternType.ty))).value? = some r.ty := by
  rw [extractorType, List.isEmpty_map, ← List.map_flatten]
  rcases type_of_combineExtractor hr with ⟨rfl, hty⟩ | ⟨hne, element, helement, hty⟩
  · rw [hty]
    rfl
  · rw [if_neg fun hempty => hne (List.isEmpty_iff.1 hempty), hty]
    exact Query.value?_bind_eq_some.2 ⟨element, helement, rfl⟩

end Types

section Limits

variable {H : Hierarchy} {few many : Nat}

/-- Results of the parts of a node under two limits. -/
theorem related_parts {R : List PatternType → List PatternType → Prop} {parts : List Pattern}
    (hparts : ∀ p ∈ parts, ∀ {found found'}, Yields ⟨H, few⟩ p found →
      Yields ⟨H, many⟩ p found' → R found found') {results results' : List (List PatternType)}
    (h : List.Forall₂ (Yields ⟨H, few⟩) parts results)
    (h' : List.Forall₂ (Yields ⟨H, many⟩) parts results') : List.Forall₂ R results results' := by
  have hself : List.Forall₂ (fun p p' => p = p' ∧ p ∈ parts) parts parts :=
    List.forall₂_same.2 fun p hp => ⟨rfl, hp⟩
  refine forall₂_of_forall₂ ?_ hself h h'
  rintro p _ _ _ ⟨rfl, hp⟩ hyields hyields'
  exact hparts p hp hyields hyields'

theorem map_ty_of_agrees {results results' : List (List PatternType)}
    (h : List.Forall₂ (List.Forall₂ Agrees) results results') :
    results.map (List.map PatternType.ty) = results'.map (List.map PatternType.ty) := by
  have hty {rs rs' : List PatternType} (h : List.Forall₂ Agrees rs rs') :
      rs.map PatternType.ty = rs'.map PatternType.ty := by
    induction h with
    | nil => rfl
    | cons hr _ ih => rw [List.map_cons, List.map_cons, hr.ty, ih]
  induction h with
  | nil => rfl
  | cons hrs _ ih => rw [List.map_cons, List.map_cons, hty hrs, ih]

/-- Under both limits a deconstruction is the value of a singleton, or a product taken apart. -/
theorem deconstructions {n : PatternNode} {d : DataId} {parts : List Pattern}
    {found found' : List PatternType} (h : Yields ⟨H, few⟩ (.variant n d parts) found)
    (h' : Yields ⟨H, many⟩ (.variant n d parts) found') :
    ∃ r r' results results', found = [r] ∧ found' = [r'] ∧
      List.Forall₂ (Yields ⟨H, few⟩) parts results ∧
      List.Forall₂ (Yields ⟨H, many⟩) parts results' ∧
      (r = r' ∨
        (combineProduct ⟨H, few⟩ d (H.decls.alignment d) results).value? = some r ∧
        (combineProduct ⟨H, many⟩ d (H.decls.alignment d) results').value? = some r') := by
  obtain ⟨r, results, rfl, hresults, hmade⟩ := h.deconstruction
  obtain ⟨r', results', rfl, hresults', hmade'⟩ := h'.deconstruction
  refine ⟨r, r', results, results', rfl, rfl, hresults, hresults', ?_⟩
  rcases hmade with ⟨hsingle, -, rfl⟩ | ⟨hproduct, hr⟩
  · rcases hmade' with ⟨-, -, rfl⟩ | ⟨hproduct, -⟩
    · exact .inl rfl
    · exact absurd (hsingle.symm.trans hproduct) nofun
  · rcases hmade' with ⟨hsingle, -⟩ | ⟨-, hr'⟩
    · exact absurd (hsingle.symm.trans hproduct) nofun
    · exact .inr ⟨hr, hr'⟩

/-- The pattern type of a deconstruction has witnesses, all of them of its data type. -/
theorem Yields.applies {E : Extractor} {p : Pattern} {d : DataId} {r : PatternType}
    (h : E.Yields p [r])
    (hp : (∃ n parts, p = .variant n d parts) ∨ ∃ n parts, p = .extractor n d parts) :
    r.Applies d ∧ r.witnesses ≠ [] := by
  have hwitnesses (hnot : ¬ p.OnlyAscribes) : r.witnesses ≠ [] :=
    fun hnone => hnot (h.onlyAscribes (List.mem_singleton_self r) hnone)
  rcases hp with ⟨n, parts, rfl⟩ | ⟨n, parts, rfl⟩
  · obtain ⟨r', hr, happlies, -⟩ := h.variant
    obtain rfl := List.singleton_inj.1 hr
    exact ⟨happlies, hwitnesses nofun⟩
  · obtain ⟨r', results, hr, -, hmade⟩ := h.extractor
    obtain rfl := List.singleton_inj.1 hr
    exact ⟨(combineExtractor_inversion hmade).1, hwitnesses nofun⟩

theorem Yields.agrees_of_ty {p : Pattern} {d : DataId} {r r' : PatternType}
    (h : Yields ⟨H, few⟩ p [r]) (h' : Yields ⟨H, many⟩ p [r'])
    (hp : (∃ n parts, p = .variant n d parts) ∨ ∃ n parts, p = .extractor n d parts)
    (hty : r.ty = r'.ty) : r.Agrees r' :=
  .of_applies hty (h.applies hp).1 (h'.applies hp).1 (h.applies hp).2 (h'.applies hp).2

/-- The limit on witnesses changes only which witnesses there are. -/
theorem agrees_of_yields {p : Pattern} {found found' : List PatternType}
    (h : Yields ⟨H, few⟩ p found) (h' : Yields ⟨H, many⟩ p found') :
    List.Forall₂ Agrees found found' := by
  have hself (types : List PatternType) : List.Forall₂ Agrees types types :=
    List.forall₂_same.2 fun _ _ => .rfl
  induction p generalizing found found' with
  | wildcard | binding | rest =>
      rw [h.eq_of_evaluate (by rw [evaluate]), h'.eq_of_evaluate (by rw [evaluate])]
      exact hself _
  | literal n v =>
      rw [h.literal, h'.literal]
      exact hself _
  | named n x p ih =>
      rw [Yields, evaluate] at h h'
      exact ih h h'
  | typed n p t ih =>
      by_cases hp : p.isCatchAll = true
      · rw [h.ascription hp, h'.ascription hp]
        exact hself _
      · obtain ⟨inner, hinner, hfound⟩ := h.reprojected hp
        obtain ⟨inner', hinner', hfound'⟩ := h'.reprojected hp
        refine forall₂_of_forall₂ ?_ (ih hinner hinner') hfound hfound'
        rintro r r' ⟨ty, ws⟩ ⟨ty', ws'⟩ hr ⟨hty, rfl⟩ ⟨hty', rfl⟩
        rw [hr.ty] at hty
        obtain rfl : ty = ty' := Option.some.inj (hty.symm.trans hty')
        exact hr.cons ty t
  | alternation n branches ih =>
      obtain ⟨-, results, hresults, rfl⟩ := h.alternation
      obtain ⟨-, results', hresults', rfl⟩ := h'.alternation
      exact List.rel_flatten (related_parts ih hresults hresults')
  | variant n d parts ih =>
      obtain ⟨r, r', results, results', rfl, rfl, hresults, hresults', rfl | ⟨hr, hr'⟩⟩ :=
        deconstructions h h'
      · exact hself [r]
      · refine .cons (h.agrees_of_ty h' (.inl ⟨n, parts, rfl⟩) ?_) .nil
        have hty := ty_of_combineProduct hr
        rw [map_ty_of_agrees (related_parts ih hresults hresults')] at hty
        have hty' := ty_of_combineProduct hr'
        exact Option.some.inj (hty.symm.trans hty')
  | extractor n d parts ih =>
      obtain ⟨r, results, rfl, hresults, hr⟩ := h.extractor
      obtain ⟨r', results', rfl, hresults', hr'⟩ := h'.extractor
      refine .cons (h.agrees_of_ty h' (.inr ⟨n, parts, rfl⟩) ?_) .nil
      have hty := ty_of_combineExtractor hr
      rw [map_ty_of_agrees (related_parts ih hresults hresults')] at hty
      have hty' := ty_of_combineExtractor hr'
      exact Option.some.inj (hty.symm.trans hty')

/-- No deconstruction in a pattern has too many choices of witnesses. -/
def ListsAll (E : Extractor) (p : Pattern) : Prop :=
  ∀ n d parts, (Pattern.variant n d parts).OccursIn p ∨ (Pattern.extractor n d parts).OccursIn p →
    E.ListsChoices parts

theorem ListsAll.part {E : Extractor} {p q : Pattern} (h : E.ListsAll p) (hq : q ∈ p.parts) :
    E.ListsAll q :=
  fun n d parts hoccurs => h n d parts (hoccurs.imp (.part hq) (.part hq))

theorem listsAll_literal {E : Extractor} (n : PatternNode) (v : Literal) :
    E.ListsAll (.literal n v) := by
  rintro _ _ _ (h | h)
  all_goals
    cases h with
    | part hr _ => exact absurd hr List.not_mem_nil

theorem ListsAll.variant {E : Extractor} {n : PatternNode} {d : DataId} {parts : List Pattern}
    (hlists : E.ListsChoices parts) (hparts : ∀ p ∈ parts, E.ListsAll p) :
    E.ListsAll (.variant n d parts) := by
  rintro n' d' parts' (h | h)
  · cases h with
    | refl => exact hlists
    | part hr h => exact hparts _ hr n' d' parts' (.inl h)
  · cases h with
    | part hr h => exact hparts _ hr n' d' parts' (.inr h)

/-- Choices that are listed with a limit are listed with a higher one. -/
theorem choices?_eq (hle : few ≤ many) {lists : List (List Ty)}
    (hcount : choiceCount lists ≤ max 1 few) :
    choices? ⟨H, many⟩ lists = choices? ⟨H, few⟩ lists := by
  have hcount' : choiceCount lists ≤ max 1 many := by omega
  rw [choices?, choices?, if_pos hcount, if_pos hcount']

theorem combineProduct_eq (hle : few ≤ many) {results : List (List PatternType)}
    (hcount : choiceCount (results.map proofs) ≤ max 1 few) (d : DataId)
    (alignment : List (List Occurrence)) :
    combineProduct ⟨H, many⟩ d alignment results = combineProduct ⟨H, few⟩ d alignment results := by
  unfold combineProduct
  rw [choices?_eq hle hcount]
  rfl

theorem combineExtractor_eq (hle : few ≤ many) {results : List (List PatternType)}
    (hcount : choiceCount (results.map proofs) ≤ max 1 few) (d : DataId) :
    combineExtractor ⟨H, many⟩ d results = combineExtractor ⟨H, few⟩ d results := by
  unfold combineExtractor
  rw [choices?_eq hle hcount]

/-- A limit that no deconstruction reaches changes nothing. -/
theorem eq_of_yields (hle : few ≤ many) {p : Pattern} (hp : ListsAll ⟨H, few⟩ p)
    {found found' : List PatternType} (h : Yields ⟨H, few⟩ p found)
    (h' : Yields ⟨H, many⟩ p found') : found = found' := by
  have hparts {parts : List Pattern} {results results' : List (List PatternType)}
      (ih : ∀ p ∈ parts, ∀ {found found'}, Yields ⟨H, few⟩ p found →
        Yields ⟨H, many⟩ p found' → found = found')
      (h : List.Forall₂ (Yields ⟨H, few⟩) parts results)
      (h' : List.Forall₂ (Yields ⟨H, many⟩) parts results') : results = results' := by
    rw [← List.forall₂_eq_eq_eq]
    exact related_parts ih h h'
  induction p generalizing found found' with
  | wildcard | binding | rest =>
      rw [h.eq_of_evaluate (by rw [evaluate]), h'.eq_of_evaluate (by rw [evaluate])]
  | literal n v => rw [h.literal, h'.literal]
  | named n x p ih =>
      rw [Yields, evaluate] at h h'
      exact ih (hp.part (List.mem_singleton_self p)) h h'
  | typed n p t ih =>
      by_cases hcatch : p.isCatchAll = true
      · rw [h.ascription hcatch, h'.ascription hcatch]
      · obtain ⟨inner, hinner, hfound⟩ := h.reprojected hcatch
        obtain ⟨inner', hinner', hfound'⟩ := h'.reprojected hcatch
        obtain rfl := ih (hp.part (List.mem_singleton_self p)) hinner hinner'
        rw [← List.forall₂_eq_eq_eq]
        have hself : List.Forall₂ Eq inner inner := List.forall₂_same.2 fun _ _ => rfl
        refine forall₂_of_forall₂ ?_ hself hfound hfound'
        rintro r _ ⟨ty, ws⟩ ⟨ty', ws'⟩ rfl ⟨hty, rfl⟩ ⟨hty', rfl⟩
        obtain rfl : ty = ty' := Option.some.inj (hty.symm.trans hty')
        rfl
  | alternation n branches ih =>
      obtain ⟨-, results, hresults, rfl⟩ := h.alternation
      obtain ⟨-, results', hresults', rfl⟩ := h'.alternation
      rw [hparts (fun q hq => ih q hq (hp.part hq)) hresults hresults']
  | variant n d parts ih =>
      obtain ⟨r, r', results, results', rfl, rfl, hresults, hresults', rfl | ⟨hr, hr'⟩⟩ :=
        deconstructions h h'
      · rfl
      · obtain rfl := hparts (fun q hq => ih q hq (hp.part hq)) hresults hresults'
        rw [combineProduct_eq hle (hp n d parts (.inl .refl) results hresults)] at hr'
        rw [Option.some.inj (hr.symm.trans hr')]
  | extractor n d parts ih =>
      obtain ⟨r, results, rfl, hresults, hr⟩ := h.extractor
      obtain ⟨r', results', rfl, hresults', hr'⟩ := h'.extractor
      obtain rfl := hparts (fun q hq => ih q hq (hp.part hq)) hresults hresults'
      rw [combineExtractor_eq hle (hp n d parts (.inr .refl) results hresults)] at hr'
      rw [Option.some.inj (hr.symm.trans hr')]

/-- A pattern with a pattern type under two limits, which are the same where the lower limit lists
all choices. -/
structure Resembles (E : Extractor) (x x' : Pattern × PatternType) : Prop where
  pattern : x.1 = x'.1
  agrees : x.2.Agrees x'.2
  eq_of_listsAll : E.ListsAll x.1 → x = x'

/-- Under two limits the same patterns are extracted, with pattern types that agree. -/
theorem resembles_of_extractEach (hle : few ≤ many) {ps : List Pattern}
    {fields fields' later later' : FieldCache} (hfields : fields.Valid H.decls)
    (hfields' : fields'.Valid H.decls) {found found' : List (Pattern × PatternType)}
    (h : (extractEach ⟨H, few⟩ ps).answer fields = some (.ok found, later))
    (h' : (extractEach ⟨H, many⟩ ps).answer fields' = some (.ok found', later')) :
    List.Forall₂ (Resembles ⟨H, few⟩) found found' := by
  induction ps generalizing fields fields' later later' found found' with
  | nil =>
      obtain ⟨rfl, -⟩ := Extraction.answer_pure_eq_ok.1 h
      obtain ⟨rfl, -⟩ := Extraction.answer_pure_eq_ok.1 h'
      exact .nil
  | cons p ps ih =>
      simp only [extractEach, Extraction.answer_bind_eq_ok, Extraction.answer_pure_eq_ok] at h h'
      obtain ⟨types, between, htypes, rest, last, hrest, rfl, -⟩ := h
      obtain ⟨types', between', htypes', rest', last', hrest', rfl, -⟩ := h'
      obtain ⟨hyields, hbetween⟩ := yields_of_evaluate hfields (extract_eq_ok_iff.1 htypes).2
      obtain ⟨hyields', hbetween'⟩ := yields_of_evaluate hfields' (extract_eq_ok_iff.1 htypes').2
      refine List.rel_append ?_ (ih hbetween hbetween' hrest hrest')
      by_cases hlists : ListsAll ⟨H, few⟩ p
      · rw [eq_of_yields hle hlists hyields hyields']
        exact List.forall₂_same.2 fun x _ => ⟨rfl, .rfl, fun _ => rfl⟩
      · rw [List.forall₂_map_left_iff, List.forall₂_map_right_iff]
        exact (agrees_of_yields hyields hyields').imp fun r r' hr =>
          ⟨rfl, hr, fun hall => absurd hall hlists⟩

end Limits

end Extractor

namespace Checker

open Extractor (Resembles ListsAll extractEach resembles_of_extractEach)

variable {C : Checker} {target : Ty} {few : Nat} {found found' : List (Pattern × PatternType)}

/-- Whether a pattern type matches a target as a whole depends on the limit only where the type is
above the target and the lower limit leaves choices out. -/
theorem value?_matchesWhole_of_resembles {x x' : Pattern × PatternType}
    (h : Resembles ⟨C.hierarchy, few⟩ x x')
    (hlists : (C.hierarchy.isSubtype target x.2.ty).value? = some true →
      ListsAll ⟨C.hierarchy, few⟩ x.1) :
    (C.matchesWhole target x.2).value? = (C.matchesWhole target x'.2).value? := by
  by_cases habove : (C.hierarchy.isSubtype target x.2.ty).value? = some true
  · rw [h.eq_of_listsAll (hlists habove)]
  · rw [matchesWhole, matchesWhole, Query.value?_bind, Query.value?_bind, ← h.agrees.ty]
    cases hanswer : (C.hierarchy.isSubtype target x.2.ty).value? with
    | none => rfl
    | some above =>
        cases above with
        | true => exact absurd hanswer habove
        | false => rfl

/-- Whether an open type is covered is decided alike where each pattern type is. -/
theorem checkOpen_of_matchesWhole {types types' : List PatternType}
    (h : List.Forall₂ (fun r r' => (C.matchesWhole target r).value? =
      (C.matchesWhole target r').value?) types types') :
    (C.checkOpen target types).value?.map Coverage.withoutNote =
      (C.checkOpen target types').value?.map Coverage.withoutNote := by
  rw [checkOpen, checkOpen, Query.value?_bind, Query.value?_bind, Query.value?_any_congr h]
  cases (Query.any (C.matchesWhole target) types').value? with
  | none => rfl
  | some whole => cases whole <;> rfl

theorem any_isCatchAll_of_resembles
    (h : List.Forall₂ (Resembles ⟨C.hierarchy, few⟩) found found') :
    (found.any fun x => x.2.isCatchAll) = found'.any fun x => x.2.isCatchAll := by
  induction h with
  | nil => rfl
  | cons hx _ ih => rw [List.any_cons, List.any_cons, hx.agrees.isCatchAll, ih]

theorem map_fst_of_resembles (h : List.Forall₂ (Resembles ⟨C.hierarchy, few⟩) found found') :
    found.map Prod.fst = found'.map Prod.fst := by
  induction h with
  | nil => rfl
  | cons hx _ ih => rw [List.map_cons, List.map_cons, hx.pattern, ih]

/-- The limit on witnesses never shows in the check of a closed type. For an open type the verdict
and the counterexamples are the same under two limits as long as no pattern whose type is above
the target has a deconstruction with more choices of witnesses than the lower limit; only the
witnesses that the remark lists may differ. -/
theorem check_with_witness_limits (C : Checker) {few many : Nat} (hle : few ≤ many)
    {ps : List Pattern} {fields fields' later later' : FieldCache}
    (hfields : fields.Valid C.hierarchy.decls) (hfields' : fields'.Valid C.hierarchy.decls)
    {found found' : List (Pattern × PatternType)}
    (hfew : (extractEach ⟨C.hierarchy, few⟩ ps).answer fields = some (.ok found, later))
    (hmany : (extractEach ⟨C.hierarchy, many⟩ ps).answer fields' = some (.ok found', later'))
    (target : Ty) :
    (C.hierarchy.decls.isClosed target = true →
      (C.check target found).value? = (C.check target found').value?) ∧
    ((∀ x ∈ found, (C.hierarchy.isSubtype target x.2.ty).value? = some true →
        ListsAll ⟨C.hierarchy, few⟩ x.1) →
      (C.check target found).value?.map Coverage.withoutNote =
        (C.check target found').value?.map Coverage.withoutNote) := by
  have hsame := resembles_of_extractEach hle hfields hfields' hfew hmany
  have hclosed : C.hierarchy.decls.isClosed target = true →
      C.check target found = C.check target found' := by
    intro hclosed
    unfold check
    rw [any_isCatchAll_of_resembles hsame, map_fst_of_resembles hsame, if_pos hclosed,
      if_pos hclosed]
  refine ⟨fun h => by rw [hclosed h], fun hlists => ?_⟩
  by_cases hopen : C.hierarchy.decls.isClosed target = true
  · rw [hclosed hopen]
  unfold check
  rw [any_isCatchAll_of_resembles hsame, if_neg hopen, if_neg hopen]
  split
  · rfl
  · apply checkOpen_of_matchesWhole
    rw [List.forall₂_map_left_iff, List.forall₂_map_right_iff]
    have hmem : List.Forall₂ (fun x x' => x ∈ found ∧ Resembles ⟨C.hierarchy, few⟩ x x')
        found found' := (List.forall₂_and_left _ _).2 ⟨fun x hx => hx, hsame⟩
    exact hmem.imp fun x x' hx => value?_matchesWhole_of_resembles hx.2 (hlists x hx.1)

/-- A pattern with one pattern type is extracted before others. -/
theorem extractEach_cons_of_evaluate {E : Extractor} {p : Pattern} {ps : List Pattern}
    {fields between later : FieldCache} {r : PatternType} {found : List (Pattern × PatternType)}
    (hp : p.isRest = false) (hr : (E.evaluate p).answer fields = some (.ok [r], between))
    (hfound : (E.extractEach ps).answer between = some (.ok found, later)) :
    (E.extractEach (p :: ps)).answer fields = some (.ok ((p, r) :: found), later) := by
  simp only [extractEach, Extraction.answer_bind_eq_ok, Extraction.answer_pure_eq_ok]
  exact ⟨[r], between, Extractor.extract_eq_ok_iff.2 ⟨hp, hr⟩, found, later, hfound, rfl, rfl⟩

/-- `P(a | b)`, which has two choices of witnesses. -/
def eitherOf (a b : Literal) : Pattern :=
  .variant default ⟨8⟩ [.alternation default [.literal default a, .literal default b]]

/-- What is remembered of the one field of `P`. -/
def fieldOfP : FieldCache := ⟨[(⟨8⟩, [[⟨0, 0, []⟩]])]⟩

/-- `P("a" | "b")` with one witness and with two, and `P(1)`: the type of the first is not above
the open type `O` below `P[int]`, and the second has one choice of witnesses. -/
theorem check_with_witness_limits_text :
    let number : Pattern := .variant default ⟨8⟩ [.literal default (.int 1)]
    let few : List (Pattern × PatternType) :=
      [(eitherOf (.str "a") (.str "b"), .singleton (.app ⟨8⟩ [.prim .str])),
        (number, ⟨.app ⟨8⟩ [.prim .int], [.app ⟨8⟩ [.lit (.int 1)]]⟩)]
    let many : List (Pattern × PatternType) :=
      [(eitherOf (.str "a") (.str "b"), ⟨.app ⟨8⟩ [.prim .str],
          [.app ⟨8⟩ [.lit (.str "a")], .app ⟨8⟩ [.lit (.str "b")]]⟩),
        (number, ⟨.app ⟨8⟩ [.prim .int], [.app ⟨8⟩ [.lit (.int 1)]]⟩)]
    (genericField.check (.app ⟨8⟩ [.prim .int]) few).value? =
        (genericField.check (.app ⟨8⟩ [.prim .int]) many).value? ∧
      (genericField.check (.app ⟨9⟩ []) few).value? =
        some (.missing ["O"] (some "O is not covered by any of {P[str] | P[1]}")) ∧
      (genericField.check (.app ⟨9⟩ []) few).value?.map Coverage.withoutNote =
        (genericField.check (.app ⟨9⟩ []) many).value?.map Coverage.withoutNote := by
  intro number few many
  have hfew : (extractEach ⟨genericField.hierarchy, 1⟩
      [eitherOf (.str "a") (.str "b"), number]).answer {} = some (.ok few, fieldOfP) :=
    extractEach_cons_of_evaluate rfl rfl (extractEach_cons_of_evaluate rfl rfl rfl)
  have hmany : (extractEach ⟨genericField.hierarchy, 2⟩
      [eitherOf (.str "a") (.str "b"), number]).answer {} = some (.ok many, fieldOfP) :=
    extractEach_cons_of_evaluate rfl rfl (extractEach_cons_of_evaluate rfl rfl rfl)
  have hlists : ListsAll ⟨genericField.hierarchy, 1⟩ number := by
    refine .variant (fun results hresults => ?_)
      (List.forall_mem_singleton.2 (Extractor.listsAll_literal _ _))
    cases hresults with
    | cons hone hnil =>
        cases hnil
        rw [hone.literal]
        exact Nat.le_refl 1
  have hsame := check_with_witness_limits genericField (by decide : 1 ≤ 2)
    (FieldCache.valid_empty _) (FieldCache.valid_empty _) hfew hmany
  refine ⟨(hsame (.app ⟨8⟩ [.prim .int])).1 (by decide), by decide,
    (hsame (.app ⟨9⟩ [])).2 fun x hx habove => ?_⟩
  rcases List.mem_cons.1 hx with rfl | hx
  · exact absurd habove (by decide)
  · rw [List.mem_singleton.1 hx]
    exact hlists

end Checker

/-- Two outcomes of the same kind. -/
def Coverage.SameKind : Coverage → Coverage → Prop
  | .covered, .covered | .missing _ _, .missing _ _ | .inconclusive _, .inconclusive _ => True
  | _, _ => False

namespace Checker

open Extractor (extractEach)

/-- The limit on witnesses can decide a verdict. `P(1 | 2)` has the type `P[int]`. With two
witnesses it does not cover the open type `O` below `P[int]`; with one its type is its only
witness, and it covers `O`. -/
theorem exists_verdict_of_witness_limit :
    ¬ ∀ (C : Checker) (target : Ty) (ps : List Pattern) (m n : Nat),
      C.hierarchy.decls.Reachable → C.hierarchy.decls.Admits target → 1 ≤ m → 1 ≤ n →
        ∀ found found' later later',
          (extractEach ⟨C.hierarchy, m⟩ ps).answer {} = some (.ok found, later) →
          (extractEach ⟨C.hierarchy, n⟩ ps).answer {} = some (.ok found', later') →
            ∀ a b, (C.check target found).value? = some a →
              (C.check target found').value? = some b → a.SameKind b := by
  intro hall
  have hreachable : genericField.hierarchy.decls.Reachable :=
    extended_reachable [⟨"A", .covariant⟩] (.param ⟨8⟩ 0) (.app ⟨8⟩ [.prim .int])
      (.param (by decide) 0) (Declarations.admits_unary ⟨8⟩ (by decide) (by decide) (.prim .int))
  have hfew : (extractEach ⟨genericField.hierarchy, 1⟩ [eitherOf (.int 1) (.int 2)]).answer {} =
      some (.ok [(eitherOf (.int 1) (.int 2), .singleton (.app ⟨8⟩ [.prim .int]))],
        fieldOfP) := extractEach_cons_of_evaluate rfl rfl rfl
  have hmany : (extractEach ⟨genericField.hierarchy, 2⟩ [eitherOf (.int 1) (.int 2)]).answer {} =
      some (.ok [(eitherOf (.int 1) (.int 2), ⟨.app ⟨8⟩ [.prim .int],
        [.app ⟨8⟩ [.lit (.int 1)], .app ⟨8⟩ [.lit (.int 2)]]⟩)],
        fieldOfP) := extractEach_cons_of_evaluate rfl rfl rfl
  have htarget : genericField.hierarchy.decls.Admits (.app ⟨9⟩ []) :=
    Declarations.admits_nullary ⟨9⟩ (by decide) (by decide)
  exact hall genericField (.app ⟨9⟩ []) [eitherOf (.int 1) (.int 2)] 1 2 hreachable htarget
    (by decide) (by decide) _ _ _ _ hfew hmany .covered
    (.missing ["O"] (some "O is not covered by any of {P[1] | P[2]}")) (by decide) (by decide)

end Checker

end CaseCover
