import CaseCover.Proofs.Pattern.Evaluation

/-!
What is remembered about fields never changes the pattern types of a pattern. Under fixed
declarations every alignment that is remembered is the one that would be found anew, and a
computation that only looks alignments up in this way answers the same whatever is
remembered (`Extraction.Indifferent`). So the pattern types of a case do not depend on the
cases before it (`indifferent_extractAlternatives`).
-/

namespace CaseCover

/-- Every alignment that is remembered is that of the declarations. -/
def FieldCache.Valid (cache : FieldCache) (D : Declarations) : Prop :=
  ∀ adt found, cache.resolved.lookup adt = some found → found = D.alignment adt

theorem FieldCache.valid_empty (D : Declarations) : ({} : FieldCache).Valid D :=
  fun _ _ h => nomatch h

theorem FieldCache.Valid.resolve {cache : FieldCache} {D : Declarations}
    (hcache : cache.Valid D) (adt : DataId) :
    (cache.resolve D adt).1 = D.alignment adt ∧ (cache.resolve D adt).2.Valid D := by
  unfold FieldCache.resolve
  cases hfound : cache.resolved.lookup adt with
  | some found => exact ⟨hcache adt found hfound, hcache⟩
  | none =>
      refine ⟨rfl, fun e found hlookup => ?_⟩
      rw [List.lookup_cons] at hlookup
      by_cases he : e = adt
      · subst he
        simpa using hlookup.symm
      · have hne : (e == adt) = false := by simpa using he
        rw [hne] at hlookup
        exact hcache e found hlookup

namespace Extraction

variable {α β : Type} {D : Declarations}

/-- Whatever valid alignments are remembered, a computation has the same result and leaves
valid ones. -/
def Indifferent (D : Declarations) (m : Extraction α) : Prop :=
  ∃ result : Option (Except ExtractionError α), ∀ cache : FieldCache, cache.Valid D →
    (m.answer cache).map Prod.fst = result ∧
      ∀ found later, m.answer cache = some (found, later) → later.Valid D

theorem indifferent_pure (a : α) : Indifferent D (pure a : Extraction α) := by
  refine ⟨some (.ok a), fun cache hcache => ⟨rfl, fun found later h => ?_⟩⟩
  rw [answer_pure] at h
  obtain ⟨-, rfl⟩ := Prod.mk.inj (Option.some.inj h)
  exact hcache

theorem indifferent_refuse (cause : ExtractionCause) (span : Span) :
    Indifferent D (refuse cause span : Extraction α) := by
  refine ⟨some (.error ⟨cause, span⟩), fun cache hcache => ⟨rfl, fun found later h => ?_⟩⟩
  rw [answer_refuse] at h
  obtain ⟨-, rfl⟩ := Prod.mk.inj (Option.some.inj h)
  exact hcache

theorem indifferent_ask (q : Query α) : Indifferent D (ask q) := by
  refine ⟨q.value?.map .ok, fun cache hcache => ⟨?_, fun found later h => ?_⟩⟩
  · rw [answer_ask, Option.map_map]
    rfl
  · rw [answer_ask, Option.map_eq_some_iff] at h
    obtain ⟨a, -, hpair⟩ := h
    obtain ⟨-, rfl⟩ := Prod.mk.inj hpair
    exact hcache

theorem Indifferent.bind {m : Extraction α} {f : α → Extraction β} (hm : Indifferent D m)
    (hf : ∀ a, Indifferent D (f a)) : Indifferent D (m >>= f) := by
  obtain ⟨result, hresult⟩ := hm
  choose next hnext using hf
  refine ⟨result.bind fun
    | .ok a => next a
    | .error e => some (.error e), fun cache hcache => ?_⟩
  obtain ⟨hfst, hlater⟩ := hresult cache hcache
  rw [answer_bind, ← hfst]
  cases hanswer : m.answer cache with
  | none => exact ⟨rfl, fun found later h => nomatch h⟩
  | some answer =>
      obtain ⟨found, between⟩ := answer
      have hbetween := hlater found between hanswer
      cases found with
      | ok a => exact hnext a between hbetween
      | error e =>
          refine ⟨rfl, fun found later h => ?_⟩
          obtain ⟨-, rfl⟩ := Prod.mk.inj (Option.some.inj h)
          exact hbetween

/-- Looking an alignment up and going on with it. -/
theorem indifferent_resolve (adt : DataId) {f : List (List Occurrence) → Extraction α}
    (hf : ∀ alignment, Indifferent D (f alignment)) :
    Indifferent D (do
      let cache ← get
      set (cache.resolve D adt).2
      f (cache.resolve D adt).1) := by
  obtain ⟨result, hresult⟩ := hf (D.alignment adt)
  refine ⟨result, fun cache hcache => ?_⟩
  obtain ⟨hfound, hvalid⟩ := hcache.resolve adt
  rw [answer_resolve, hfound]
  exact hresult _ hvalid

theorem Indifferent.congr {m m' : Extraction α} (hm : Indifferent D m)
    (heq : ∀ cache, m'.answer cache = m.answer cache) : Indifferent D m' := by
  obtain ⟨result, hresult⟩ := hm
  refine ⟨result, fun cache hcache => ?_⟩
  rw [heq cache]
  exact hresult cache hcache

/-- With valid alignments remembered, a computation answers as with none. -/
theorem Indifferent.answer_empty {m : Extraction α} (hm : Indifferent D m)
    {cache later : FieldCache} (hcache : cache.Valid D)
    {found : Except ExtractionError α} (hfound : m.answer cache = some (found, later)) :
    later.Valid D ∧ (m.answer {}).map Prod.fst = some found := by
  obtain ⟨result, hresult⟩ := hm
  obtain ⟨hfst, hlater⟩ := hresult cache hcache
  refine ⟨hlater found later hfound, ?_⟩
  rw [(hresult {} (FieldCache.valid_empty D)).1, ← hfst, hfound]
  rfl

end Extraction

namespace Extractor

open Extraction (Indifferent indifferent_pure indifferent_refuse indifferent_ask
  indifferent_resolve)

variable (E : Extractor)

theorem indifferent_combineVariant (adt : DataId) (results : List (List PatternType))
    (span : Span) : Indifferent E.hierarchy.decls (E.combineVariant adt results span) := by
  unfold combineVariant
  cases hkind : (E.hierarchy.decls.get adt).kind with
  | singleton =>
      simp only [hkind]
      split
      · exact (indifferent_ask _).bind fun _ => indifferent_pure _
      · exact indifferent_refuse _ _
  | product fields =>
      simp only [hkind]
      split
      · exact indifferent_refuse _ _
      · exact indifferent_resolve adt
          (f := fun alignment => Extraction.ask (E.combineProduct adt alignment results))
          fun alignment => indifferent_ask _
  | abstractType isSealed =>
      simp only [hkind]
      exact indifferent_refuse _ _
  | sequence =>
      simp only [hkind]
      exact indifferent_refuse _ _

theorem indifferent_combine (p : Pattern) (results : List (List PatternType)) :
    Indifferent E.hierarchy.decls (E.combine p results) := by
  cases p with
  | alternation n ps => exact indifferent_pure _
  | typed n p t => exact indifferent_ask _
  | variant n adt ps =>
      exact (E.indifferent_combineVariant adt results n.span).bind fun _ => indifferent_pure _
  | extractor n adt ps =>
      simp only [combine]
      split
      · exact (indifferent_ask _).bind fun _ => indifferent_pure _
      · exact indifferent_refuse _ _
  | wildcard _ | binding _ _ | named _ _ _ | literal _ _ | rest _ =>
      exact indifferent_refuse _ _

theorem indifferent_checkRest (p : Pattern) :
    Indifferent E.hierarchy.decls (E.checkRest p) := by
  simp only [checkRest]
  split
  · exact indifferent_refuse _ _
  · exact indifferent_pure _

theorem indifferent_evaluateAll {parts : List Pattern}
    (hparts : ∀ p ∈ parts, Indifferent E.hierarchy.decls (E.evaluate p)) :
    Indifferent E.hierarchy.decls (E.evaluateAll parts) := by
  induction parts with
  | nil =>
      rw [evaluateAll]
      exact indifferent_pure _
  | cons p parts ih =>
      rw [evaluateAll]
      apply (hparts p List.mem_cons_self).bind
      intro results
      apply (ih fun q hq => hparts q (List.mem_cons_of_mem p hq)).bind
      exact fun others => indifferent_pure _

theorem indifferent_evaluate (p : Pattern) :
    Indifferent E.hierarchy.decls (E.evaluate p) := by
  induction p with
  | wildcard n =>
      rw [evaluate]
      exact indifferent_pure _
  | binding n x =>
      rw [evaluate]
      exact indifferent_pure _
  | rest n =>
      rw [evaluate]
      exact indifferent_pure _
  | named n x p ih =>
      rw [evaluate]
      exact ih
  | typed n p t ih =>
      rw [evaluate]
      split
      · exact indifferent_pure _
      · exact ih.bind fun _ => E.indifferent_combine _ _
  | literal n v =>
      rw [evaluate]
      exact (indifferent_ask _).bind fun _ => indifferent_pure _
  | alternation n branches ih =>
      cases branches with
      | nil =>
          rw [evaluate]
          exact indifferent_refuse _ _
      | cons p rest =>
          rw [evaluate]
          apply (E.indifferent_checkRest _).bind
          exact fun _ => (E.indifferent_evaluateAll ih).bind fun _ => E.indifferent_combine _ _
  | variant n adt parts ih =>
      rw [evaluate]
      apply (E.indifferent_checkRest _).bind
      exact fun _ => (E.indifferent_evaluateAll ih).bind fun _ => E.indifferent_combine _ _
  | extractor n adt parts ih =>
      rw [evaluate]
      apply (E.indifferent_checkRest _).bind
      exact fun _ => (E.indifferent_evaluateAll ih).bind fun _ => E.indifferent_combine _ _

theorem indifferent_extract (p : Pattern) :
    Indifferent E.hierarchy.decls (E.extract p) := by
  by_cases hrest : p.isRest = true
  · apply (indifferent_refuse .misplacedRest p.span).congr
    intro cache
    rw [answer_extract, if_pos hrest]
    rfl
  · apply (E.indifferent_evaluate p).congr
    intro cache
    rw [answer_extract, if_neg hrest]

theorem indifferent_extractEach (ps : List Pattern) :
    Indifferent E.hierarchy.decls (E.extractEach ps) := by
  induction ps with
  | nil =>
      rw [extractEach]
      exact indifferent_pure _
  | cons p ps ih =>
      rw [extractEach]
      apply (E.indifferent_extract p).bind
      exact fun _ => ih.bind fun _ => indifferent_pure _

/-- The pattern types of the alternatives of a pattern do not depend on what is remembered
about fields. -/
theorem indifferent_extractAlternatives (p : Pattern) :
    Indifferent E.hierarchy.decls (E.extractAlternatives p) :=
  E.indifferent_extractEach p.topAlternatives

end Extractor

end CaseCover
