import CaseCover.Proofs.Pattern.ExtractionEnds

/-!
Extractions under a larger limit. The limit on nested questions about types decides whether an
extraction has a result, never which: what is extracted within a limit is extracted within every
larger one (`extractAlternatives_of_le`).
-/

namespace CaseCover

namespace Query

variable {α β : Type}

theorem each_refines {f g : α → Query β} (hfg : ∀ a, Refines (f a) (g a)) (as : List α) :
    Refines (each f as) (each g as) := by
  induction as with
  | nil => exact .rfl
  | cons a as ih => exact (hfg a).bind fun b => ih.bind fun _ => .rfl

theorem fold_refines {f g : β → α → Query β} (hfg : ∀ b a, Refines (f b a) (g b a)) (start : β)
    (as : List α) : Refines (fold f start as) (fold g start as) := by
  induction as generalizing start with
  | nil => exact .rfl
  | cons a as ih => exact (hfg start a).bind fun b => ih b

end Query

namespace Extraction

variable {α β : Type}

/-- Whatever is remembered, every result of the first extraction is the result of the second. -/
def Refines (m m' : Extraction α) : Prop :=
  ∀ fields, Query.Refines (m.run.run fields) (m'.run.run fields)

theorem Refines.rfl {m : Extraction α} : Refines m m := fun _ => .rfl

theorem refines_ask {q q' : Query α} (hq : Query.Refines q q') : Refines (ask q) (ask q') := by
  intro fields result h
  have hresult := (answer_ask q fields).symm.trans h
  obtain ⟨a, ha, rfl⟩ := Option.map_eq_some_iff.1 hresult
  refine (answer_ask q' fields).trans ?_
  rw [hq a ha, Option.map_some]

theorem Refines.bind {m m' : Extraction α} {f g : α → Extraction β} (hm : Refines m m')
    (hfg : ∀ a, Refines (f a) (g a)) : Refines (m >>= f) (m' >>= g) := by
  intro fields
  rw [ExceptT.run_bind, StateT.run_bind, ExceptT.run_bind, StateT.run_bind]
  refine (hm fields).bind fun found => ?_
  obtain ⟨result, later⟩ := found
  cases result with
  | error e => exact .rfl
  | ok a => exact hfg a later

end Extraction

namespace Extractor

open Query (Refines)

variable (E : Extractor) (n : Nat)

theorem lubAll_refines (types : List Ty) :
    Refines ((E.within n).hierarchy.lubAll types) ((E.within (n + 1)).hierarchy.lubAll types) := by
  cases types with
  | nil => exact .rfl
  | cons t rest => exact Query.fold_refines (E.hierarchy.decls.lubWithin_refines n) t rest

theorem combineExtractor_refines (adt : DataId) (results : List (List PatternType)) :
    Refines ((E.within n).combineExtractor adt results)
      ((E.within (n + 1)).combineExtractor adt results) := by
  unfold combineExtractor
  split
  · exact .rfl
  refine (E.lubAll_refines n _).bind fun element => Refines.bind .rfl fun ty => ?_
  simp only [choices?_within]
  cases E.choices? (results.map proofs) with
  | none => exact .rfl
  | some choices =>
      refine (Query.each_refines (fun choice => ?_) choices).bind fun _ => .rfl
      exact (E.lubAll_refines n choice).bind fun _ => .rfl

theorem applyAligned_refines (adt : DataId) (aligned : List (Nat × Ty)) :
    Refines ((E.within n).applyAligned adt aligned)
      ((E.within (n + 1)).applyAligned adt aligned) := by
  have bind : ∀ bindings entry, Refines ((E.within n).bindAligned bindings entry)
      ((E.within (n + 1)).bindAligned bindings entry) := by
    intro bindings entry
    unfold bindAligned
    split
    · exact .rfl
    · exact .rfl
    · exact (E.hierarchy.decls.lubWithin_refines n _ _).bind fun _ => .rfl
  unfold applyAligned
  simp only [decls_within]
  exact (Query.fold_refines bind _ aligned).bind fun _ => .rfl

theorem combineProduct_refines (adt : DataId) (alignment : List (List Occurrence))
    (results : List (List PatternType)) :
    Refines ((E.within n).combineProduct adt alignment results)
      ((E.within (n + 1)).combineProduct adt alignment results) := by
  refine (Query.each_refines (fun r => E.lubAll_refines n _) results).bind fun types => ?_
  refine Refines.bind .rfl fun aligned => ?_
  refine (E.applyAligned_refines n adt _).bind fun ty => ?_
  simp only [choices?_within]
  cases E.choices? (results.map proofs) with
  | none => exact .rfl
  | some choices =>
      refine (Query.each_refines (fun choice => ?_) choices).bind fun _ => .rfl
      exact Refines.bind .rfl fun aligned => E.applyAligned_refines n adt aligned

theorem combineVariant_refines (adt : DataId) (results : List (List PatternType)) (span : Span) :
    Extraction.Refines ((E.within n).combineVariant adt results span)
      ((E.within (n + 1)).combineVariant adt results span) := by
  unfold combineVariant
  simp only [decls_within]
  split
  · exact .rfl
  · split
    · exact .rfl
    · refine Extraction.Refines.bind .rfl fun cache => Extraction.Refines.bind .rfl fun _ => ?_
      exact Extraction.refines_ask (E.combineProduct_refines n adt _ results)
  · exact .rfl
  · exact .rfl

theorem narrower_refines (D : Declarations) (inner ascribed : Ty) :
    Refines (narrower (D.within n) inner ascribed)
      (narrower (D.within (n + 1)) inner ascribed) := by
  refine (D.subtypeWithin_refines n inner ascribed).bind fun below => ?_
  cases below with
  | true => exact .rfl
  | false => exact (D.subtypeWithin_refines n ascribed inner).bind fun _ => .rfl

theorem reproject_refines (D : Declarations) (inner ascribed : Ty) :
    Refines (reproject (D.within n) inner ascribed)
      (reproject (D.within (n + 1)) inner ascribed) := by
  unfold reproject
  split
  · exact .rfl
  · split
    · dsimp only
      split
      · exact .rfl
      · exact (D.instantiateChild_refines n _ _).bind fun _ => .rfl
    · exact narrower_refines n D _ _
  · exact narrower_refines n D _ _

theorem combine_refines (p : Pattern) (results : List (List PatternType)) :
    Extraction.Refines ((E.within n).combine p results) ((E.within (n + 1)).combine p results) := by
  cases p with
  | typed _ p t =>
      refine Extraction.refines_ask (Query.each_refines (fun r => ?_) results.flatten)
      exact (reproject_refines n E.hierarchy.decls r.ty t).bind fun _ => .rfl
  | variant node adt ps =>
      exact (E.combineVariant_refines n adt results node.span).bind fun _ => .rfl
  | extractor node adt ps =>
      simp only [combine, decls_within]
      by_cases harity : (E.hierarchy.decls.get adt).arity = 1
      · simp only [harity, if_true]
        exact (Extraction.refines_ask (E.combineExtractor_refines n adt results)).bind
          fun _ => .rfl
      · simp only [harity, if_false]
        exact .rfl
  | alternation _ _ | wildcard _ | binding _ _ | named _ _ _ | literal _ _ | rest _ => exact .rfl

theorem evaluateAll_refines {parts : List Pattern} (hparts : ∀ p ∈ parts,
    Extraction.Refines ((E.within n).evaluate p) ((E.within (n + 1)).evaluate p)) :
    Extraction.Refines ((E.within n).evaluateAll parts) ((E.within (n + 1)).evaluateAll parts) := by
  induction parts with
  | nil => simpa only [evaluateAll] using Extraction.Refines.rfl
  | cons p parts ih =>
      simp only [evaluateAll]
      refine (hparts p List.mem_cons_self).bind fun results => ?_
      exact (ih fun q hq => hparts q (List.mem_cons_of_mem p hq)).bind fun _ => .rfl

/-- A larger limit never changes what a pattern is evaluated to. -/
theorem evaluate_refines (p : Pattern) :
    Extraction.Refines ((E.within n).evaluate p) ((E.within (n + 1)).evaluate p) := by
  have node : ∀ q : Pattern, (∀ r ∈ q.parts,
      Extraction.Refines ((E.within n).evaluate r) ((E.within (n + 1)).evaluate r)) →
      Extraction.Refines
        ((E.within n).checkRest q >>= fun _ =>
          (E.within n).evaluateAll q.parts >>= (E.within n).combine q)
        ((E.within (n + 1)).checkRest q >>= fun _ =>
          (E.within (n + 1)).evaluateAll q.parts >>= (E.within (n + 1)).combine q) := by
    intro q hparts
    refine Extraction.Refines.bind .rfl fun _ => ?_
    exact (E.evaluateAll_refines n hparts).bind fun found => E.combine_refines n q found
  induction p with
  | wildcard _ | binding _ _ | rest _ | literal _ _ =>
      simp only [evaluate]
      exact .rfl
  | named _ x p ih =>
      simp only [evaluate]
      exact ih
  | typed _ p t ih =>
      simp only [evaluate]
      split
      · exact .rfl
      · exact ih.bind fun found => E.combine_refines n _ _
  | alternation m branches ih =>
      cases branches with
      | nil =>
          simp only [evaluate]
          exact .rfl
      | cons p rest =>
          simp only [evaluate]
          exact node (.alternation m (p :: rest)) ih
  | variant m adt parts ih =>
      simp only [evaluate]
      exact node (.variant m adt parts) ih
  | extractor m adt parts ih =>
      simp only [evaluate]
      exact node (.extractor m adt parts) ih

theorem extract_refines (p : Pattern) :
    Extraction.Refines ((E.within n).extract p) ((E.within (n + 1)).extract p) := by
  intro fields result h
  have hanswer : ((E.within n).extract p).answer fields = some result := h
  change ((E.within (n + 1)).extract p).answer fields = some result
  rw [answer_extract] at hanswer ⊢
  split at hanswer
  · rw [if_pos (by assumption)]
    exact hanswer
  · rw [if_neg (by assumption)]
    exact E.evaluate_refines n p fields result hanswer

theorem extractEach_refines (ps : List Pattern) :
    Extraction.Refines ((E.within n).extractEach ps) ((E.within (n + 1)).extractEach ps) := by
  induction ps with
  | nil => exact .rfl
  | cons p ps ih => exact (E.extract_refines n p).bind fun _ => ih.bind fun _ => .rfl

/-- What is extracted within a limit is extracted within every larger one. -/
theorem extractAlternatives_of_le {p : Pattern} {fields : FieldCache}
    {result : Except ExtractionError (List (Pattern × PatternType)) × FieldCache}
    (h : (E.extractAlternatives p).answer fields = some result) {n : Nat}
    (hn : E.hierarchy.limit ≤ n) :
    ((E.within n).extractAlternatives p).answer fields = some result := by
  induction n, hn using Nat.le_induction with
  | base => exact h
  | succ n _ ih => exact E.extractEach_refines n p.topAlternatives fields result ih

end Extractor

end CaseCover
