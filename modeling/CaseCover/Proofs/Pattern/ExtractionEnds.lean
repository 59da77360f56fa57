import CaseCover.Proofs.Hierarchy.Settled
import CaseCover.Proofs.Pattern.Evaluation

/-!
Extractions that end. An extraction visits every node of a pattern at most twice, so nothing in
it goes on for ever but the questions about types that it asks; where these have answers, every
extraction has a result (`extract_ends`).
-/

namespace CaseCover

namespace Query

variable {α β : Type}

theorem each_ends {f : Nat → α → Query β} (hf : ∀ a, Ends fun n => f n a) (as : List α) :
    Ends fun n => each (f n) as := by
  induction as with
  | nil => exact ends_pure []
  | cons a as ih => exact (hf a).bind fun b _ => ih.map _

theorem fold_ends {f : Nat → β → α → Query β} (hf : ∀ b a, Ends fun n => f n b a) (start : β)
    (as : List α) : Ends fun n => fold (f n) start as := by
  induction as generalizing start with
  | nil => exact ends_pure start
  | cons a as ih => exact (hf start a).bind fun b _ => ih b

end Query

namespace Extraction

variable {α β : Type}

/-- Whatever is remembered, a family of extractions settles on a result. -/
def Ends (m : Nat → Extraction α) : Prop := ∀ fields, Query.Ends fun n => (m n).run.run fields

theorem ends_pure (a : α) : Ends fun _ => (pure a : Extraction α) :=
  fun _ => (Query.settles_of_value? fun _ => rfl).ends

theorem ends_refuse (cause : ExtractionCause) (span : Span) :
    Ends fun _ => (refuse cause span : Extraction α) :=
  fun _ => (Query.settles_of_value? fun _ => rfl).ends

theorem ends_ask {q : Nat → Query α} (hq : Query.Ends q) : Ends fun n => ask (q n) :=
  fun fields => (hq.map fun a => (Except.ok a, fields)).congr fun n => by
    rw [Query.value?_map]
    exact answer_ask (q n) fields

theorem Ends.congr {m m' : Nat → Extraction α} (hm : Ends m)
    (heq : ∀ n fields, (m' n).answer fields = (m n).answer fields) : Ends m' :=
  fun fields => (hm fields).congr fun n => heq n fields

theorem Ends.bind {m : Nat → Extraction α} {f : Nat → α → Extraction β} (hm : Ends m)
    (hf : ∀ a, Ends fun n => f n a) : Ends fun n => m n >>= f n := by
  intro fields
  refine Query.Ends.congr (fun n => by rw [ExceptT.run_bind, StateT.run_bind]) ?_
  refine (hm fields).bind fun found _ => ?_
  obtain ⟨result, later⟩ := found
  cases result with
  | error e => exact Query.ends_pure _
  | ok a => exact hf a later

end Extraction

namespace Extractor

open Query (Ends ends_pure)

/-- The extractor with a limit on nested questions about types. -/
def within (E : Extractor) (n : Nat) : Extractor :=
  { E with hierarchy := E.hierarchy.decls.within n }

variable {E : Extractor}

theorem decls_within (E : Extractor) (n : Nat) :
    (E.within n).hierarchy.decls = E.hierarchy.decls := rfl

theorem choices?_within (E : Extractor) (n : Nat) (lists : List (List Ty)) :
    (E.within n).choices? lists = E.choices? lists := rfl

theorem lubAll_ends (hD : E.hierarchy.decls.Settled) (types : List Ty) :
    Ends fun n => (E.within n).hierarchy.lubAll types := by
  cases types with
  | nil => exact ends_pure _
  | cons t rest => exact Query.fold_ends (fun a b => (hD.join a b).ends) t rest

theorem combineExtractor_ends (hD : E.hierarchy.decls.Settled) (adt : DataId)
    (results : List (List PatternType)) :
    Ends fun n => (E.within n).combineExtractor adt results := by
  unfold combineExtractor
  by_cases hempty : results.isEmpty = true
  · simp only [if_pos hempty]
    exact (Query.build_ends _).map _
  simp only [if_neg hempty]
  refine (lubAll_ends hD _).bind fun element _ => ?_
  refine (Query.build_ends _).bind fun ty _ => ?_
  simp only [choices?_within]
  cases E.choices? (results.map proofs) with
  | none => exact ends_pure _
  | some choices =>
      refine (Query.each_ends (fun choice => ?_) choices).map _
      exact (lubAll_ends hD choice).bind fun t _ => Query.build_ends _

theorem alignFields_ends (E : Extractor) (adt : DataId) (alignment : List (List Occurrence))
    (types : List Ty) : Ends fun n => (E.within n).alignFields adt alignment types := by
  unfold alignFields
  refine Query.filterMap_ends (fun o => ?_) alignment.flatten
  simp only [decls_within]
  split
  · exact (Query.liftM_ends _).map _
  · exact ends_pure none

theorem applyAligned_ends (hD : E.hierarchy.decls.Settled) (adt : DataId)
    (aligned : List (Nat × Ty)) : Ends fun n => (E.within n).applyAligned adt aligned := by
  have bind : ∀ bindings entry, Ends fun n => (E.within n).bindAligned bindings entry := by
    intro bindings entry
    unfold bindAligned
    split
    · exact ends_pure _
    · exact ends_pure _
    · exact ((hD.join _ _).ends).map _
  unfold applyAligned
  simp only [decls_within]
  exact (Query.fold_ends bind _ aligned).bind fun bindings _ => Query.build_ends _

theorem combineProduct_ends (hD : E.hierarchy.decls.Settled) (adt : DataId)
    (alignment : List (List Occurrence)) (results : List (List PatternType)) :
    Ends fun n => (E.within n).combineProduct adt alignment results := by
  refine (Query.each_ends (fun r => lubAll_ends hD _) results).bind fun types _ => ?_
  refine (E.alignFields_ends adt alignment types).bind fun aligned _ => ?_
  refine (applyAligned_ends hD adt _).bind fun ty _ => ?_
  simp only [choices?_within]
  cases E.choices? (results.map proofs) with
  | none => exact ends_pure _
  | some choices =>
      refine (Query.each_ends (fun choice => ?_) choices).map _
      exact (E.alignFields_ends adt alignment choice).bind fun aligned _ =>
        applyAligned_ends hD adt aligned

theorem combineVariant_ends (hD : E.hierarchy.decls.Settled) (adt : DataId)
    (results : List (List PatternType)) (span : Span) :
    Extraction.Ends fun n => (E.within n).combineVariant adt results span := by
  unfold combineVariant
  simp only [decls_within]
  split
  · split
    · exact (Extraction.ends_ask (Query.build_ends _)).bind fun t => Extraction.ends_pure _
    · exact Extraction.ends_refuse _ _
  · split
    · exact Extraction.ends_refuse _ _
    · intro fields
      refine Query.Ends.congr (fun n => Extraction.answer_resolve E.hierarchy.decls adt
        (fun alignment => Extraction.ask ((E.within n).combineProduct adt alignment results))
        fields) ?_
      exact Extraction.ends_ask (combineProduct_ends hD adt _ results) _
  · exact Extraction.ends_refuse _ _
  · exact Extraction.ends_refuse _ _

theorem narrower_ends {D : Declarations} (hD : D.Settled) (inner ascribed : Ty) :
    Ends fun n => narrower (D.within n) inner ascribed := by
  refine (hD.isSubtype_ends inner ascribed).bind fun below _ => ?_
  cases below with
  | true => exact ends_pure _
  | false =>
      refine (hD.isSubtype_ends ascribed inner).bind fun above _ => ?_
      cases above <;> exact ends_pure _

theorem reproject_ends {D : Declarations} (hD : D.Settled) (inner ascribed : Ty) :
    Ends fun n => reproject (D.within n) inner ascribed := by
  unfold reproject
  split
  · exact ends_pure _
  · rename_i d args e bounds
    by_cases hdescends : D.isDescendant d e = true
    · simp only [hdescends, if_true]
      split
      · exact Query.build_ends _
      · refine (hD.instantiateChild_ends d _).bind fun view? _ => ?_
        cases view? with
        | none => exact ends_pure _
        | some view => exact Query.build_ends _
    · simp only [hdescends, Bool.false_eq_true, if_false]
      exact narrower_ends hD _ _
  · exact narrower_ends hD _ _

theorem combine_ends (hD : E.hierarchy.decls.Settled) (p : Pattern)
    (results : List (List PatternType)) :
    Extraction.Ends fun n => (E.within n).combine p results := by
  cases p with
  | alternation n ps => exact Extraction.ends_pure _
  | typed n p t =>
      refine Extraction.ends_ask (Query.each_ends (fun r => ?_) results.flatten)
      exact (reproject_ends hD r.ty t).map _
  | variant n adt ps =>
      exact (combineVariant_ends hD adt results n.span).bind fun _ => Extraction.ends_pure _
  | extractor n adt ps =>
      simp only [combine, decls_within]
      by_cases harity : (E.hierarchy.decls.get adt).arity = 1
      · simp only [harity, if_true]
        exact (Extraction.ends_ask (combineExtractor_ends hD adt results)).bind
          fun _ => Extraction.ends_pure _
      · simp only [harity, if_false]
        exact Extraction.ends_refuse _ _
  | wildcard _ | binding _ _ | named _ _ _ | literal _ _ | rest _ =>
      exact Extraction.ends_refuse _ _

theorem checkRest_ends (E : Extractor) (p : Pattern) :
    Extraction.Ends fun n => (E.within n).checkRest p := by
  simp only [checkRest, decls_within]
  split
  · exact Extraction.ends_refuse _ _
  · exact Extraction.ends_pure _

theorem evaluateAll_ends {parts : List Pattern}
    (hparts : ∀ p ∈ parts, Extraction.Ends fun n => (E.within n).evaluate p) :
    Extraction.Ends fun n => (E.within n).evaluateAll parts := by
  induction parts with
  | nil =>
      simp only [evaluateAll]
      exact Extraction.ends_pure _
  | cons p parts ih =>
      simp only [evaluateAll]
      refine (hparts p List.mem_cons_self).bind fun results => ?_
      refine (ih fun q hq => hparts q (List.mem_cons_of_mem p hq)).bind fun others => ?_
      exact Extraction.ends_pure _

theorem evaluate_ends (hD : E.hierarchy.decls.Settled) (p : Pattern) :
    Extraction.Ends fun n => (E.within n).evaluate p := by
  -- A node is checked, its parts are evaluated, and their results are combined.
  have node : ∀ q : Pattern, (∀ r ∈ q.parts, Extraction.Ends fun n => (E.within n).evaluate r) →
      Extraction.Ends fun n => (E.within n).checkRest q >>= fun _ =>
        (E.within n).evaluateAll q.parts >>= (E.within n).combine q := by
    intro q hparts
    refine (E.checkRest_ends q).bind fun _ => ?_
    exact (evaluateAll_ends hparts).bind fun found => combine_ends hD q found
  induction p with
  | wildcard n =>
      simp only [evaluate]
      exact Extraction.ends_pure _
  | binding n x =>
      simp only [evaluate]
      exact Extraction.ends_pure _
  | rest n =>
      simp only [evaluate]
      exact Extraction.ends_pure _
  | named n x p ih =>
      simp only [evaluate]
      exact ih
  | typed n p t ih =>
      simp only [evaluate]
      split
      · exact Extraction.ends_pure _
      · exact ih.bind fun found => combine_ends hD _ _
  | literal n v =>
      simp only [evaluate]
      exact (Extraction.ends_ask (Query.build_ends _)).bind fun _ => Extraction.ends_pure _
  | alternation n branches ih =>
      cases branches with
      | nil =>
          simp only [evaluate]
          exact Extraction.ends_refuse _ _
      | cons p rest =>
          simp only [evaluate]
          exact node (.alternation n (p :: rest)) ih
  | variant n adt parts ih =>
      simp only [evaluate]
      exact node (.variant n adt parts) ih
  | extractor n adt parts ih =>
      simp only [evaluate]
      exact node (.extractor n adt parts) ih

/-- An extraction has a result where questions about types have answers. -/
theorem extract_ends (hD : E.hierarchy.decls.Settled) (p : Pattern) :
    Extraction.Ends fun n => (E.within n).extract p := by
  by_cases hrest : p.isRest = true
  · refine (Extraction.ends_refuse .misplacedRest p.span).congr fun n fields => ?_
    rw [answer_extract, if_pos hrest]
    rfl
  · refine (evaluate_ends hD p).congr fun n fields => ?_
    rw [answer_extract, if_neg hrest]

end Extractor

end CaseCover
