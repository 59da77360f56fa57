import CaseCover.Proofs.Pattern.Grammar

/-!
What an extraction refuses. Each check refuses the node it is made for or a part of it, and
none of them says `malformed`: the walk never runs out of results, since it is an evaluation by
recursion (`extract_eq_recursion`).
-/

namespace CaseCover

/-- An error names a cause other than `malformed` and the place of a node of the pattern. -/
def Pattern.Blames (p : Pattern) (e : ExtractionError) : Prop :=
  e.cause ≠ .malformed ∧ ∃ q : Pattern, q.OccursIn p ∧ e.span = q.span

/-- What an error says about a part, it says about the whole. -/
theorem Pattern.Blames.part {p r : Pattern} {e : ExtractionError} (hr : r ∈ p.parts)
    (h : r.Blames e) : p.Blames e := by
  obtain ⟨hcause, q, hq, hspan⟩ := h
  exact ⟨hcause, q, .part hr hq, hspan⟩

theorem Pattern.blames_self {p : Pattern} {cause : ExtractionCause} (hcause : cause ≠ .malformed) :
    p.Blames ⟨cause, p.span⟩ :=
  ⟨hcause, p, .refl, rfl⟩

namespace Extraction

variable {α β : Type} {P : ExtractionError → Prop}

/-- A computation is refused, if at all, with an error of some kind. -/
def RefusesWith (m : Extraction α) (P : ExtractionError → Prop) : Prop :=
  ∀ fields e later, m.answer fields = some (.error e, later) → P e

theorem refusesWith_pure (a : α) : RefusesWith (pure a : Extraction α) P := by
  intro fields e later h
  cases (Prod.mk.inj (Option.some.inj h)).1

theorem refusesWith_ask (q : Query α) : RefusesWith (ask q) P := by
  intro fields e later h
  rw [answer_ask, Option.map_eq_some_iff] at h
  obtain ⟨a, -, hpair⟩ := h
  cases (Prod.mk.inj hpair).1

theorem refusesWith_refuse {cause : ExtractionCause} {span : Span} (h : P ⟨cause, span⟩) :
    RefusesWith (refuse cause span : Extraction α) P := by
  intro fields e later hanswer
  obtain ⟨he, -⟩ := Prod.mk.inj (Option.some.inj hanswer)
  exact Except.error.inj he ▸ h

theorem RefusesWith.bind {m : Extraction α} {f : α → Extraction β} (hm : RefusesWith m P)
    (hf : ∀ a before after, m.answer before = some (.ok a, after) → RefusesWith (f a) P) :
    RefusesWith (m >>= f) P := by
  intro fields e later h
  rw [answer_bind, Option.bind_eq_some_iff] at h
  obtain ⟨⟨first, between⟩, hfirst, hnext⟩ := h
  cases first with
  | error e' =>
      obtain ⟨he, -⟩ := Prod.mk.inj (Option.some.inj hnext)
      exact Except.error.inj he ▸ hm fields e' between hfirst
  | ok a => exact hf a fields between hfirst between e later hnext

theorem refusesWith_resolve (D : Declarations) (adt : DataId)
    {f : List (List Occurrence) → Extraction α} (hf : ∀ alignment, RefusesWith (f alignment) P) :
    RefusesWith (do
      let cache ← get
      set (cache.resolve D adt).2
      f (cache.resolve D adt).1) P := by
  intro fields e later h
  rw [answer_resolve] at h
  exact hf _ _ e later h

end Extraction

namespace Extractor

open Extraction (RefusesWith refusesWith_pure refusesWith_ask refusesWith_refuse
  refusesWith_resolve)

theorem mem_of_misplacedRest? {allowed : Bool} {parts : List Pattern} {q : Pattern}
    (hq : misplacedRest? allowed parts = some q) : q ∈ parts := by
  induction parts with
  | nil => cases hq
  | cons p rest ih =>
      unfold misplacedRest? at hq
      split at hq
      · exact Option.some.inj hq ▸ List.mem_cons_self
      · exact List.mem_cons_of_mem p (ih hq)

variable {E : Extractor}

theorem refusesWith_checkRest (p : Pattern) : RefusesWith (E.checkRest p) p.Blames := by
  rw [checkRest_eq]
  cases hfound : misplacedRest? (E.restMayClose p) p.parts with
  | none => exact refusesWith_pure ()
  | some part =>
      have hpart : part.Blames ⟨.misplacedRest, part.span⟩ := Pattern.blames_self (by simp)
      exact refusesWith_refuse (hpart.part (mem_of_misplacedRest? hfound))

theorem refusesWith_combineVariant {p : Pattern} (adt : DataId)
    (results : List (List PatternType)) :
    RefusesWith (E.combineVariant adt results p.span) p.Blames := by
  unfold combineVariant
  cases hkind : (E.hierarchy.decls.get adt).kind with
  | singleton =>
      simp only [hkind]
      split
      · exact (refusesWith_ask _).bind fun t _ _ _ => refusesWith_pure _
      · exact refusesWith_refuse (Pattern.blames_self (by simp))
  | product fields =>
      simp only [hkind]
      split
      · exact refusesWith_refuse (Pattern.blames_self (by simp))
      · exact refusesWith_resolve E.hierarchy.decls adt
          (f := fun alignment => Extraction.ask (E.combineProduct adt alignment results))
          fun alignment => refusesWith_ask _
  | abstractType isSealed =>
      simp only [hkind]
      exact refusesWith_refuse (Pattern.blames_self (by simp))
  | sequence =>
      simp only [hkind]
      exact refusesWith_refuse (Pattern.blames_self (by simp))

/-- Evaluating patterns one after the other is refused for one of them. -/
theorem refusesWith_evaluateAll {parts : List Pattern} {P : ExtractionError → Prop}
    (hparts : ∀ p ∈ parts, RefusesWith (E.evaluate p) P) :
    RefusesWith (E.evaluateAll parts) P := by
  induction parts with
  | nil =>
      rw [evaluateAll]
      exact refusesWith_pure _
  | cons p parts ih =>
      rw [evaluateAll]
      have hrest := ih fun q hq => hparts q (List.mem_cons_of_mem p hq)
      refine (hparts p List.mem_cons_self).bind fun results _ _ _ => ?_
      exact hrest.bind fun others _ _ _ => refusesWith_pure _

/-- A node is refused for what its check, one of its parts or its combination is refused for. -/
theorem refusesWith_node {p : Pattern}
    (hparts : ∀ q ∈ p.parts, RefusesWith (E.evaluate q) q.Blames)
    (hcombine : ∀ found, RefusesWith (E.combine p found) p.Blames) :
    RefusesWith (E.checkRest p >>= fun _ => E.evaluateAll p.parts >>= E.combine p) p.Blames := by
  have hwhole : ∀ q ∈ p.parts, RefusesWith (E.evaluate q) p.Blames :=
    fun q hq fields e later h => (hparts q hq fields e later h).part hq
  refine (refusesWith_checkRest p).bind fun _ _ _ _ => ?_
  exact (refusesWith_evaluateAll hwhole).bind fun found _ _ _ => hcombine found

theorem refusesWith_evaluate (p : Pattern) : RefusesWith (E.evaluate p) p.Blames := by
  induction p with
  | wildcard n | binding n x | rest n =>
      rw [evaluate]
      exact refusesWith_pure _
  | literal n v =>
      rw [evaluate]
      exact (refusesWith_ask _).bind fun t _ _ _ => refusesWith_pure _
  | named n x p ih =>
      rw [evaluate]
      exact fun fields e later h => (ih fields e later h).part List.mem_cons_self
  | typed n p t ih =>
      rw [evaluate]
      split
      · exact refusesWith_pure _
      · refine RefusesWith.bind (fun fields e later h => ?_) fun found _ _ _ => refusesWith_ask _
        exact (ih fields e later h).part List.mem_cons_self
  | alternation n branches ih =>
      cases branches with
      | nil =>
          rw [evaluate]
          exact refusesWith_refuse (Pattern.blames_self (p := .alternation n []) (by simp))
      | cons p rest =>
          rw [evaluate]
          exact refusesWith_node (p := .alternation n (p :: rest)) ih fun found =>
            refusesWith_pure _
  | variant n adt parts ih =>
      rw [evaluate]
      refine refusesWith_node (p := .variant n adt parts) ih fun found => ?_
      exact (refusesWith_combineVariant (p := .variant n adt parts) adt found).bind
        fun t _ _ _ => refusesWith_pure _
  | extractor n adt parts ih =>
      rw [evaluate]
      refine refusesWith_node (p := .extractor n adt parts) ih fun found => ?_
      simp only [combine]
      split
      · exact (refusesWith_ask _).bind fun t _ _ _ => refusesWith_pure _
      · exact refusesWith_refuse (Pattern.blames_self (p := .extractor n adt parts) (by simp))

/-- The pattern types of a pattern that is no rest, by recursion on it: each node is checked,
its parts are evaluated from left to right, and their results are combined. -/
def extractByRecursion (E : Extractor) (p : Pattern) : Extraction (List PatternType) :=
  if p.isRest then Extraction.refuse .misplacedRest p.span else E.evaluate p

/-- The walk with a list of tasks answers as the recursion does, with the same pattern types or
the same error and what is remembered of fields. An error points at a node of the pattern, and
the walk never finds fewer results than a node has parts. -/
theorem extract_eq_recursion (E : Extractor) (p : Pattern) (fields : FieldCache) :
    (E.extract p).answer fields = (E.extractByRecursion p).answer fields ∧
      ∀ e later, (E.extract p).answer fields = some (.error e, later) →
        e.cause ≠ .malformed ∧ ∃ q : Pattern, q.OccursIn p ∧ e.span = q.span := by
  have hanswer : (E.extract p).answer fields = (E.extractByRecursion p).answer fields := by
    rw [answer_extract]
    unfold extractByRecursion
    split <;> rfl
  have hrefuses : RefusesWith (E.extractByRecursion p) p.Blames := by
    unfold extractByRecursion
    split
    · exact refusesWith_refuse (Pattern.blames_self (by simp))
    · exact refusesWith_evaluate p
  exact ⟨hanswer, fun e later h => hrefuses fields e later (hanswer ▸ h)⟩

end Extractor

end CaseCover
