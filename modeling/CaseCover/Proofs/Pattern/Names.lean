import CaseCover.Proofs.Pattern.Grammar

/-!
Patterns without their names. What is named stands for itself, and a binding matches what a
wildcard does (`Pattern.unnamed`). The pattern types of a pattern do not depend on its names, nor
does whether it has any: an extraction of the pattern without them looks the same alignments up,
asks the same questions and is refused for the same cause, only perhaps at another place
(`extract_unnamed`). The alternatives at its top are those of the pattern, without their names
(`extractAlternatives_unnamed`).
-/

namespace CaseCover

namespace Pattern

mutual

/-- The pattern with every name dropped and a wildcard for every binding. -/
def unnamed : Pattern → Pattern
  | .wildcard n | .binding n _ => .wildcard n
  | .named _ _ p => p.unnamed
  | .typed n p t => .typed n p.unnamed t
  | .literal n v => .literal n v
  | .variant n d ps => .variant n d (unnamedAll ps)
  | .extractor n d ps => .extractor n d (unnamedAll ps)
  | .rest n => .rest n
  | .alternation n ps => .alternation n (unnamedAll ps)

/-- Each pattern of a list with every name dropped. -/
def unnamedAll : List Pattern → List Pattern
  | [] => []
  | p :: ps => p.unnamed :: unnamedAll ps

end

@[simp] theorem unnamedAll_eq_map (ps : List Pattern) : unnamedAll ps = ps.map unnamed := by
  induction ps with
  | nil => rfl
  | cons p ps ih => rw [unnamedAll, ih, List.map_cons]

@[simp] theorem isCatchAll_unnamed (p : Pattern) : p.unnamed.isCatchAll = p.isCatchAll := by
  induction p with
  | named n x p ih =>
      rw [unnamed]
      exact ih
  | wildcard _ | binding _ _ | literal _ _ | rest _ => rfl
  | typed _ _ _ _ | variant _ _ _ _ | extractor _ _ _ _ | alternation _ _ _ => rfl

@[simp] theorem isRest_unnamed (p : Pattern) : p.unnamed.isRest = p.isRest := by
  induction p with
  | named n x p ih =>
      rw [unnamed]
      exact ih
  | wildcard _ | binding _ _ | literal _ _ | rest _ => rfl
  | typed _ _ _ _ | variant _ _ _ _ | extractor _ _ _ _ | alternation _ _ _ => rfl

theorem topAlternatives_unnamed (p : Pattern) :
    p.unnamed.topAlternatives = p.topAlternatives.map unnamed := by
  induction p with
  | named n x p ih => rw [unnamed, topAlternatives, ih]
  | alternation n ps ih =>
      rw [unnamed, topAlternatives, topAlternatives, unnamedAll_eq_map,
        topAlternativesList_eq_flatMap, topAlternativesList_eq_flatMap, List.flatMap_map,
        List.map_flatMap]
      exact List.flatMap_congr ih
  | wildcard _ | binding _ _ | literal _ _ | rest _ => rfl
  | typed _ _ _ _ | variant _ _ _ _ | extractor _ _ _ _ => rfl

end Pattern

namespace Extraction

variable {α β γ δ : Type}

/-- Two computations end alike: with related results, or refused for the same cause. They remember
the same. -/
inductive SameEnd (R : α → β → Prop) :
    Except ExtractionError α × FieldCache → Except ExtractionError β × FieldCache → Prop
  | ok {a : α} {b : β} {later : FieldCache} (h : R a b) : SameEnd R (.ok a, later) (.ok b, later)
  | refused {cause : ExtractionCause} {span span' : Span} {later : FieldCache} :
      SameEnd R (.error ⟨cause, span⟩, later) (.error ⟨cause, span'⟩, later)

/-- Whatever is remembered, two computations end alike or neither has an answer. -/
def Alike (R : α → β → Prop) (m : Extraction α) (m' : Extraction β) : Prop :=
  ∀ fields, Option.Rel (SameEnd R) (m.answer fields) (m'.answer fields)

variable {R : α → β → Prop} {S : γ → δ → Prop}

theorem alike_pure {a : α} {b : β} (h : R a b) :
    Alike R (pure a : Extraction α) (pure b : Extraction β) :=
  fun _ => .some (.ok h)

theorem alike_refuse (cause : ExtractionCause) (span span' : Span) :
    Alike R (refuse cause span : Extraction α) (refuse cause span' : Extraction β) :=
  fun _ => .some .refused

theorem alike_self (m : Extraction α) : Alike Eq m m := by
  intro fields
  cases m.answer fields with
  | none => exact .none
  | some found =>
      obtain ⟨result, later⟩ := found
      cases result with
      | ok a => exact .some (.ok rfl)
      | error e => exact .some .refused

theorem Alike.bind {m : Extraction α} {m' : Extraction β} {f : α → Extraction γ}
    {f' : β → Extraction δ} (hm : Alike R m m') (hf : ∀ a b, R a b → Alike S (f a) (f' b)) :
    Alike S (m >>= f) (m' >>= f') := by
  intro fields
  have hm := hm fields
  rw [answer_bind, answer_bind]
  generalize m.answer fields = found at hm
  generalize m'.answer fields = found' at hm
  cases hm with
  | none => exact .none
  | some h =>
      cases h with
      | ok h => exact hf _ _ h _
      | refused => exact .some .refused

/-- Of two computations that end alike, the first succeeds when the second does. -/
theorem Alike.exists_left {m : Extraction α} {m' : Extraction β} (h : Alike R m m')
    {fields later : FieldCache} {b : β} (hb : m'.answer fields = some (.ok b, later)) :
    ∃ a, m.answer fields = some (.ok a, later) ∧ R a b := by
  have hends := h fields
  rw [hb] at hends
  generalize m.answer fields = found at hends
  cases hends with
  | some hend =>
      cases hend with
      | ok hab => exact ⟨_, rfl, hab⟩

/-- Of two computations that end alike, the second succeeds when the first does. -/
theorem Alike.exists_right {m : Extraction α} {m' : Extraction β} (h : Alike R m m')
    {fields later : FieldCache} {a : α} (ha : m.answer fields = some (.ok a, later)) :
    ∃ b, m'.answer fields = some (.ok b, later) ∧ R a b := by
  have hends := h fields
  rw [ha] at hends
  generalize m'.answer fields = found at hends
  cases hends with
  | some hend =>
      cases hend with
      | ok hab => exact ⟨_, rfl, hab⟩

end Extraction

namespace Extractor

open Extraction (Alike alike_pure alike_refuse alike_self)

variable (E : Extractor)

theorem misplacedRest?_unnamed (allowed : Bool) (ps : List Pattern) :
    misplacedRest? allowed (ps.map Pattern.unnamed) =
      (misplacedRest? allowed ps).map Pattern.unnamed := by
  induction ps with
  | nil => rfl
  | cons p ps ih =>
      rw [List.map_cons, misplacedRest?, misplacedRest?, Pattern.isRest_unnamed, ih,
        List.isEmpty_map]
      split <;> rfl

/-- A misplaced rest is refused whatever it is named. -/
theorem alike_checkRest {p p' : Pattern} (hallowed : E.restMayClose p' = E.restMayClose p)
    (hparts : p'.parts = p.parts.map Pattern.unnamed) :
    Alike Eq (E.checkRest p) (E.checkRest p') := by
  rw [checkRest_eq, checkRest_eq, hallowed, hparts, misplacedRest?_unnamed]
  cases misplacedRest? (E.restMayClose p) p.parts with
  | none => exact alike_pure rfl
  | some part => exact alike_refuse _ _ _

theorem alike_evaluateAll {ps : List Pattern}
    (hps : ∀ p ∈ ps, Alike Eq (E.evaluate p) (E.evaluate p.unnamed)) :
    Alike Eq (E.evaluateAll ps) (E.evaluateAll (ps.map Pattern.unnamed)) := by
  induction ps with
  | nil => exact alike_pure rfl
  | cons p ps ih =>
      obtain ⟨hp, hps⟩ := List.forall_mem_cons.1 hps
      rw [List.map_cons, evaluateAll, evaluateAll]
      refine hp.bind ?_
      rintro types _ rfl
      refine (ih hps).bind ?_
      rintro others _ rfl
      exact alike_pure rfl

/-- A node is evaluated alike when its parts are. -/
theorem alike_node {p p' : Pattern} (hallowed : E.restMayClose p' = E.restMayClose p)
    (hparts : p'.parts = p.parts.map Pattern.unnamed) (hcombine : E.combine p' = E.combine p)
    (ih : ∀ q ∈ p.parts, Alike Eq (E.evaluate q) (E.evaluate q.unnamed)) :
    Alike Eq (do E.checkRest p; E.combine p (← E.evaluateAll p.parts))
      (do E.checkRest p'; E.combine p' (← E.evaluateAll p'.parts)) := by
  refine (E.alike_checkRest hallowed hparts).bind fun _ _ _ => ?_
  rw [hparts, hcombine]
  refine (E.alike_evaluateAll ih).bind ?_
  rintro found _ rfl
  exact alike_self _

/-- A pattern is evaluated as without its names. The induction is on the pattern. -/
theorem evaluate_unnamed (p : Pattern) : Alike Eq (E.evaluate p) (E.evaluate p.unnamed) := by
  induction p with
  | wildcard _ | binding _ _ | rest _ => exact alike_pure rfl
  | named n x p ih =>
      rw [evaluate, Pattern.unnamed]
      exact ih
  | literal n v => exact alike_self _
  | typed n p t ih =>
      rw [Pattern.unnamed, evaluate, evaluate, Pattern.isCatchAll_unnamed]
      split
      · exact alike_pure rfl
      · refine ih.bind ?_
        rintro types _ rfl
        exact alike_self _
  | alternation n ps ih =>
      rw [Pattern.unnamed, Pattern.unnamedAll_eq_map]
      cases ps with
      | nil =>
          rw [List.map_nil, evaluate]
          exact alike_refuse _ _ _
      | cons p ps =>
          rw [List.map_cons, evaluate, evaluate]
          exact E.alike_node (p := .alternation n (p :: ps)) rfl rfl rfl ih
  | variant n d ps ih =>
      rw [Pattern.unnamed, Pattern.unnamedAll_eq_map, evaluate, evaluate]
      exact E.alike_node (p := .variant n d ps) rfl rfl rfl ih
  | extractor n d ps ih =>
      rw [Pattern.unnamed, Pattern.unnamedAll_eq_map, evaluate, evaluate]
      exact E.alike_node (p := .extractor n d ps) rfl rfl rfl ih

/-- A pattern has the pattern types that it has without its names. -/
theorem extract_unnamed (p : Pattern) : Alike Eq (E.extract p) (E.extract p.unnamed) := by
  intro fields
  rw [answer_extract, answer_extract, Pattern.isRest_unnamed]
  split
  · exact .some .refused
  · exact E.evaluate_unnamed p fields

/-- A pattern with a pattern type of it, without the names. -/
def withoutNames (q : Pattern × PatternType) : Pattern × PatternType := (q.1.unnamed, q.2)

theorem extractEach_unnamed (ps : List Pattern) :
    Alike (fun pairs pairs' => pairs' = pairs.map withoutNames) (E.extractEach ps)
      (E.extractEach (ps.map Pattern.unnamed)) := by
  induction ps with
  | nil => exact alike_pure rfl
  | cons p ps ih =>
      rw [List.map_cons, extractEach, extractEach]
      refine (E.extract_unnamed p).bind ?_
      rintro types _ rfl
      refine ih.bind ?_
      rintro pairs _ rfl
      apply alike_pure
      rw [List.map_append, List.map_map]
      rfl

/-- The alternatives of a pattern have the pattern types that they have without their names. -/
theorem extractAlternatives_unnamed (p : Pattern) :
    Alike (fun pairs pairs' => pairs' = pairs.map withoutNames) (E.extractAlternatives p)
      (E.extractAlternatives p.unnamed) := by
  rw [extractAlternatives, extractAlternatives, Pattern.topAlternatives_unnamed]
  exact E.extractEach_unnamed _

end Extractor

end CaseCover
