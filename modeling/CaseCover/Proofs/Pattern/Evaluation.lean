import CaseCover.Pattern.Extraction
import CaseCover.Proofs.Query.Answers

/-!
The pattern types of a pattern by recursion on it. `Extractor.evaluate` combines what the
parts of a node yield at once, and the walk with a list of tasks leaves exactly that on
its results, whatever is still to be done (`answer_work_enter`). So an extraction is an
evaluation of a pattern that is not a rest (`answer_extract`).
-/

namespace CaseCover

namespace Extraction

variable {α β γ : Type}

/-- The answer to a computation with what it remembers, without the trail. -/
def answer (m : Extraction α) (fields : FieldCache) :
    Option (Except ExtractionError α × FieldCache) :=
  (m.run.run fields).value?

@[simp] theorem answer_pure (a : α) (fields : FieldCache) :
    (pure a : Extraction α).answer fields = some (.ok a, fields) := rfl

@[simp] theorem answer_refuse (cause : ExtractionCause) (span : Span)
    (fields : FieldCache) :
    (refuse cause span : Extraction α).answer fields =
      some (.error ⟨cause, span⟩, fields) := rfl

@[simp] theorem answer_ask (q : Query α) (fields : FieldCache) :
    (ask q).answer fields = q.value?.map fun a => (.ok a, fields) := by
  cases q with
  | mk found => cases found <;> rfl

theorem answer_pure_eq_ok {a b : α} {fields later : FieldCache} :
    (pure a : Extraction α).answer fields = some (.ok b, later) ↔
      b = a ∧ later = fields := by
  simp [eq_comm]

theorem answer_ask_eq_ok {q : Query α} {a : α} {fields later : FieldCache} :
    (ask q).answer fields = some (.ok a, later) ↔
      q.value? = some a ∧ later = fields := by
  simp only [answer_ask, Option.map_eq_some_iff, Prod.mk.injEq, Except.ok.injEq]
  constructor
  · rintro ⟨b, hb, rfl, rfl⟩
    exact ⟨hb, rfl⟩
  · rintro ⟨ha, rfl⟩
    exact ⟨a, ha, rfl, rfl⟩

theorem answer_refuse_ne_ok {cause : ExtractionCause} {span : Span} {a : α}
    {fields later : FieldCache} :
    (refuse cause span : Extraction α).answer fields ≠ some (.ok a, later) := by
  simp

/-- What a composed computation does after its first part has been answered. -/
def followUp (f : α → Extraction β) :
    Except ExtractionError α × FieldCache → Option (Except ExtractionError β × FieldCache)
  | (.ok a, fields) => (f a).answer fields
  | (.error e, fields) => some (.error e, fields)

theorem answer_bind (m : Extraction α) (f : α → Extraction β) (fields : FieldCache) :
    (m >>= f).answer fields = (m.answer fields).bind (followUp f) := by
  rw [answer, ExceptT.run_bind, StateT.run_bind, Query.value?_bind]
  congr 1
  funext found
  rcases found with ⟨result, later⟩
  cases result <;> rfl

/-- Computations that answer alike may stand for each other after the same first part. -/
theorem answer_bind_congr {m : Extraction α} {f g : α → Extraction β}
    {fields : FieldCache} (hfg : ∀ a later, (f a).answer later = (g a).answer later) :
    (m >>= f).answer fields = (m >>= g).answer fields := by
  rw [answer_bind, answer_bind]
  congr 1
  funext found
  rcases found with ⟨result, later⟩
  cases result with
  | error e => rfl
  | ok a => exact hfg a later

theorem answer_bind_assoc (m : Extraction α) (f : α → Extraction β)
    (g : β → Extraction γ) (fields : FieldCache) :
    ((m >>= f) >>= g).answer fields = (m >>= fun a => f a >>= g).answer fields := by
  rw [answer_bind, answer_bind, answer_bind, Option.bind_assoc]
  congr 1
  funext found
  rcases found with ⟨result, later⟩
  cases result with
  | error e => rfl
  | ok a => exact (answer_bind (f a) g later).symm

theorem answer_pure_bind (a : α) (f : α → Extraction β) (fields : FieldCache) :
    (pure a >>= f).answer fields = (f a).answer fields := by
  rw [answer_bind, answer_pure]
  rfl

/-- A composed computation succeeds when its parts do, one after the other. -/
theorem answer_bind_eq_ok {m : Extraction α} {f : α → Extraction β}
    {fields later : FieldCache} {b : β} :
    (m >>= f).answer fields = some (.ok b, later) ↔
      ∃ a between, m.answer fields = some (.ok a, between) ∧
        (f a).answer between = some (.ok b, later) := by
  rw [answer_bind, Option.bind_eq_some_iff]
  constructor
  · rintro ⟨⟨result, between⟩, hm, hf⟩
    cases result with
    | error e => exact nomatch hf
    | ok a => exact ⟨a, between, hm, hf⟩
  · rintro ⟨a, between, hm, hf⟩
    exact ⟨(.ok a, between), hm, hf⟩

/-- Looking an alignment up keeps it for what comes after. -/
theorem answer_resolve (D : Declarations) (adt : DataId)
    (f : List (List Occurrence) → Extraction α) (fields : FieldCache) :
    (do
      let cache ← get
      set (cache.resolve D adt).2
      f (cache.resolve D adt).1 : Extraction α).answer fields =
        (f (fields.resolve D adt).1).answer (fields.resolve D adt).2 := by
  have hget : (get : Extraction FieldCache).answer fields = some (.ok fields, fields) := rfl
  have hset : ∀ kept, (set kept : Extraction PUnit).answer fields = some (.ok ⟨⟩, kept) :=
    fun kept => rfl
  rw [answer_bind, hget]
  change (set (fields.resolve D adt).2 >>= _ : Extraction α).answer fields = _
  rw [answer_bind, hset]
  rfl

end Extraction

namespace Extractor

open Extraction (answer_bind answer_bind_congr answer_bind_assoc answer_pure_bind
  answer_bind_eq_ok)

mutual

/-- The pattern types of a pattern, where a rest stands for any value. -/
def evaluate (E : Extractor) : Pattern → Extraction (List PatternType)
  | .wildcard _ | .binding _ _ | .rest _ => return [.catchAll]
  | .named _ _ p => evaluate E p
  | .typed n p t =>
    if p.isCatchAll then return [.ascription t]
    else do E.combine (.typed n p t) [← evaluate E p]
  | .literal _ v => do return [.singleton (← Extraction.ask (Query.build (.ofLiteral v)))]
  | .alternation n [] => Extraction.refuse .emptyAlternation n.span
  | .alternation n (p :: rest) => do
    E.checkRest (.alternation n (p :: rest))
    E.combine (.alternation n (p :: rest)) (← evaluateAll E (p :: rest))
  | .variant n adt parts => do
    E.checkRest (.variant n adt parts)
    E.combine (.variant n adt parts) (← evaluateAll E parts)
  | .extractor n adt parts => do
    E.checkRest (.extractor n adt parts)
    E.combine (.extractor n adt parts) (← evaluateAll E parts)

/-- The pattern types of each of a list of patterns. -/
def evaluateAll (E : Extractor) : List Pattern → Extraction (List (List PatternType))
  | [] => return []
  | p :: rest => do
    let results ← evaluate E p
    return results :: (← evaluateAll E rest)

end

variable {E : Extractor}

theorem evaluateAll_cons_eq_ok {p : Pattern} {rest : List Pattern}
    {found : List (List PatternType)} {fields later : FieldCache} :
    (E.evaluateAll (p :: rest)).answer fields = some (.ok found, later) ↔
      ∃ types between others, (E.evaluate p).answer fields = some (.ok types, between) ∧
        (E.evaluateAll rest).answer between = some (.ok others, later) ∧
          found = types :: others := by
  simp only [evaluateAll, answer_bind_eq_ok, Extraction.answer_pure_eq_ok]
  constructor
  · rintro ⟨types, between, htypes, others, _, hothers, rfl, rfl⟩
    exact ⟨types, between, others, htypes, hothers, rfl⟩
  · rintro ⟨types, between, others, htypes, hothers, rfl⟩
    exact ⟨types, between, htypes, others, later, hothers, rfl, rfl⟩

theorem length_of_evaluateAll {parts : List Pattern} {fields later : FieldCache}
    {found : List (List PatternType)}
    (hfound : (E.evaluateAll parts).answer fields = some (.ok found, later)) :
    found.length = parts.length := by
  induction parts generalizing fields later found with
  | nil =>
      rcases Extraction.answer_pure_eq_ok.1 hfound with ⟨rfl, -⟩
      rfl
  | cons p parts ih =>
      rcases evaluateAll_cons_eq_ok.1 hfound with ⟨first, between, others, -, hothers, rfl⟩
      rw [List.length_cons, List.length_cons, ih hothers]

theorem mem_of_evaluateAll {parts : List Pattern} {fields later : FieldCache}
    {found : List (List PatternType)}
    (hfound : (E.evaluateAll parts).answer fields = some (.ok found, later))
    {entry : List PatternType} (hentry : entry ∈ found) :
    ∃ p ∈ parts, ∃ before after, (E.evaluate p).answer before = some (.ok entry, after) := by
  induction parts generalizing fields later found with
  | nil =>
      rcases Extraction.answer_pure_eq_ok.1 hfound with ⟨rfl, -⟩
      exact absurd hentry List.not_mem_nil
  | cons p parts ih =>
      rcases evaluateAll_cons_eq_ok.1 hfound with ⟨first, between, others, hfirst, hothers, rfl⟩
      rcases List.mem_cons.1 hentry with rfl | hentry
      · exact ⟨p, List.mem_cons_self, fields, between, hfirst⟩
      · rcases ih hothers hentry with ⟨q, hq, before, after, hq'⟩
        exact ⟨q, List.mem_cons_of_mem p hq, before, after, hq'⟩

variable (E)

/-- Work that leaves a node finds the results of its parts on top. -/
theorem work_leave (p : Pattern) (tasks : List Task) {found : List (List PatternType)}
    (results : List (List PatternType)) (hlength : found.length = p.parts.length) :
    E.work (.leave p :: tasks) (found.reverse ++ results) =
      (do E.work tasks ((← E.combine p found) :: results)) := by
  have hcount : found.reverse.length = p.parts.length := by
    rw [List.length_reverse, hlength]
  rw [work, if_neg (by rw [List.length_append]; omega), ← hcount, List.take_left,
    List.drop_left, List.reverse_reverse]

/-- Work on the parts of a node, given that the work on each part is its evaluation. -/
theorem answer_work_enterAll {parts : List Pattern}
    (hparts : ∀ p ∈ parts, ∀ tasks results fields,
      (E.work (.enter p :: tasks) results).answer fields =
        (E.evaluate p >>= fun found => E.work tasks (found :: results)).answer fields)
    (tasks : List Task) (results : List (List PatternType)) (fields : FieldCache) :
    (E.work (Task.enterAll parts ++ tasks) results).answer fields =
      (E.evaluateAll parts >>= fun found =>
        E.work tasks (found.reverse ++ results)).answer fields := by
  induction parts generalizing results fields with
  | nil =>
      rw [evaluateAll, answer_pure_bind]
      rfl
  | cons p parts ih =>
      have hrest : ∀ q ∈ parts, ∀ tasks results fields,
          (E.work (.enter q :: tasks) results).answer fields =
            (E.evaluate q >>= fun found =>
              E.work tasks (found :: results)).answer fields :=
        fun q hq => hparts q (List.mem_cons_of_mem p hq)
      rw [evaluateAll, answer_bind_assoc]
      change (E.work (.enter p :: (Task.enterAll parts ++ tasks)) results).answer fields = _
      rw [hparts p List.mem_cons_self]
      apply answer_bind_congr
      intro first later
      rw [ih hrest, answer_bind_assoc]
      apply answer_bind_congr
      intro others last
      rw [answer_pure_bind, List.reverse_cons, List.append_assoc]
      rfl

/-- Work on the parts of a node and then on the node combines what the parts yield. -/
theorem answer_work_node {p : Pattern}
    (hparts : ∀ q ∈ p.parts, ∀ tasks results fields,
      (E.work (.enter q :: tasks) results).answer fields =
        (E.evaluate q >>= fun found => E.work tasks (found :: results)).answer fields)
    (tasks : List Task) (results : List (List PatternType)) (fields : FieldCache) :
    (E.work (Task.enterAll p.parts ++ .leave p :: tasks) results).answer fields =
      ((E.evaluateAll p.parts >>= E.combine p) >>= fun found =>
        E.work tasks (found :: results)).answer fields := by
  rw [answer_work_enterAll E hparts, answer_bind_assoc, answer_bind, answer_bind]
  cases hfound : (E.evaluateAll p.parts).answer fields with
  | none => rfl
  | some found =>
      rcases found with ⟨result, later⟩
      cases result with
      | error e => rfl
      | ok found =>
          have hlength := length_of_evaluateAll hfound
          change (E.work (.leave p :: tasks) (found.reverse ++ results)).answer later = _
          rw [E.work_leave p tasks results hlength]
          rfl

/-- Work on a pattern leaves its evaluation on the results. -/
theorem answer_work_enter (p : Pattern) (tasks : List Task)
    (results : List (List PatternType)) (fields : FieldCache) :
    (E.work (.enter p :: tasks) results).answer fields =
      (E.evaluate p >>= fun found => E.work tasks (found :: results)).answer fields := by
  induction p generalizing tasks results fields with
  | wildcard n => rw [work, evaluate, answer_pure_bind]
  | binding n x => rw [work, evaluate, answer_pure_bind]
  | rest n => rw [work, evaluate, answer_pure_bind]
  | named n x p ih => rw [work, evaluate, ih]
  | literal n v =>
      rw [work, evaluate, answer_bind_assoc]
      apply answer_bind_congr
      intro t later
      rw [answer_pure_bind]
  | typed n p t ih =>
      rw [work, evaluate]
      by_cases hp : p.isCatchAll = true
      · rw [if_pos hp, if_pos hp, answer_pure_bind]
      · rw [if_neg hp, if_neg hp, ih, answer_bind_assoc]
        apply answer_bind_congr
        intro found later
        have hlength : [found].length = (Pattern.typed n p t).parts.length := rfl
        exact congrArg (fun m => m.answer later) (E.work_leave _ tasks results hlength)
  | alternation n branches ih =>
      cases branches with
      | nil =>
          rw [work, evaluate, answer_bind]
          rfl
      | cons p rest =>
          rw [work, evaluate, answer_bind_assoc]
          apply answer_bind_congr
          intro _ later
          exact E.answer_work_node (p := .alternation n (p :: rest)) ih tasks results later
  | variant n adt parts ih =>
      rw [work, evaluate, answer_bind_assoc]
      apply answer_bind_congr
      intro _ later
      exact E.answer_work_node (p := .variant n adt parts) ih tasks results later
  | extractor n adt parts ih =>
      rw [work, evaluate, answer_bind_assoc]
      apply answer_bind_congr
      intro _ later
      exact E.answer_work_node (p := .extractor n adt parts) ih tasks results later

/-- An extraction refuses a rest, and evaluates any other pattern. -/
theorem answer_extract (p : Pattern) (fields : FieldCache) :
    (E.extract p).answer fields =
      if p.isRest = true then some (.error ⟨.misplacedRest, p.span⟩, fields)
      else (E.evaluate p).answer fields := by
  unfold extract
  by_cases hp : p.isRest = true
  · rw [if_pos hp, if_pos hp]
    rfl
  · rw [if_neg hp, if_neg hp, answer_bind, answer_work_enter, answer_bind]
    cases hfound : (E.evaluate p).answer fields with
    | none => rfl
    | some found =>
        rcases found with ⟨result, later⟩
        cases result with
        | error e => rfl
        | ok found =>
            change ((E.work [] [found]).answer later).bind _ = _
            rw [work]
            rfl

end Extractor

end CaseCover
