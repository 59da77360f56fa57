import CaseCover.Proofs.Analysis.Recording
import CaseCover.Proofs.Analysis.Sessions
import CaseCover.Proofs.Diagnostic.Repetition

/-!
An analysis that is given up. The first case whose pattern has no pattern types ends the analysis;
until then only alternatives that can never match were reported (`rejections`). What the analysis
answers is known from these and the error of that case (`value?_analyze_of_error`). The error goes
through the same queue as the others, so it names the cause unless that many different ones were
reported before that the limit is reached; then a note of the limit stands among the diagnostics
(`analyze_abort`).
-/

namespace CaseCover

namespace DiagnosticQueue

/-- An error of another code than all that was offered before is taken unless the limit is reached;
then the note of the limit is held. -/
theorem mem_diagnostics_add (config : QueueConfig) {ds : List Diagnostic} {d : Diagnostic}
    (herror : d.isError = true) (hcode : ∀ x ∈ ds, x.code ≠ d.code)
    (hlimit : d.code ≠ .tooManyErrors) :
    let q := (empty config).extend ds
    (d ∈ (q.add d).diagnostics ↔ q.limitReached = false) ∧
      (q.limitReached = true →
        ∃ place, .tooManyErrors config.errorLimit place ∈ (q.add d).diagnostics) := by
  intro q
  have hledger := ledger_extend config ds
  rw [add]
  cases q.outcome d with
  | overLimit _ hreached hpush =>
      have hafter := ledger_extend config (ds ++ [d])
      rw [extend_concat, add, hpush] at hafter
      have hholds := hafter.holds
      rw [(q.limitReported_reportLimit d).1] at hholds
      have htaken := (empty config).taken_concat ds d
      rw [hpush, if_neg Bool.false_ne_true, List.append_nil] at htaken
      rw [hpush, hreached]
      refine ⟨iff_of_false (fun hd => ?_) (Bool.false_ne_true ∘ Eq.symm),
        fun _ => hholds.exists_note⟩
      rcases hholds.taken_or_note hd with hd | ⟨place, rfl⟩
      · rw [htaken] at hd
        exact hcode d (mem_of_mem_taken hd) rfl
      · exact hlimit rfl
  | repeated _ hdeduplicate hseen hpush =>
      rw [hledger.config_eq] at hdeduplicate
      obtain ⟨x, hx, hfingerprint⟩ := (hledger.remembered hdeduplicate _).1 hseen
      exact absurd (congrArg Fingerprint.code hfingerprint)
        (hcode x (mem_of_mem_taken hx))
  | taken hwithin _ hpush =>
      rw [hpush, hwithin herror]
      refine ⟨iff_of_true ?_ rfl, fun hreached => absurd hreached Bool.false_ne_true⟩
      exact List.mem_append_right _ (List.mem_singleton_self _)

end DiagnosticQueue

namespace Step

variable {α β γ : Type} {D : Declarations} {P : α → Prop} {Q : β → Prop}

/-- With right memories, a step offers the queue what a question answers, and has no answer when
the question has none. It leaves right memories and something that `P` holds of. -/
def Offers (D : Declarations) (P : α → Prop) (m : Step α) (q : Query (List Diagnostic)) : Prop :=
  ∀ s : SessionState, s.Remembers D → Query.Alike
    (fun r ds => P r.1 ∧ r.2.Remembers D ∧ r.2.queue = s.queue.extend ds) (m.run s) q

theorem Offers.congr {m : Step α} {q q' : Query (List Diagnostic)} (hm : Offers D P m q)
    (hq : q'.value? = q.value?) : Offers D P m q' := by
  intro s hs
  unfold Query.Alike
  rw [hq]
  exact hm s hs

theorem offers_pure {a : α} (ha : P a) : Offers D P (pure a) (pure []) :=
  fun _ hs => Query.alike_pure ⟨ha, hs, rfl⟩

/-- A step that always answers the same and leaves the queue alone. -/
theorem offers_of_yields {m : Step α} {a : α} (hm : ∀ s : SessionState, s.Remembers D →
    ∃ s', m.Yields s a s' ∧ s'.Remembers D ∧ s'.queue = s.queue) :
    Offers D (· = a) m (pure []) := by
  intro s hs
  obtain ⟨s', hyields, hremembers, hqueue⟩ := hm s hs
  unfold Query.Alike
  rw [hyields]
  exact .some ⟨rfl, hremembers, hqueue⟩

/-- Steps one after another offer what each of them does. -/
theorem Offers.bind {m : Step α} {f : α → Step β} {q q' : Query (List Diagnostic)}
    (hm : Offers D P m q) (hf : ∀ a, P a → Offers D Q (f a) q') :
    Offers D Q (m >>= f) (do return (← q) ++ (← q')) := by
  intro s hs
  rw [StateT.run_bind]
  refine (hm s hs).bind ?_
  rintro ⟨a, s'⟩ ds ⟨ha, hs', hqueue⟩
  have hjoined : (do return ds ++ (← q') : Query (List Diagnostic)).value? =
      q'.value?.map (ds ++ ·) := by
    rw [Query.value?_bind]
    cases q'.value? <;> rfl
  refine (hf a ha s' hs').map_right hjoined ?_
  rintro r es ⟨hr, hr', hqueue'⟩
  rw [DiagnosticQueue.extend_append, ← hqueue]
  exact ⟨hr, hr', hqueue'⟩

/-- A step that offers nothing, before another one. -/
theorem Offers.silent_bind {m : Step α} {f : α → Step β} {q : Query (List Diagnostic)}
    (hm : Offers D P m (pure [])) (hf : ∀ a, P a → Offers D Q (f a) q) :
    Offers D Q (m >>= f) q := by
  refine (hm.bind hf).congr ?_
  simp only [Query.value?_bind, Query.value?_pure, Option.bind_some, List.nil_append]
  cases q.value? <;> rfl

/-- A step that offers nothing, after another one. -/
theorem Offers.bind_silent {m : Step α} {f : α → Step β} {q : Query (List Diagnostic)}
    (hm : Offers D P m q) (hf : ∀ a, P a → Offers D Q (f a) (pure [])) :
    Offers D Q (m >>= f) q := by
  refine (hm.bind hf).congr ?_
  rw [Query.value?_bind]
  cases q.value? with
  | none => rfl
  | some ds => exact congrArg some (List.append_nil ds).symm

/-- A question that both sides ask. -/
theorem offers_ask_bind {q : Query γ} {f : γ → Step β} {g : γ → Query (List Diagnostic)}
    (hf : ∀ c, Offers D Q (f c) (g c)) : Offers D Q (ask q >>= f) (q >>= g) := by
  intro s hs
  rw [StateT.run_bind]
  have hask : Query.Alike (fun r c => r = (c, s)) ((ask q).run s) q :=
    (Query.alike_self q).map_left (value?_run_ask q s) fun _ _ h => h ▸ rfl
  refine hask.bind ?_
  rintro _ c rfl
  exact hf c s hs

/-- A question about unions that the other side asks without remembered expansions. -/
theorem offers_askUnions_bind {q : UnionCache → Query (γ × UnionCache)} {q' : Query γ}
    {f : γ → Step β} {g : γ → Query (List Diagnostic)}
    (hq : ∀ cache : UnionCache, cache.Valid →
      Query.Alike (fun r c => r.1 = c ∧ r.2.Valid) (q cache) q')
    (hf : ∀ c, Offers D Q (f c) (g c)) : Offers D Q (askUnions q >>= f) (q' >>= g) := by
  intro s hs
  rw [StateT.run_bind]
  have hask : Query.Alike (fun r c => r.1 = c ∧ r.2.Remembers D ∧ r.2.queue = s.queue)
      ((askUnions q).run s) q' := by
    have hanswer : ((askUnions q).run s).value? =
        (q s.unions).value?.map fun r => (r.1, { s with unions := r.2 }) := by
      apply Option.ext
      rintro ⟨a, s'⟩
      change (askUnions q).Yields s a s' ↔ _
      rw [yields_askUnions, Option.map_eq_some_iff]
      constructor
      · rintro ⟨unions, hunions, rfl⟩
        exact ⟨(a, unions), hunions, rfl⟩
      · rintro ⟨⟨b, unions⟩, hunions, hpair⟩
        obtain ⟨rfl, rfl⟩ := Prod.mk.inj hpair
        exact ⟨unions, hunions, rfl⟩
    exact (hq s.unions hs.unions).map_left hanswer
      fun _ _ hrelated => ⟨hrelated.1, ⟨hrelated.2, hs.fields⟩, rfl⟩
  refine hask.bind ?_
  rintro ⟨a, s'⟩ c ⟨rfl, hs', hqueue⟩
  rw [← hqueue]
  exact hf a s' hs'

theorem offers_report (d : Diagnostic) : Offers D (fun _ => True) (report d) (pure [d]) :=
  fun _ hs => Query.alike_pure ⟨trivial, ⟨hs.unions, hs.fields⟩, rfl⟩

end Step

namespace Checker

open Step (Offers offers_pure offers_of_yields offers_ask_bind offers_askUnions_bind offers_report)

variable {C : Checker} {union : TypeSet}

/-- What is reported of an alternative: that it can never match, when no member of the union is
matched and its type is not part of the union. -/
def rejection (C : Checker) (union : TypeSet) (a : Alternative) : Query (List Diagnostic) := do
  let members ← C.membersMatched a.patternType union
  if members.isEmpty then
    match ← C.hierarchy.mismatch? (TypeSet.ofUnion a.patternType.ty) union with
    | none => return []
    | some mismatch =>
      let diagnostic :=
        mismatch.toDiagnostic C.hierarchy.decls .notInUnion a.pattern.span
      return [diagnostic.withNote ("case " ++ toString (a.index + 1) ++ " can never match")]
  else return []

/-- What is reported of alternatives, one after another. -/
def rejections (C : Checker) (union : TypeSet) : List Alternative → Query (List Diagnostic)
  | [] => return []
  | a :: rest => do return (← C.rejection union a) ++ (← C.rejections union rest)

theorem value?_rejections_append (first later : List Alternative) :
    (C.rejections union (first ++ later)).value? =
      (do return (← C.rejections union first) ++ (← C.rejections union later)).value? := by
  induction first with
  | nil =>
      simp only [List.nil_append, rejections, Query.value?_bind, Query.value?_pure,
        Option.bind_some]
      cases (C.rejections union later).value? <;> rfl
  | cons a first ih =>
      simp only [List.cons_append, rejections, Query.value?_bind, ih]
      cases (C.rejection union a).value? with
      | none => rfl
      | some ds =>
          cases (C.rejections union first).value? with
          | none => rfl
          | some es =>
              cases (C.rejections union later).value? with
              | none => rfl
              | some rest => simp

theorem errs_of_rejection {a : Alternative} {ds : List Diagnostic}
    (hds : (C.rejection union a).value? = some ds) : ∀ d ∈ ds, d.Errs .notInUnion := by
  obtain ⟨members, -, hds⟩ := Query.value?_bind_eq_some.1 hds
  split at hds
  · obtain ⟨mismatch?, -, hds⟩ := Query.value?_bind_eq_some.1 hds
    cases mismatch? with
    | none =>
        obtain rfl := Option.some.inj hds
        exact fun d hd => absurd hd List.not_mem_nil
    | some mismatch =>
        obtain rfl := Option.some.inj hds
        intro d hd
        rw [List.mem_singleton.1 hd]
        exact (Diagnostic.errs_errorAt ..).withNote _
  · obtain rfl := Option.some.inj hds
    exact fun d hd => absurd hd List.not_mem_nil

/-- All that is reported of alternatives are errors of one code. -/
theorem errs_of_rejections {alternatives : List Alternative} {ds : List Diagnostic}
    (hds : (C.rejections union alternatives).value? = some ds) :
    ∀ d ∈ ds, d.Errs .notInUnion := by
  induction alternatives generalizing ds with
  | nil =>
      obtain rfl := Option.some.inj hds
      exact fun d hd => absurd hd List.not_mem_nil
  | cons a rest ih =>
      obtain ⟨first, hfirst, hds⟩ := Query.value?_bind_eq_some.1 hds
      obtain ⟨later, hlater, hds⟩ := Query.value?_bind_eq_some.1 hds
      obtain rfl := Option.some.inj hds
      intro d hd
      rcases List.mem_append.1 hd with hd | hd
      · exact errs_of_rejection hfirst d hd
      · exact ih hlater d hd

/-- Whether a type is part of a set is answered as with no expansion remembered. -/
theorem alike_partOf (H : Hierarchy) (t : Ty) (target : TypeSet) {cache : UnionCache}
    (hcache : cache.Valid) : Query.Alike (fun r mismatch? => r.1 = mismatch? ∧ r.2.Valid)
      (H.partOf cache t target) (H.mismatch? (TypeSet.ofUnion t) target) := by
  obtain ⟨hmembers, hvalid⟩ := hcache.expand t
  have hanswer : (H.partOf cache t target).value? =
      (H.mismatch? (cache.expand t).1 target).value?.map fun m => (m, (cache.expand t).2) := by
    change (H.mismatch? (cache.expand t).1 target >>= fun m =>
      pure (m, (cache.expand t).2)).value? = _
    rw [Query.value?_bind]
    cases (H.mismatch? (cache.expand t).1 target).value? <;> rfl
  rw [hmembers] at hanswer
  exact (Query.alike_self _).map_left hanswer fun _ _ hm => ⟨hm, hvalid⟩

/-- Binding an alternative offers what is reported of it. -/
theorem offers_bind (index : Nat) (c : Case) (p : Pattern × PatternType) (table : MatchTable) :
    Offers C.hierarchy.decls (fun _ => True) (C.bind union index c p table)
      (C.rejection union ⟨index, c, p.1, p.2⟩) := by
  unfold bind rejection
  refine offers_ask_bind fun members => ?_
  split
  · refine offers_askUnions_bind (fun cache => alike_partOf _ _ _) fun mismatch? => ?_
    cases mismatch? with
    | none => exact offers_pure trivial
    | some mismatch => exact (offers_report _).bind fun _ _ => offers_pure trivial
  · exact offers_pure trivial

theorem offers_bindAll (index : Nat) (c : Case) (found : List (Pattern × PatternType))
    (table : MatchTable) :
    Offers C.hierarchy.decls (fun _ => True) (C.bindAll union index c found table)
      (C.rejections union (Alternative.ofCase index c found)) := by
  induction found generalizing table with
  | nil => exact offers_pure trivial
  | cons p found ih => exact (offers_bind index c p table).bind fun table' _ => ih table'

/-- The pattern types of a case are found whatever is remembered of other cases. -/
theorem offers_alternatives {c : Case}
    {result : Except ExtractionError (List (Pattern × PatternType))}
    (hc : C.extraction c = some result) :
    Offers C.hierarchy.decls (· = result) (C.alternatives c) (pure []) := by
  apply offers_of_yields
  intro s hs
  obtain ⟨_, hindifferent⟩ := C.extractor.indifferent_extractAlternatives c.pattern
  obtain ⟨hempty, -⟩ := hindifferent {} (FieldCache.valid_empty _)
  obtain ⟨hanswer, hvalid⟩ := hindifferent s.fields hs.fields
  rw [← hempty] at hanswer
  obtain ⟨⟨_, fields⟩, hfound, rfl⟩ := Option.map_eq_some_iff.1 (hanswer.trans hc)
  exact ⟨_, yields_alternatives.2 ⟨fields, hfound, rfl⟩,
    ⟨hs.unions, hvalid _ fields hfound⟩, rfl⟩

/-- Binding cases is given up at the first one that has no pattern types, and until then offers
what is reported of the cases before it. -/
theorem offers_bindCases {before after : List Case} {c : Case} {e : ExtractionError}
    (hbefore : ∀ b ∈ before, ∃ found, C.extraction b = some (.ok found))
    (hc : C.extraction c = some (.error e)) (index : Nat) (table : MatchTable) :
    Offers C.hierarchy.decls (· = .error e)
      (C.bindCases union index (before ++ c :: after) table)
      (C.rejections union (C.alternativesFrom index before)) := by
  induction before generalizing index table with
  | nil =>
      refine (offers_alternatives hc).silent_bind ?_
      rintro _ rfl
      exact offers_pure rfl
  | cons b before ih =>
      obtain ⟨⟨found, hfound⟩, hbefore⟩ := List.forall_mem_cons.1 hbefore
      have halternatives : C.alternativesFrom index (b :: before) =
          Alternative.ofCase index b found ++ C.alternativesFrom (index + 1) before := by
        rw [alternativesFrom, List.zipIdx_cons, List.flatMap_cons,
          alternativesOf_of_extraction hfound]
        rfl
      rw [halternatives]
      refine (offers_alternatives hfound).silent_bind ?_
      rintro _ rfl
      refine Offers.congr ?_ (value?_rejections_append _ _)
      exact (offers_bindAll index b found table).bind fun table' _ => ih hbefore _ table'

theorem offers_expand (D : Declarations) (t : Ty) :
    Offers D (· = TypeSet.ofUnion t) (Step.expand t) (pure []) := by
  apply offers_of_yields
  intro s hs
  obtain ⟨hmembers, hvalid⟩ := hs.unions.expand t
  rw [← hmembers]
  exact ⟨_, Step.yields_askUnions.2 ⟨_, rfl, rfl⟩, ⟨hvalid, hs.fields⟩, rfl⟩

/-- How an analysis fails that is given up at an error, after some diagnostics were offered. -/
def aborted (C : Checker) (ds : List Diagnostic) (e : ExtractionError) : AnalysisFailure :=
  ⟨(((DiagnosticQueue.empty C.config.diagnostics).extend ds).add e.toDiagnostic).flush.1, ⟨⟩⟩

section Examination

variable {r : AnalysisRequest} {before after : List Case} {c : Case} {e : ExtractionError}

theorem offers_examine (hcases : r.cases = before ++ c :: after)
    (hbefore : ∀ b ∈ before, ∃ found, C.extraction b = some (.ok found))
    (hc : C.extraction c = some (.error e)) :
    Offers C.hierarchy.decls (· = .error e) (C.examine r)
      (C.rejections (TypeSet.ofUnion r.union) (C.alternativesFrom 0 before)) := by
  refine (offers_expand _ r.union).silent_bind ?_
  rintro _ rfl
  rw [hcases]
  refine (offers_bindCases hbefore hc 0 .empty).bind_silent ?_
  rintro _ rfl
  exact offers_pure rfl

/-- An analysis that is given up answers with the diagnostics of the earlier cases and the error,
and has no answer only when a question about the earlier cases has none. -/
theorem value?_analyze_of_error (hcases : r.cases = before ++ c :: after)
    (hbefore : ∀ b ∈ before, ∃ found, C.extraction b = some (.ok found))
    (hc : C.extraction c = some (.error e)) :
    (C.analyze r).value? =
      (C.rejections (TypeSet.ofUnion r.union) (C.alternativesFrom 0 before)).value?.map
        fun ds => .error (C.aborted ds e) := by
  have hrun : ((C.run r).run C.freshState).value? =
      ((C.examine r >>= conclude r).run C.freshState).value? := by
    apply Option.ext
    rintro ⟨outcome, s'⟩
    exact yields_run.trans Step.yields_bind.symm
  have hoffers := offers_examine hcases hbefore hc C.freshState (remembers_freshState C)
  rw [value?_analyze_eq, hrun, StateT.run_bind, Query.value?_bind]
  unfold Query.Alike at hoffers
  generalize ((C.examine r).run C.freshState).value? = examined at hoffers
  generalize (C.rejections (TypeSet.ofUnion r.union)
    (C.alternativesFrom 0 before)).value? = reported at hoffers
  cases hoffers with
  | none => rfl
  | @some found ds hoffered =>
      obtain ⟨result, s⟩ := found
      obtain ⟨rfl, -, hqueue⟩ := hoffered
      have hend : (conclude r (.error e)).Yields s
        (.error ⟨(s.queue.add e.toDiagnostic).flush.1, ⟨⟩⟩)
        { s with queue := (s.queue.add e.toDiagnostic).flush.2 } := rfl
      rw [hqueue] at hend
      rw [Option.bind_some, hend]
      rfl

theorem errs_toDiagnostic (e : ExtractionError) : e.toDiagnostic.Errs .unsupportedPattern := by
  unfold ExtractionError.toDiagnostic
  split
  · exact Diagnostic.errs_errorAt ..
  · exact (Diagnostic.errs_errorAt ..).withSuggestion _

/-- The error that ends an analysis is reported unless as many different errors were reported before
as the limit allows; then a note of the limit is. -/
theorem mem_aborted {ds : List Diagnostic} (hds : ∀ d ∈ ds, d.Errs .notInUnion)
    (e : ExtractionError) :
    (e.toDiagnostic ∈ (C.aborted ds e).diagnostics ↔ C.config.diagnostics.errorLimit = 0 ∨
      C.config.diagnostics.different ds < C.config.diagnostics.errorLimit) ∧
    (e.toDiagnostic ∉ (C.aborted ds e).diagnostics → ∃ place,
      .tooManyErrors C.config.diagnostics.errorLimit place ∈ (C.aborted ds e).diagnostics) := by
  have herror := errs_toDiagnostic e
  have hcode : ∀ d ∈ ds, d.code ≠ e.toDiagnostic.code := by
    intro d hd
    rw [(hds d hd).code_eq, herror.code_eq]
    exact DiagnosticCode.noConfusion
  have hlimit : e.toDiagnostic.code ≠ .tooManyErrors := by
    rw [herror.code_eq]
    exact DiagnosticCode.noConfusion
  obtain ⟨htaken, hnote⟩ := DiagnosticQueue.mem_diagnostics_add C.config.diagnostics
    herror.isError hcode hlimit
  have hflush : ∀ d, d ∈ (C.aborted ds e).diagnostics ↔ d ∈ (((DiagnosticQueue.empty
      C.config.diagnostics).extend ds).add e.toDiagnostic).diagnostics :=
    fun d => (DiagnosticQueue.flush_stable _).1.mem_iff
  have hreached := DiagnosticQueue.limitReached_extend_of_errors C.config.diagnostics
    fun d hd => (hds d hd).isError
  simp only [hflush]
  constructor
  · rw [htaken, ← Bool.not_eq_true, hreached]
    omega
  · intro hmissing
    rw [htaken, Bool.not_eq_false] at hmissing
    exact hnote hmissing

/-- An analysis whose first case without pattern types stands after some others fails, and answers
with what was reported of their alternatives and the error of that case, in the order of the
places. The error is among the diagnostics unless there is a limit and as many different errors
were reported before as it allows; then a note of the limit is. -/
theorem analyze_abort (hcases : r.cases = before ++ c :: after)
    (hbefore : ∀ b ∈ before, ∃ found, C.extraction b = some (.ok found))
    (hc : C.extraction c = some (.error e)) :
    let reported := C.rejections (TypeSet.ofUnion r.union) (C.alternativesFrom 0 before)
    let config := C.config.diagnostics
    (C.analyze r).value? = reported.value?.map (fun ds => .error (C.aborted ds e)) ∧
      ∀ ds, reported.value? = some ds →
        (e.toDiagnostic ∈ (C.aborted ds e).diagnostics ↔
          config.errorLimit = 0 ∨ config.different ds < config.errorLimit) ∧
        (e.toDiagnostic ∉ (C.aborted ds e).diagnostics →
          ∃ place, .tooManyErrors config.errorLimit place ∈ (C.aborted ds e).diagnostics) :=
  ⟨value?_analyze_of_error hcases hbefore hc, fun _ hds => mem_aborted (errs_of_rejections hds) e⟩

end Examination

/-- A case set on `str | char` with the cases `_: int` and `_*`. -/
def intThenRest : AnalysisRequest where
  union := .union (.prim .str) (.prim .char)
  cases := [anyInt, ⟨.rest default, default, none⟩]
  span := default

theorem cases_intThenRest :
    intThenRest.cases = [anyInt] ++ ⟨.rest default, default, none⟩ :: [] := rfl

/-- Why `_*` has no pattern types. -/
def restError : ExtractionError := ⟨.misplacedRest, (Pattern.rest default).span⟩

theorem extraction_anyInt (queue : QueueConfig) :
    (startingChecker.queueing queue).extraction anyInt =
      some (.ok [(anyInt.pattern, .ascription (.prim .int))]) := by
  change Option.map _ ((startingChecker.extractor.extractAlternatives anyInt.pattern).answer {}) = _
  rw [answer_anyInt]
  rfl

theorem extraction_rest (queue : QueueConfig) :
    (startingChecker.queueing queue).extraction ⟨.rest default, default, none⟩ =
      some (.error restError) := by
  change Option.map _
    ((startingChecker.extractor.extractAlternatives (.rest default)).answer {}) = _
  rw [answer_rest]
  rfl

theorem rejections_anyInt (queue : QueueConfig) : ∃ d,
    ((startingChecker.queueing queue).rejections (TypeSet.ofUnion intThenRest.union)
      ((startingChecker.queueing queue).alternativesFrom 0 [anyInt])).value? = some [d] := by
  have halternatives : (startingChecker.queueing queue).alternativesFrom 0 [anyInt] =
      [⟨0, anyInt, anyInt.pattern, .ascription (.prim .int)⟩] := by
    rw [alternativesFrom, List.zipIdx_cons, List.flatMap_cons,
      alternativesOf_of_extraction (extraction_anyInt queue)]
    rfl
  rw [halternatives]
  exact ⟨_, rfl⟩

theorem forall_extracted_anyInt (queue : QueueConfig) : ∀ b ∈ [anyInt],
    ∃ found, (startingChecker.queueing queue).extraction b = some (.ok found) := by
  intro b hb
  rw [List.mem_singleton.1 hb]
  exact ⟨_, extraction_anyInt queue⟩

/-- Below the limit the error of `_*` is reported beside that of `_: int`. -/
theorem analyze_abort_int_then_rest : ∃ failure,
    ((startingChecker.queueing ⟨2, true⟩).analyze intThenRest).value? = some (.error failure) ∧
      restError.toDiagnostic ∈ failure.diagnostics := by
  obtain ⟨d, hd⟩ := rejections_anyInt ⟨2, true⟩
  obtain ⟨hanalyze, hmem⟩ := analyze_abort cases_intThenRest (forall_extracted_anyInt _)
    (extraction_rest ⟨2, true⟩)
  rw [hd] at hanalyze
  refine ⟨_, hanalyze, (hmem [d] hd).1.2 (.inr ?_)⟩
  rw [QueueConfig.different_singleton]
  decide

/-- With a limit of one error, that of `_: int` takes the place of the error that ends the
analysis. -/
theorem exists_unnamed_cause :
    ¬ ∀ (C : Checker) (r : AnalysisRequest) (before after : List Case) (c : Case)
      (e : ExtractionError), r.cases = before ++ c :: after →
      (∀ b ∈ before, ∃ found, C.extraction b = some (.ok found)) →
      C.extraction c = some (.error e) →
      ∀ outcome, (C.analyze r).value? = some outcome →
        ∃ failure, outcome = .error failure ∧ e.toDiagnostic ∈ failure.diagnostics := by
  intro h
  obtain ⟨d, hd⟩ := rejections_anyInt ⟨1, true⟩
  have hanalyze := value?_analyze_of_error cases_intThenRest (forall_extracted_anyInt _)
    (extraction_rest ⟨1, true⟩)
  rw [hd, Option.map_some] at hanalyze
  obtain ⟨failure, heq, hmem⟩ := h _ _ _ _ _ _ cases_intThenRest
    (forall_extracted_anyInt _) (extraction_rest ⟨1, true⟩) _ hanalyze
  obtain rfl := Except.error.inj heq
  rcases (mem_aborted (errs_of_rejections hd) restError).1.1 hmem with hzero | hbelow
  · exact absurd hzero (by decide)
  · rw [QueueConfig.different_singleton] at hbelow
    exact absurd hbelow (by decide)

end Checker

end CaseCover
