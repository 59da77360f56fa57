import CaseCover.Proofs.Analysis.Violations
import CaseCover.Proofs.Diagnostic.Queue
import CaseCover.Proofs.Pattern.Remembered

/-!
What each step of an analysis reports. A step offers its diagnostics to whatever queue there
is and never looks at the queue, and there is an error among them exactly when the part of
the case set that the step is about has a violation (`Step.Reports`). Reports of composed
steps are put one after another (`Reports.bind`), so what a whole analysis reports is put
together from its steps.
-/

namespace CaseCover

namespace Diagnostic

/-- A diagnostic is an error of a code. -/
structure Errs (d : Diagnostic) (code : DiagnosticCode) : Prop where
  code_eq : d.code = code
  severity_eq : d.severity = .error

variable {d : Diagnostic} {code : DiagnosticCode}

theorem Errs.isError (hd : d.Errs code) : d.isError = true := by
  rw [Diagnostic.isError, hd.severity_eq]
  rfl

theorem Errs.graded (hd : d.Errs code) (hcode : code.isAdvice = false) : d.Graded := by
  rw [Graded, hd.isError, hd.code_eq, hcode]
  rfl

theorem errs_errorAt (code : DiagnosticCode) (message : String) (span : Span)
    (label : String) : (errorAt code message span label).Errs code :=
  ⟨rfl, rfl⟩

theorem Errs.withNote (hd : d.Errs code) (note : String) : (d.withNote note).Errs code :=
  ⟨hd.code_eq, hd.severity_eq⟩

theorem Errs.withSuggestion (hd : d.Errs code) (suggestion : String) :
    (d.withSuggestion suggestion).Errs code :=
  ⟨hd.code_eq, hd.severity_eq⟩

/-- What is added to an error leaves it one. -/
theorem Errs.foldl {α : Type} {f : Diagnostic → α → Diagnostic}
    (hf : ∀ {d : Diagnostic} a, d.Errs code → (f d a).Errs code) (hd : d.Errs code)
    (as : List α) : (as.foldl f d).Errs code := by
  induction as generalizing d with
  | nil => exact hd
  | cons a as ih => exact ih (hf a hd)

theorem errs_uncovered (D : Declarations) (uncovered : List Ty) (span : Span) :
    (Checker.uncoveredDiagnostic D uncovered span).Errs .uncoveredMembers := by
  unfold Checker.uncoveredDiagnostic
  exact (errs_errorAt ..).withSuggestion _

theorem errs_notExhaustive (C : Checker) (name : String) (results : List MatchResult)
    (span : Span) (texts : List String) (note : Option String) :
    (C.notExhaustiveDiagnostic name results span texts note).Errs .notExhaustive := by
  unfold Checker.notExhaustiveDiagnostic
  extract_lets message related base labelled noted
  have hbase : base.Errs .notExhaustive := errs_errorAt ..
  have hlabelled : labelled.Errs .notExhaustive :=
    hbase.foldl (f := related) (fun _ hd => ⟨hd.code_eq, hd.severity_eq⟩) results
  have hnoted : noted.Errs .notExhaustive :=
    hlabelled.foldl (fun note hd => hd.withNote note) note.toList
  split
  · exact hnoted.withNote _
  · exact hnoted

end Diagnostic

/-- What is remembered of unions and fields is right. -/
structure SessionState.Remembers (s : SessionState) (D : Declarations) : Prop where
  unions : s.unions.Valid
  fields : s.fields.Valid D

namespace Step

variable {α β : Type} {D : Declarations} {s s' s'' : SessionState} {P Q : Prop}

/-- In a state, a step answers `a` whatever the queue, leaves right memories and offers the
queue diagnostics, with an error among them exactly when `P` holds. -/
structure Reports (D : Declarations) (m : Step α) (s : SessionState) (a : α)
    (s' : SessionState) (P : Prop) : Prop where
  remembers : s'.Remembers D
  offered : ∃ ds : List Diagnostic, (∀ d ∈ ds, d.Graded) ∧
    ((∃ d ∈ ds, d.isError = true) ↔ P) ∧
    ∀ queue, m.Yields { s with queue } a { s' with queue := queue.extend ds }

theorem Reports.congr {m : Step α} {a : α} (hm : Reports D m s a s' P) (hPQ : P ↔ Q) :
    Reports D m s a s' Q :=
  ⟨hm.remembers, hm.offered.imp fun _ h => ⟨h.1, h.2.1.trans hPQ, h.2.2⟩⟩

/-- Steps one after another report what each of them does. -/
theorem Reports.bind {m : Step α} {f : α → Step β} {a : α} {b : β}
    (hm : Reports D m s a s' P) (hf : Reports D (f a) s' b s'' Q) :
    Reports D (m >>= f) s b s'' (P ∨ Q) := by
  obtain ⟨first, hfirst, hP, hm⟩ := hm.offered
  obtain ⟨later, hlater, hQ, hnext⟩ := hf.offered
  refine ⟨hf.remembers, first ++ later, fun d hd => ?_, ?_, fun queue => ?_⟩
  · exact (List.mem_append.1 hd).elim (hfirst d) (hlater d)
  · rw [← hP, ← hQ]
    simp only [List.mem_append, or_and_right, exists_or]
  · rw [DiagnosticQueue.extend_append]
    exact yields_bind.2 ⟨a, _, hm queue, hnext _⟩

theorem Reports.silent_bind {m : Step α} {f : α → Step β} {a : α} {b : β}
    (hm : Reports D m s a s' False) (hf : Reports D (f a) s' b s'' Q) :
    Reports D (m >>= f) s b s'' Q :=
  (hm.bind hf).congr (iff_of_eq (false_or Q))

/-- A step that leaves the queue alone. -/
theorem reports_of_silent {m : Step α} {a : α} (hs' : s'.Remembers D)
    (hm : ∀ queue, m.Yields { s with queue } a { s' with queue }) :
    Reports D m s a s' False :=
  ⟨hs', [], nofun, ⟨fun ⟨_, hd, _⟩ => List.not_mem_nil hd, False.elim⟩, hm⟩

theorem reports_pure (hs : s.Remembers D) (a : α) :
    Reports D (pure a : Step α) s a s False :=
  reports_of_silent hs fun _ => yields_pure.2 ⟨rfl, rfl⟩

theorem reports_ask (hs : s.Remembers D) {q : Query α} {a : α} (ha : q.value? = some a) :
    Reports D (ask q) s a s False :=
  reports_of_silent hs fun _ => yields_ask.2 ⟨ha, rfl⟩

theorem reports_askUnions (hs : s.Remembers D) {q : UnionCache → Query (α × UnionCache)}
    {a : α} {unions : UnionCache} (ha : (q s.unions).value? = some (a, unions))
    (hvalid : unions.Valid) : Reports D (askUnions q) s a { s with unions } False :=
  reports_of_silent ⟨hvalid, hs.fields⟩ fun _ => yields_askUnions.2 ⟨unions, ha, rfl⟩

theorem reports_report (hs : s.Remembers D) {d : Diagnostic} (hd : d.Graded) :
    Reports D (report d) s () { s with queue := s.queue.add d } (d.isError = true) :=
  ⟨⟨hs.unions, hs.fields⟩, [d], fun e he => List.mem_singleton.1 he ▸ hd, by simp,
    fun _ => yields_report.2 rfl⟩

/-- A step that reports one error. -/
theorem reports_error (hs : s.Remembers D) {d : Diagnostic} (hd : d.Graded)
    (herror : d.isError = true) :
    Reports D (report d) s () { s with queue := s.queue.add d } True :=
  (reports_report hs hd).congr (iff_of_true herror trivial)

/-- Expanding a union answers its members. -/
theorem reports_expand (hs : s.Remembers D) {t : Ty} {members : TypeSet}
    (h : (expand t).Yields s members s') :
    members = TypeSet.ofUnion t ∧ Reports D (expand t) s members s' False := by
  obtain ⟨unions, hunions, rfl⟩ := yields_askUnions.1 h
  obtain ⟨hmembers, hvalid⟩ := hs.unions.expand t
  have hpair : s.unions.expand t = (members, unions) := Option.some.inj hunions
  rw [hpair] at hmembers hvalid
  exact ⟨hmembers, reports_askUnions hs hunions hvalid⟩

end Step

/-- Every member that a table knows has results. -/
def MatchTable.Filled (table : MatchTable) : Prop :=
  ∀ member, table.contains member = true ↔ table.get member ≠ []

namespace MatchTable

theorem filled_empty : empty.Filled := fun member => by simp [empty, contains, get]

theorem contains_addTo (r : MatchResult) (groups : List (Ty × List MatchResult))
    (member : Ty) : ((addTo r groups).lookup member).isSome =
      (decide (r.member = member) || (groups.lookup member).isSome) := by
  induction groups with
  | nil =>
      by_cases h : r.member = member
      · simp [addTo, h]
      · have hne : (member == r.member) = false := by simpa using Ne.symm h
        simp [addTo, h, List.lookup_cons, hne]
  | cons group groups ih =>
      obtain ⟨m, results⟩ := group
      by_cases hm : m = r.member
      · subst hm
        by_cases h : r.member = member
        · subst h
          simp [addTo]
        · have hne : (member == r.member) = false := by simpa using Ne.symm h
          simp [addTo, h, List.lookup_cons, hne]
      · by_cases h : member = m
        · subst h
          simp [addTo, hm]
        · have hne : (member == m) = false := by simpa using h
          simpa [addTo, hm, List.lookup_cons, hne] using ih

theorem Filled.add {table : MatchTable} (htable : table.Filled) (r : MatchResult) :
    (table.add r).Filled := by
  intro member
  have hcontains : (table.add r).contains member =
      (decide (r.member = member) || table.contains member) := contains_addTo r _ member
  rw [get_add, hcontains]
  by_cases h : r.member = member
  · simp [h]
  · simpa [h] using htable member

theorem Filled.record {table : MatchTable} (htable : table.Filled) (a : Alternative)
    (members : List Ty) : (a.record members table).Filled := by
  induction members generalizing table with
  | nil => exact htable
  | cons m members ih => exact ih (htable.add (a.result m))

end MatchTable

namespace Checker

open Step (Reports)

variable {C : Checker} {s s' : SessionState} {union : Ty}

/-- An alternative that is comparable with no member is an error unless it is part of the
union. -/
theorem reports_reject (hs : s.Remembers C.hierarchy.decls) {t : Ty} {target : TypeSet}
    (diagnostic : Mismatch → Diagnostic)
    (hdiagnostic : ∀ mismatch, (diagnostic mismatch).Errs .notInUnion) {table table' : MatchTable}
    {reject : Step MatchTable}
    (hreject : reject = do
      match ← Step.askUnions fun cache => C.hierarchy.partOf cache t target with
      | none => return table
      | some mismatch =>
        Step.report (diagnostic mismatch)
        return table)
    (h : reject.Yields s table' s') :
    table' = table ∧
      Reports C.hierarchy.decls reject s table' s' (¬ C.hierarchy.decls.PartOf t target) := by
  subst hreject
  obtain ⟨result, _, hunions, hreport⟩ := Step.yields_bind.1 h
  obtain ⟨unions, hpart, rfl⟩ := Step.yields_askUnions.1 hunions
  obtain ⟨hvalid, hresult⟩ := Hierarchy.partOf_sound hs.unions hpart
  have hremembers : SessionState.Remembers { s with unions } C.hierarchy.decls :=
    ⟨hvalid, hs.fields⟩
  have hasked := Step.reports_askUnions
    (q := fun cache => C.hierarchy.partOf cache t target) hs hpart hvalid
  rw [← hresult]
  cases result with
  | none =>
      obtain ⟨rfl, rfl⟩ := Step.yields_pure.1 hreport
      refine ⟨rfl, hasked.silent_bind ?_⟩
      exact (Step.reports_pure hremembers table').congr (by simp)
  | some mismatch =>
      obtain ⟨_, _, hreported, hdone⟩ := Step.yields_bind.1 hreport
      obtain rfl := Step.yields_report.1 hreported
      obtain ⟨rfl, rfl⟩ := Step.yields_pure.1 hdone
      have hd := hdiagnostic mismatch
      have herror := Step.reports_error hremembers (hd.graded rfl) hd.isError
      refine ⟨rfl, hasked.silent_bind ?_⟩
      exact (herror.bind (Step.reports_pure herror.remembers table')).congr (by simp)

/-- Binding an alternative reports an error exactly when it can never match. -/
theorem reports_bind (hs : s.Remembers C.hierarchy.decls) {index : Nat} {c : Case}
    {p : Pattern × PatternType} {table table' : MatchTable} (htable : table.Filled)
    (h : (C.bind (TypeSet.ofUnion union) index c p table).Yields s table' s') :
    Reports C.hierarchy.decls (C.bind (TypeSet.ofUnion union) index c p table) s table' s'
      (C.hierarchy.decls.Foreign union p.2) ∧ table'.Filled := by
  unfold bind at h ⊢
  obtain ⟨members, s, hask, hrecord⟩ := Step.yields_bind.1 h
  obtain ⟨hmembers, rfl⟩ := Step.yields_ask.1 hask
  obtain ⟨hmatched, hcompatible⟩ := membersMatched_eq hmembers
  have hcompare : ∀ m, m ∈ members ↔ m ∈ (TypeSet.ofUnion union).members ∧
      C.hierarchy.decls.Compatible p.2 m := by
    intro m
    rw [hmatched, List.mem_filter]
    exact and_congr_right (hcompatible m)
  have hasked := Step.reports_ask hs hmembers
  by_cases hempty : members.isEmpty = true
  · rw [if_pos hempty] at hrecord
    obtain ⟨rfl, hreject⟩ := reports_reject hs
      (fun mismatch => (mismatch.toDiagnostic C.hierarchy.decls .notInUnion
        p.1.span).withNote ("case " ++ toString (index + 1) ++ " can never match"))
      (fun mismatch => (Diagnostic.errs_errorAt ..).withNote _) rfl hrecord
    have hforeign : C.hierarchy.decls.Foreign union p.2 ↔
        ¬ C.hierarchy.decls.PartOf p.2.ty (TypeSet.ofUnion union) := by
      have hnone : ∀ m ∈ (TypeSet.ofUnion union).members,
          ¬ C.hierarchy.decls.Compatible p.2 m := by
        intro m hm hcompatible
        have hin := (hcompare m).2 ⟨hm, hcompatible⟩
        rw [List.isEmpty_iff.1 hempty] at hin
        exact List.not_mem_nil hin
      refine ⟨fun h => h.outside, fun houtside => ⟨?_, fun m hm => ?_, houtside⟩⟩
      · obtain ⟨m, hm⟩ := TypeSet.exists_mem_ofUnion union
        rw [← Bool.not_eq_true]
        exact fun hcatch => hnone m hm (.inl hcatch)
      · exact not_or.1 fun hbelow => hnone m hm (.inr hbelow)
    refine ⟨hasked.silent_bind ?_, htable⟩
    rw [if_pos hempty]
    exact hreject.congr hforeign.symm
  · rw [if_neg hempty] at hrecord
    obtain ⟨rfl, rfl⟩ := Step.yields_pure.1 hrecord
    have hnot : ¬ C.hierarchy.decls.Foreign union p.2 := by
      intro hforeign
      obtain ⟨m, hm⟩ := List.exists_mem_of_ne_nil members (by simpa using hempty)
      obtain ⟨hm, hcompatible⟩ := (hcompare m).1 hm
      rcases hcompatible with hcatch | hbelow
      · exact nomatch hcatch.symm.trans hforeign.constrained
      · exact not_or.2 (hforeign.incomparable m hm) hbelow
    refine ⟨hasked.silent_bind ?_, ?_⟩
    · rw [if_neg hempty]
      exact (Step.reports_pure hs _).congr (iff_of_false not_false hnot)
    · exact htable.record ⟨index, c, p.1, p.2⟩ members

theorem reports_bindAll (hs : s.Remembers C.hierarchy.decls) {index : Nat} {c : Case}
    {found : List (Pattern × PatternType)} {table table' : MatchTable} (htable : table.Filled)
    (h : (C.bindAll (TypeSet.ofUnion union) index c found table).Yields s table' s') :
    Reports C.hierarchy.decls (C.bindAll (TypeSet.ofUnion union) index c found table) s table' s'
      (∃ a ∈ found, C.hierarchy.decls.Foreign union a.2) ∧ table'.Filled := by
  induction found generalizing table s with
  | nil =>
      obtain ⟨rfl, rfl⟩ := Step.yields_pure.1 h
      exact ⟨(Step.reports_pure hs _).congr (by simp), htable⟩
  | cons p found ih =>
      obtain ⟨between, s₁, hfirst, hrest⟩ := Step.yields_bind.1 h
      obtain ⟨hreports, hbetween⟩ := reports_bind hs htable hfirst
      obtain ⟨hlater, htable'⟩ := ih hreports.remembers hbetween hrest
      exact ⟨(hreports.bind hlater).congr (by simp), htable'⟩

/-- The pattern types of a case are found as with nothing remembered. -/
theorem reports_alternatives (hs : s.Remembers C.hierarchy.decls) {c : Case}
    {result : Except ExtractionError (List (Pattern × PatternType))}
    (h : (C.alternatives c).Yields s result s') :
    C.extraction c = some result ∧
      Reports C.hierarchy.decls (C.alternatives c) s result s' False := by
  obtain ⟨fields, hanswer, rfl⟩ := yields_alternatives.1 h
  have hindifferent := C.extractor.indifferent_extractAlternatives c.pattern
  obtain ⟨hvalid, hfound⟩ := hindifferent.answer_empty hs.fields hanswer
  refine ⟨hfound, Step.reports_of_silent ⟨hs.unions, hvalid⟩ fun queue => ?_⟩
  exact yields_alternatives.2 ⟨fields, hanswer, rfl⟩

/-- What binding cases says about them: that one has no pattern types, or that all have and
whether an alternative can never match. -/
inductive Binds (C : Checker) (union : Ty) (cases : List Case) (P : Prop) :
    Except ExtractionError MatchTable → Prop
  | error {c : Case} {e : ExtractionError} (hc : c ∈ cases)
      (he : C.extraction c = some (.error e)) : C.Binds union cases P (.error e)
  | ok {table : MatchTable} (filled : table.Filled)
      (extracted : ∀ c ∈ cases, ∃ found, C.extraction c = some (.ok found))
      (foreign : P ↔ ∃ c ∈ cases, ∃ a ∈ C.alternativesOf c,
        C.hierarchy.decls.Foreign union a.2) : C.Binds union cases P (.ok table)

theorem reports_bindCases (hs : s.Remembers C.hierarchy.decls) {index : Nat}
    {cases : List Case} {table : MatchTable} (htable : table.Filled)
    {result : Except ExtractionError MatchTable}
    (h : (C.bindCases (TypeSet.ofUnion union) index cases table).Yields s result s') :
    ∃ P, Reports C.hierarchy.decls (C.bindCases (TypeSet.ofUnion union) index cases table) s
      result s' P ∧ C.Binds union cases P result := by
  induction cases generalizing index table s with
  | nil =>
      obtain ⟨rfl, rfl⟩ := Step.yields_pure.1 h
      exact ⟨False, Step.reports_pure hs _, .ok htable (by simp) (by simp)⟩
  | cons c rest ih =>
      obtain ⟨found, s₁, hextract, hbind⟩ := Step.yields_bind.1 h
      obtain ⟨hfound, hreports⟩ := reports_alternatives hs hextract
      cases found with
      | error e =>
          obtain ⟨rfl, rfl⟩ := Step.yields_pure.1 hbind
          refine ⟨False, hreports.silent_bind ?_, .error List.mem_cons_self hfound⟩
          exact Step.reports_pure hreports.remembers _
      | ok found =>
          obtain ⟨between, s₂, hfirst, hrest⟩ := Step.yields_bind.1 hbind
          obtain ⟨hbound, hbetween⟩ := reports_bindAll hreports.remembers htable hfirst
          obtain ⟨P, hlater, hbinds⟩ := ih hbound.remembers hbetween hrest
          refine ⟨_, hreports.silent_bind (hbound.bind hlater), ?_⟩
          cases hbinds with
          | error hc he => exact .error (List.mem_cons_of_mem c hc) he
          | ok filled extracted foreign =>
              refine .ok filled ?_ ?_
              · intro c' hc'
                rcases List.mem_cons.1 hc' with rfl | hc'
                · exact ⟨found, hfound⟩
                · exact extracted c' hc'
              · simp [foreign, alternativesOf_of_extraction hfound]

theorem any_comparable_iff {m : Ty} {wanted : List Ty} {r : Bool}
    (hr : (Query.any (C.comparable m) wanted).value? = some r) :
    r = true ↔ ∃ w ∈ wanted, C.hierarchy.decls.Below m w ∨ C.hierarchy.decls.Below w m := by
  obtain ⟨hexists, hall⟩ := Query.value?_any_eq_some hr
  cases r with
  | true =>
      obtain ⟨w, hw, hpass⟩ := hexists rfl
      exact iff_of_true rfl ⟨w, hw, (comparable_iff hpass).1 rfl⟩
  | false =>
      refine iff_of_false Bool.false_ne_true ?_
      rintro ⟨w, hw, hbelow⟩
      exact Bool.false_ne_true ((comparable_iff (hall rfl w hw)).2 hbelow)

/-- The members of a union that are comparable with a member of a part. -/
theorem reports_wanted (hs : s.Remembers C.hierarchy.decls) {part : Ty} {required : List Ty}
    {wanted : Step (List Ty)}
    (hwanted : wanted = do
      let wanted ← Step.expand part
      Step.ask (Query.filter (fun member => Query.any (C.comparable member) wanted.members)
        (TypeSet.ofUnion union).members))
    (h : wanted.Yields s required s') :
    (∀ m, m ∈ required ↔ m ∈ (TypeSet.ofUnion union).members ∧
      ∃ w ∈ (TypeSet.ofUnion part).members,
        C.hierarchy.decls.Below m w ∨ C.hierarchy.decls.Below w m) ∧
      Reports C.hierarchy.decls wanted s required s' False := by
  subst hwanted
  obtain ⟨found, s₁, hexpand, hask⟩ := Step.yields_bind.1 h
  obtain ⟨rfl, hreports⟩ := Step.reports_expand hs hexpand
  obtain ⟨hrequired, rfl⟩ := Step.yields_ask.1 hask
  refine ⟨fun m => ?_, hreports.silent_bind (Step.reports_ask hreports.remembers hrequired)⟩
  obtain ⟨hanswered, hfilter⟩ := Query.value?_filter_eq_some hrequired
  rw [hfilter, List.mem_filter]
  refine and_congr_right fun hm => ?_
  obtain ⟨b, hb⟩ := hanswered m hm
  rw [hb, ← any_comparable_iff hb]
  simp

/-- The required members are found, with an error exactly when the required part is not
contained in the union. -/
theorem reports_requiredMembers (hs : s.Remembers C.hierarchy.decls) {r : AnalysisRequest}
    {required : List Ty}
    (h : (C.requiredMembers r (TypeSet.ofUnion r.union)).Yields s required s') :
    (∀ m, m ∈ required ↔ C.hierarchy.decls.Required r m) ∧
      Reports C.hierarchy.decls (C.requiredMembers r (TypeSet.ofUnion r.union)) s required s'
        (∃ part, r.required = some part ∧
          ¬ C.hierarchy.decls.PartOf part (TypeSet.ofUnion r.union)) := by
  unfold requiredMembers at h ⊢
  unfold Declarations.Required
  cases hpart : r.required with
  | none =>
      simp only [hpart] at h ⊢
      obtain ⟨rfl, rfl⟩ := Step.yields_pure.1 h
      exact ⟨by simp, (Step.reports_pure hs _).congr (by simp)⟩
  | some part =>
      simp only [hpart, Option.some.injEq, forall_eq', exists_eq_left'] at h ⊢
      obtain ⟨result, _, hunions, hrest⟩ := Step.yields_bind.1 h
      obtain ⟨unions, hcontains, rfl⟩ := Step.yields_askUnions.1 hunions
      obtain ⟨hvalid, hresult⟩ := Hierarchy.containsAll_sound hs.unions hcontains
      have hremembers : SessionState.Remembers { s with unions } C.hierarchy.decls :=
        ⟨hvalid, hs.fields⟩
      have hasked := Step.reports_askUnions
        (q := fun cache => C.hierarchy.containsAll cache r.union part) hs hcontains hvalid
      rw [← hresult]
      cases result with
      | none =>
          obtain ⟨hrequired, hreports⟩ := reports_wanted hremembers rfl hrest
          refine ⟨hrequired, hasked.silent_bind ?_⟩
          exact hreports.congr (by simp)
      | some mismatch =>
          obtain ⟨_, _, hreported, hrest⟩ := Step.yields_bind.1 hrest
          obtain rfl := Step.yields_report.1 hreported
          have herrs := Diagnostic.errs_errorAt .notContained
            (mismatch.message C.hierarchy.decls) r.span mismatch.label
          have herror := Step.reports_error hremembers (herrs.graded rfl) herrs.isError
          obtain ⟨hrequired, hreports⟩ := reports_wanted herror.remembers rfl hrest
          refine ⟨hrequired, hasked.silent_bind ?_⟩
          exact (herror.bind hreports).congr (by simp)

/-- Required members that no case touches are an error. -/
theorem reports_checkCoverage (hs : s.Remembers C.hierarchy.decls) {required : List Ty}
    {table : MatchTable} (htable : table.Filled) {span : Span}
    (h : (C.checkCoverage required table span).Yields s () s') :
    Reports C.hierarchy.decls (C.checkCoverage required table span) s () s'
      (∃ m ∈ required, table.get m = []) := by
  unfold checkCoverage at h ⊢
  extract_lets uncovered at h
  extract_lets at ⊢
  have huncovered : uncovered = [] ↔ ¬ ∃ m ∈ required, table.get m = [] := by
    simp only [uncovered, List.filter_eq_nil_iff, Bool.not_eq_true', Bool.not_eq_false,
      htable _]
    simp
  by_cases hempty : uncovered.isEmpty = true
  · rw [if_pos hempty] at h ⊢
    obtain ⟨-, rfl⟩ := Step.yields_pure.1 h
    exact (Step.reports_pure hs _).congr
      (iff_of_false not_false (huncovered.1 (List.isEmpty_iff.1 hempty)))
  · rw [if_neg hempty] at h ⊢
    obtain rfl := Step.yields_report.1 h
    have herrs := Diagnostic.errs_uncovered C.hierarchy.decls uncovered span
    refine (Step.reports_error hs (herrs.graded rfl) herrs.isError).congr ?_
    refine iff_of_true trivial ?_
    rw [List.isEmpty_iff, huncovered, not_not] at hempty
    exact hempty

/-- What the results for a member prove about it. -/
def proofsIn (C : Checker) (results : List MatchResult) : List (Pattern × PatternType) :=
  (C.evidence results).map fun r => (r.alternative, r.patternType)

/-- A member is an error exactly when its check finds values missing. -/
theorem reports_checkMember (hs : s.Remembers C.hierarchy.decls) {member : Ty}
    {results : List MatchResult} {span : Span}
    (h : (C.checkMember member results span).Yields s () s') :
    ∃ coverage, (C.check member (C.proofsIn results)).value? = some coverage ∧
      Reports C.hierarchy.decls (C.checkMember member results span) s () s'
        (∃ texts note, coverage = .missing texts note) := by
  unfold checkMember at h ⊢
  obtain ⟨coverage, s, hask, hreport⟩ := Step.yields_bind.1 h
  obtain ⟨hcoverage, rfl⟩ := Step.yields_ask.1 hask
  refine ⟨coverage, hcoverage, (Step.reports_ask hs hcoverage).silent_bind ?_⟩
  cases coverage with
  | covered =>
      obtain ⟨-, rfl⟩ := Step.yields_pure.1 hreport
      exact (Step.reports_pure hs _).congr (by simp)
  | missing texts note =>
      obtain rfl := Step.yields_report.1 hreport
      have herrs := Diagnostic.errs_notExhaustive C (C.hierarchy.decls.render member) results
        span texts note
      exact (Step.reports_error hs (herrs.graded rfl) herrs.isError).congr (by simp)
  | inconclusive limit =>
      obtain rfl := Step.yields_report.1 hreport
      have hgraded : (C.notVerifiedDiagnostic (C.hierarchy.decls.render member) span
          limit).Graded := by
        cases limit <;> rfl
      refine (Step.reports_report hs hgraded).congr (iff_of_false ?_ (by simp))
      exact Bool.false_ne_true

theorem reports_checkMembers (hs : s.Remembers C.hierarchy.decls) {table : MatchTable}
    {span : Span} {members : List Ty}
    (h : (C.checkMembers table span members).Yields s () s') :
    (∀ m ∈ members, table.get m ≠ [] →
      ∃ coverage, (C.check m (C.proofsIn (table.get m))).value? = some coverage) ∧
    Reports C.hierarchy.decls (C.checkMembers table span members) s () s'
      (∃ m ∈ members, table.get m ≠ [] ∧ ∃ texts note,
        (C.check m (C.proofsIn (table.get m))).value? = some (.missing texts note)) := by
  induction members generalizing s with
  | nil =>
      obtain ⟨-, rfl⟩ := Step.yields_pure.1 h
      exact ⟨by simp, (Step.reports_pure hs _).congr (by simp)⟩
  | cons m members ih =>
      unfold checkMembers at h ⊢
      extract_lets results at h
      extract_lets at ⊢
      by_cases hempty : results.isEmpty = true
      · rw [if_pos hempty] at h ⊢
        obtain ⟨hanswered, hreports⟩ := ih hs h
        have hnone : table.get m = [] := List.isEmpty_iff.1 hempty
        refine ⟨?_, hreports.congr (by simp [hnone])⟩
        simpa [hnone] using hanswered
      · rw [if_neg hempty] at h ⊢
        obtain ⟨_, s₁, hfirst, hrest⟩ := Step.yields_bind.1 h
        obtain ⟨coverage, hcoverage, hchecked⟩ := reports_checkMember hs hfirst
        obtain ⟨hanswered, hreports⟩ := ih hchecked.remembers hrest
        have hsome : table.get m ≠ [] := fun hnone => hempty (List.isEmpty_iff.2 hnone)
        have hmissing : (∃ texts note, coverage = .missing texts note) ↔
            ∃ texts note, (C.check m (C.proofsIn (table.get m))).value? =
              some (.missing texts note) := by
          rw [hcoverage]
          simp
        refine ⟨?_, (hchecked.bind hreports).congr ?_⟩
        · intro m' hm' hsome'
          rcases List.mem_cons.1 hm' with rfl | hm'
          · exact ⟨coverage, hcoverage⟩
          · exact hanswered m' hm' hsome'
        · rw [hmissing, List.exists_mem_cons_iff, and_iff_right hsome]

/-- What a check of the required members reports, and which questions it has answered. -/
theorem reports_checkTotal (hs : s.Remembers C.hierarchy.decls) {r : AnalysisRequest}
    {table : MatchTable} (htable : table.Filled)
    (h : (C.checkTotal r (TypeSet.ofUnion r.union) table).Yields s () s') :
    (∀ m, C.hierarchy.decls.Required r m → table.get m ≠ [] →
      ∃ coverage, (C.check m (C.proofsIn (table.get m))).value? = some coverage) ∧
    Reports C.hierarchy.decls (C.checkTotal r (TypeSet.ofUnion r.union) table) s () s'
      ((∃ part, r.required = some part ∧
          ¬ C.hierarchy.decls.PartOf part (TypeSet.ofUnion r.union)) ∨
        (∃ m, C.hierarchy.decls.Required r m ∧ table.get m = []) ∨
        ∃ m, C.hierarchy.decls.Required r m ∧ table.get m ≠ [] ∧ ∃ texts note,
          (C.check m (C.proofsIn (table.get m))).value? = some (.missing texts note)) := by
  obtain ⟨required, s₁, hfirst, h⟩ := Step.yields_bind.1 h
  obtain ⟨hrequired, hreports⟩ := reports_requiredMembers hs hfirst
  obtain ⟨_, s₂, htouched, hcovered⟩ := Step.yields_bind.1 h
  have huntouched := reports_checkCoverage hreports.remembers htable htouched
  obtain ⟨hanswered, huncovered⟩ := reports_checkMembers huntouched.remembers hcovered
  simp only [hrequired] at hanswered huntouched huncovered
  exact ⟨hanswered, hreports.bind (huntouched.bind huncovered)⟩

end Checker

end CaseCover
