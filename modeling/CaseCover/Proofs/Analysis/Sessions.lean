import CaseCover.Proofs.Analysis.Verdict

/-!
Sessions. What a session remembers of unions and fields is what would be found anew, and an
analysis ends with an empty queue however it ends; so each analysis of a session is the one
that would be made on its own (`session_forgets`). A step is indifferent when, in two states
that remember right things and have the same queue, it answers the same and leaves two such
states again (`Step.Indifferent`), and a composed step is when its parts are.
-/

namespace CaseCover

/-- Two states that remember right things and have the same queue. -/
structure SessionState.Agrees (D : Declarations) (s s' : SessionState) : Prop where
  left : s.Remembers D
  right : s'.Remembers D
  queue : s.queue = s'.queue

/-- The answer to a question about unions does not depend on the right expansions that are
remembered. -/
def UnionCache.Indifferent {α : Type} (q : UnionCache → Query (α × UnionCache)) : Prop :=
  ∀ cache cache' : UnionCache, cache.Valid → cache'.Valid →
    Query.Alike (fun r r' => r.1 = r'.1 ∧ r.2.Valid ∧ r'.2.Valid) (q cache) (q cache')

namespace UnionCache

theorem indifferent_expand (t : Ty) : Indifferent fun cache => pure (cache.expand t) := by
  intro cache cache' hcache hcache'
  obtain ⟨hmembers, hvalid⟩ := hcache.expand t
  obtain ⟨hmembers', hvalid'⟩ := hcache'.expand t
  exact Query.alike_pure ⟨hmembers.trans hmembers'.symm, hvalid, hvalid'⟩

theorem indifferent_partOf (H : Hierarchy) (t : Ty) (target : TypeSet) :
    Indifferent fun cache => H.partOf cache t target := by
  intro cache cache' hcache hcache'
  obtain ⟨hmembers, hvalid⟩ := hcache.expand t
  obtain ⟨hmembers', hvalid'⟩ := hcache'.expand t
  have hsame : (H.mismatch? (cache.expand t).1 target).value? =
      (H.mismatch? (cache'.expand t).1 target).value? := by rw [hmembers, hmembers']
  refine (Query.alike_of_value?_eq (R := Eq) hsame fun _ _ => rfl).bind ?_
  rintro found _ rfl
  exact Query.alike_pure ⟨rfl, hvalid, hvalid'⟩

theorem indifferent_containsAll (H : Hierarchy) (superset subset : Ty) :
    Indifferent fun cache => H.containsAll cache superset subset := by
  intro cache cache' hcache hcache'
  obtain ⟨hmembers, hvalid⟩ := hcache.expand superset
  obtain ⟨hmembers', hvalid'⟩ := hcache'.expand superset
  change Query.Alike _ (H.partOf (cache.expand superset).2 subset (cache.expand superset).1)
    (H.partOf (cache'.expand superset).2 subset (cache'.expand superset).1)
  rw [hmembers, hmembers']
  exact indifferent_partOf H subset _ _ _ hvalid hvalid'

end UnionCache

namespace Step

variable {α β : Type} {D : Declarations}

/-- In states that agree, a step answers the same and leaves states that agree. -/
def Indifferent (D : Declarations) (m : Step α) : Prop :=
  ∀ s s' : SessionState, s.Agrees D s' →
    Query.Alike (fun r r' => r.1 = r'.1 ∧ r.2.Agrees D r'.2) (m.run s) (m.run s')

theorem indifferent_pure (a : α) : Indifferent D (pure a) :=
  fun _ _ h => Query.alike_pure ⟨rfl, h⟩

theorem Indifferent.bind {m : Step α} {f : α → Step β} (hm : Indifferent D m)
    (hf : ∀ a, Indifferent D (f a)) : Indifferent D (m >>= f) := by
  intro s s' h
  rw [StateT.run_bind, StateT.run_bind]
  refine (hm s s' h).bind ?_
  rintro ⟨a, t⟩ ⟨_, t'⟩ ⟨rfl, hagrees⟩
  exact hf a t t' hagrees

/-- A question that is asked in two states has related answers when the questions have. -/
theorem alike_run_ask {R : α → β → Prop} {q : Query α} {q' : Query β} (hq : q.Alike R q')
    (s s' : SessionState) :
    Query.Alike (fun r r' => R r.1 r'.1 ∧ r.2 = s ∧ r'.2 = s') ((ask q).run s)
      ((ask q').run s') := by
  have hleft : Query.Alike (fun r b => R r.1 b ∧ r.2 = s) ((ask q).run s) q' :=
    hq.map_left (value?_run_ask q s) fun _ _ hab => ⟨hab, rfl⟩
  exact hleft.map_right (value?_run_ask q' s') fun _ _ h => ⟨h.1, h.2, rfl⟩

theorem indifferent_ask (q : Query α) : Indifferent D (ask q) := by
  intro s s' h
  refine (alike_run_ask (Query.alike_self q) s s').imp ?_
  rintro ⟨a, _⟩ ⟨_, _⟩ ⟨rfl, rfl, rfl⟩
  exact ⟨rfl, h⟩

/-- A step that goes on from a part of the state that agrees in states that agree. -/
theorem indifferent_get {f : SessionState → Step α}
    (hf : ∀ s s' : SessionState, s.Agrees D s' →
      Query.Alike (fun r r' => r.1 = r'.1 ∧ r.2.Agrees D r'.2) ((f s).run s) ((f s').run s')) :
    Indifferent D (get >>= f) := by
  intro s s' h
  rw [StateT.run_bind, StateT.run_bind]
  have hget : Query.Alike (fun r r' => r = (s, s) ∧ r' = (s', s'))
      ((get : Step SessionState).run s) ((get : Step SessionState).run s') :=
    Query.alike_pure ⟨rfl, rfl⟩
  refine hget.bind ?_
  rintro _ _ ⟨rfl, rfl⟩
  exact hf s s' h

/-- A step that asks a question about its state and keeps a part of the answer. -/
theorem indifferent_keep (q : SessionState → Query (α × β))
    (keep : β → SessionState → SessionState)
    (hq : ∀ s s' : SessionState, s.Agrees D s' →
      Query.Alike (fun r r' => r.1 = r'.1 ∧ (keep r.2 s).Agrees D (keep r'.2 s')) (q s) (q s')) :
    Indifferent D (do
      let (answer, kept) ← ask (q (← get))
      modify (keep kept)
      return answer : Step α) := by
  apply indifferent_get
  intro s s' h
  rw [StateT.run_bind, StateT.run_bind]
  refine (alike_run_ask (hq s s' h) s s').bind ?_
  rintro ⟨⟨a, kept⟩, _⟩ ⟨⟨_, kept'⟩, _⟩ ⟨⟨rfl, hagrees⟩, rfl, rfl⟩
  exact Query.alike_pure ⟨rfl, hagrees⟩

theorem indifferent_askUnions {q : UnionCache → Query (α × UnionCache)}
    (hq : UnionCache.Indifferent q) : Indifferent D (askUnions q) := by
  apply indifferent_keep (fun s => q s.unions) fun unions s => { s with unions }
  intro s s' h
  refine (hq _ _ h.left.unions h.right.unions).imp ?_
  rintro r r' ⟨hanswer, hvalid, hvalid'⟩
  exact ⟨hanswer, ⟨hvalid, h.left.fields⟩, ⟨hvalid', h.right.fields⟩, h.queue⟩

theorem indifferent_expand (t : Ty) : Indifferent D (expand t) :=
  indifferent_askUnions (UnionCache.indifferent_expand t)

theorem indifferent_report (d : Diagnostic) : Indifferent D (report d) :=
  fun _ _ h => Query.alike_pure ⟨rfl, ⟨h.left.unions, h.left.fields⟩,
    ⟨h.right.unions, h.right.fields⟩, congrArg (DiagnosticQueue.add · d) h.queue⟩

theorem indifferent_flush : Indifferent D flush :=
  fun _ _ h => Query.alike_pure ⟨congrArg (fun q => q.flush.1) h.queue,
    ⟨h.left.unions, h.left.fields⟩, ⟨h.right.unions, h.right.fields⟩,
    congrArg (fun q => q.flush.2) h.queue⟩

end Step

namespace Checker

open Step (Indifferent indifferent_pure indifferent_ask indifferent_askUnions
  indifferent_expand indifferent_report indifferent_flush)

variable (C : Checker)

theorem indifferent_alternatives (c : Case) :
    Indifferent C.hierarchy.decls (C.alternatives c) := by
  apply Step.indifferent_keep
    (fun s => (C.extractor.extractAlternatives c.pattern).run.run s.fields)
    fun fields s => { s with fields }
  intro s s' h
  obtain ⟨result, hresult⟩ := C.extractor.indifferent_extractAlternatives c.pattern
  obtain ⟨hfound, hlater⟩ := hresult s.fields h.left.fields
  obtain ⟨hfound', hlater'⟩ := hresult s'.fields h.right.fields
  have hsame := hfound.trans hfound'.symm
  change Option.Rel _ ((C.extractor.extractAlternatives c.pattern).answer s.fields)
    ((C.extractor.extractAlternatives c.pattern).answer s'.fields)
  generalize (C.extractor.extractAlternatives c.pattern).answer s.fields = answer at hlater hsame
  generalize (C.extractor.extractAlternatives c.pattern).answer s'.fields = answer'
    at hlater' hsame
  cases answer with
  | none =>
      cases answer' with
      | none => exact .none
      | some found' => exact nomatch hsame
  | some found =>
      cases answer' with
      | none => exact nomatch hsame
      | some found' =>
          exact .some ⟨Option.some.inj hsame, ⟨h.left.unions, hlater _ _ rfl⟩,
            ⟨h.right.unions, hlater' _ _ rfl⟩, h.queue⟩

theorem indifferent_bind (union : TypeSet) (index : Nat) (c : Case)
    (p : Pattern × PatternType) (table : MatchTable) :
    Indifferent C.hierarchy.decls (C.bind union index c p table) := by
  unfold bind
  refine (indifferent_ask _).bind fun members => ?_
  split
  · refine (indifferent_askUnions (UnionCache.indifferent_partOf _ _ _)).bind fun mismatch? => ?_
    cases mismatch? with
    | none => exact indifferent_pure table
    | some mismatch => exact (indifferent_report _).bind fun _ => indifferent_pure table
  · exact indifferent_pure _

theorem indifferent_bindAll (union : TypeSet) (index : Nat) (c : Case)
    (found : List (Pattern × PatternType)) (table : MatchTable) :
    Indifferent C.hierarchy.decls (C.bindAll union index c found table) := by
  induction found generalizing table with
  | nil => exact indifferent_pure table
  | cons p found ih => exact (C.indifferent_bind union index c p table).bind ih

theorem indifferent_bindCases (union : TypeSet) (index : Nat) (cases : List Case)
    (table : MatchTable) :
    Indifferent C.hierarchy.decls (C.bindCases union index cases table) := by
  induction cases generalizing index table with
  | nil => exact indifferent_pure _
  | cons c cases ih =>
      refine (C.indifferent_alternatives c).bind fun found => ?_
      cases found with
      | error e => exact indifferent_pure _
      | ok found => exact (C.indifferent_bindAll union index c found table).bind (ih (index + 1))

theorem indifferent_requiredMembers (r : AnalysisRequest) (union : TypeSet) :
    Indifferent C.hierarchy.decls (C.requiredMembers r union) := by
  unfold requiredMembers
  cases r.required with
  | none => exact indifferent_pure _
  | some part =>
      have hwanted : Indifferent C.hierarchy.decls (do
          let wanted ← Step.expand part
          Step.ask (Query.filter
            (fun member => Query.any (C.comparable member) wanted.members) union.members)) :=
        (indifferent_expand part).bind fun wanted => indifferent_ask _
      refine (indifferent_askUnions (UnionCache.indifferent_containsAll _ _ _)).bind
        fun mismatch? => ?_
      cases mismatch? with
      | none => exact hwanted
      | some mismatch => exact (indifferent_report _).bind fun _ => hwanted

theorem indifferent_checkCoverage (required : List Ty) (table : MatchTable) (span : Span) :
    Indifferent C.hierarchy.decls (C.checkCoverage required table span) := by
  unfold checkCoverage
  dsimp only
  split
  · exact indifferent_pure ()
  · exact indifferent_report _

theorem indifferent_checkMember (member : Ty) (results : List MatchResult) (span : Span) :
    Indifferent C.hierarchy.decls (C.checkMember member results span) := by
  refine (indifferent_ask _).bind fun coverage => ?_
  cases coverage with
  | covered => exact indifferent_pure ()
  | missing texts note => exact indifferent_report _
  | inconclusive limit => exact indifferent_report _

theorem indifferent_checkMembers (table : MatchTable) (span : Span) (members : List Ty) :
    Indifferent C.hierarchy.decls (C.checkMembers table span members) := by
  induction members with
  | nil => exact indifferent_pure ()
  | cons member members ih =>
      unfold checkMembers
      dsimp only
      split
      · exact ih
      · exact (C.indifferent_checkMember member _ span).bind fun _ => ih

theorem indifferent_checkTotal (r : AnalysisRequest) (union : TypeSet) (table : MatchTable) :
    Indifferent C.hierarchy.decls (C.checkTotal r union table) := by
  refine (C.indifferent_requiredMembers r union).bind fun required => ?_
  refine (C.indifferent_checkCoverage required table r.span).bind fun _ => ?_
  exact C.indifferent_checkMembers table r.span required

theorem indifferent_conclude (D : Declarations) (r : AnalysisRequest)
    (result : Except ExtractionError MatchTable) : Indifferent D (conclude r result) := by
  cases result with
  | error e =>
      refine (indifferent_report _).bind fun _ => ?_
      exact indifferent_flush.bind fun _ => indifferent_pure _
  | ok table =>
      apply Step.indifferent_get
      intro s s' h
      rw [h.queue]
      refine (indifferent_flush.bind fun diagnostics => ?_) s s' h
      split
      · exact indifferent_pure _
      · exact indifferent_pure _

theorem indifferent_run (r : AnalysisRequest) : Indifferent C.hierarchy.decls (C.run r) := by
  refine (indifferent_expand r.union).bind fun union => ?_
  refine (C.indifferent_bindCases union 0 r.cases .empty).bind fun bound => ?_
  cases bound with
  | error e => exact indifferent_conclude _ r (.error e)
  | ok table =>
      dsimp only
      split
      · exact (C.indifferent_checkTotal r union table).bind fun _ =>
          indifferent_conclude _ r (.ok table)
      · exact indifferent_conclude _ r (.ok table)

/-- The state of a session between two analyses: it remembers right things, and nothing waits
to be reported. -/
structure Rests (s : SessionState) : Prop where
  remembers : s.Remembers C.hierarchy.decls
  queue : s.queue = .empty C.config.diagnostics

variable {C}

theorem rests_freshState : C.Rests C.freshState := ⟨remembers_freshState C, rfl⟩

theorem Rests.agrees {s s' : SessionState} (hs : C.Rests s) (hs' : C.Rests s') :
    s.Agrees C.hierarchy.decls s' :=
  ⟨hs.remembers, hs'.remembers, hs.queue.trans hs'.queue.symm⟩

/-- However an analysis ends, it forgets what was reported and nothing else. -/
theorem state_of_conclude {r : AnalysisRequest} {result : Except ExtractionError MatchTable}
    {outcome : Except AnalysisFailure Analysis} {s s' : SessionState}
    (h : (conclude r result).Yields s outcome s') :
    s' = { s with queue := .empty s.queue.config } := by
  cases result with
  | error e =>
      obtain ⟨_, _, hreport, h⟩ := Step.yields_bind.1 h
      obtain rfl := Step.yields_report.1 hreport
      obtain ⟨_, _, hflush, h⟩ := Step.yields_bind.1 h
      obtain ⟨-, rfl⟩ := Step.yields_flush.1 hflush
      obtain ⟨-, rfl⟩ := Step.yields_pure.1 h
      rw [DiagnosticQueue.flush, DiagnosticQueue.config_add]
  | ok table =>
      obtain ⟨_, _, hget, hrest⟩ := Step.yields_bind.1 h
      obtain ⟨rfl, rfl⟩ := Step.yields_get.1 hget
      obtain ⟨_, _, hflush, hdone⟩ := Step.yields_bind.1 hrest
      obtain ⟨-, rfl⟩ := Step.yields_flush.1 hflush
      split at hdone
      · obtain ⟨-, rfl⟩ := Step.yields_pure.1 hdone
        rfl
      · obtain ⟨-, rfl⟩ := Step.yields_pure.1 hdone
        rfl

/-- An analysis leaves the session as it needs it for the next one, whether it succeeds, fails
or is given up at a pattern without pattern types. -/
theorem Rests.run {s s' : SessionState} (hs : C.Rests s) {r : AnalysisRequest}
    {outcome : Except AnalysisFailure Analysis} (h : (C.run r).Yields s outcome s') :
    C.Rests s' := by
  obtain ⟨result, s₁, hexamine, hend⟩ := yields_run.1 h
  obtain ⟨_, hreports, -⟩ := reports_examine hs.remembers hexamine
  obtain ⟨ds, -, -, hoffered⟩ := hreports.offered
  -- The examination only adds to the queue, so its settings are still those of the session.
  have hqueue : s₁.queue = s.queue.extend ds := by
    have hsame := hexamine.symm.trans (hoffered s.queue)
    exact congrArg (SessionState.queue ∘ Prod.snd) (Option.some.inj hsame)
  have hconfig : s₁.queue.config = C.config.diagnostics := by
    rw [hqueue, DiagnosticQueue.config_extend, hs.queue]
    rfl
  rw [state_of_conclude hend, hconfig]
  exact ⟨⟨hreports.remembers.unions, hreports.remembers.fields⟩, rfl⟩

/-- In a session that rests, an analysis is the one that is made on its own. -/
theorem Rests.analyze {s : SessionState} (hs : C.Rests s) (r : AnalysisRequest) :
    ((C.run r).run s).value?.map Prod.fst = (C.analyze r).value? := by
  have hsame := C.indifferent_run r s C.freshState (hs.agrees rests_freshState)
  rw [value?_analyze_eq]
  unfold Query.Alike at hsame
  generalize ((C.run r).run s).value? = answer at hsame
  generalize ((C.run r).run C.freshState).value? = answer' at hsame
  cases hsame with
  | none => rfl
  | some hpair => exact congrArg some hpair.1

theorem yields_runAll_cons {r : AnalysisRequest} {requests : List AnalysisRequest}
    {outcomes : List (Except AnalysisFailure Analysis)} {s s' : SessionState} :
    (C.runAll (r :: requests)).Yields s outcomes s' ↔ ∃ first s₁ later,
      (C.run r).Yields s first s₁ ∧ (C.runAll requests).Yields s₁ later s' ∧
        outcomes = first :: later := by
  rw [Checker.runAll, Step.yields_bind]
  constructor
  · rintro ⟨first, s₁, hfirst, h⟩
    obtain ⟨later, _, hlater, h⟩ := Step.yields_bind.1 h
    obtain ⟨houtcomes, rfl⟩ := Step.yields_pure.1 h
    exact ⟨first, s₁, later, hfirst, hlater, houtcomes⟩
  · rintro ⟨first, s₁, later, hfirst, hlater, houtcomes⟩
    refine ⟨first, s₁, hfirst, ?_⟩
    exact Step.yields_bind.2 ⟨later, s', hlater, Step.yields_pure.2 ⟨houtcomes, rfl⟩⟩

theorem Rests.runAll {s s' : SessionState} (hs : C.Rests s) {requests : List AnalysisRequest}
    {outcomes : List (Except AnalysisFailure Analysis)}
    (h : (C.runAll requests).Yields s outcomes s') : C.Rests s' := by
  induction requests generalizing s outcomes with
  | nil =>
      obtain ⟨-, rfl⟩ := Step.yields_pure.1 h
      exact hs
  | cons r requests ih =>
      obtain ⟨_, _, _, hfirst, hlater, -⟩ := yields_runAll_cons.1 h
      exact ih (hs.run hfirst) hlater

/-- A session that rests analyzes case sets as they are analyzed on their own. -/
theorem Rests.value?_runAll {s : SessionState} (hs : C.Rests s)
    (requests : List AnalysisRequest) : ((C.runAll requests).run s).value?.map Prod.fst =
      requests.mapM fun r => (C.analyze r).value? := by
  induction requests generalizing s with
  | nil => rfl
  | cons r requests ih =>
      rw [List.mapM_cons, ← hs.analyze r, Checker.runAll, StateT.run_bind, Query.value?_bind]
      cases hfirst : ((C.run r).run s).value? with
      | none => rfl
      | some found =>
          obtain ⟨outcome, s'⟩ := found
          have hrest := ih (hs.run hfirst)
          change ((C.runAll requests >>= fun outcomes => pure (outcome :: outcomes) : Step _).run
            s').value?.map Prod.fst = _
          rw [StateT.run_bind, Query.value?_bind, ← hrest]
          cases ((C.runAll requests).run s').value? with
          | none => rfl
          | some later => rfl

/-- A reused session behaves like a fresh one. After any case sets, however their analyses
ended, the next one has the cases, the match table and the notes or diagnostics that it has on
its own, and has them exactly when it has them on its own; so case sets that are analyzed one
after another are analyzed each on its own. -/
theorem session_forgets (C : Checker) :
    (∀ history outcomes s, (C.runAll history).Yields C.freshState outcomes s →
      ∀ r, ((C.run r).run s).value?.map Prod.fst = (C.analyze r).value?) ∧
    ∀ requests, (C.analyzeAll requests).value? =
      requests.mapM fun r => (C.analyze r).value? := by
  constructor
  · intro history outcomes s hhistory r
    exact (rests_freshState.runAll hhistory).analyze r
  · intro requests
    rw [← rests_freshState.value?_runAll requests]
    exact Query.value?_map _ _

/-- A case set on `int | str` whose only pattern stands for the rest of a sequence. -/
def restOnly : AnalysisRequest where
  union := .union (.prim .int) (.prim .str)
  cases := [⟨.rest default, default, none⟩]
  span := default

theorem answer_rest (fields : FieldCache) :
    (startingChecker.extractor.extractAlternatives (.rest default)).answer fields =
      some (.error ⟨.misplacedRest, (Pattern.rest default).span⟩, fields) := by
  change (startingChecker.extractor.extract (.rest default) >>= _).answer fields = _
  rw [Extraction.answer_bind, Extractor.answer_extract]
  rfl

/-- The examination of a case set is given up at a pattern without pattern types. -/
theorem examine_restOnly (s : SessionState) : ∃ s', (startingChecker.examine restOnly).Yields s
    (.error ⟨.misplacedRest, (Pattern.rest default).span⟩) s' := by
  have hbind (s : SessionState) (union : TypeSet) :
      (startingChecker.bindCases union 0 restOnly.cases .empty).Yields s
        (.error ⟨.misplacedRest, (Pattern.rest default).span⟩) s :=
    Step.yields_bind.2 ⟨_, s, yields_alternatives.2 ⟨_, answer_rest _, rfl⟩, rfl⟩
  refine ⟨{ s with unions := (s.unions.expand restOnly.union).2 }, ?_⟩
  refine Step.yields_bind.2 ⟨_, _, Step.yields_askUnions.2 ⟨_, rfl, rfl⟩, ?_⟩
  exact Step.yields_bind.2 ⟨_, _, hbind _ _, Step.yields_pure.2 ⟨rfl, rfl⟩⟩

/-- After a case set that fails and one that is given up, `_: int` on `int | str` is analyzed as
on its own. -/
theorem session_forgets_failures : ∃ outcomes s,
    (startingChecker.runAll [intOnly, restOnly]).Yields startingChecker.freshState outcomes s ∧
      ((startingChecker.run intOnly).run s).value?.map Prod.fst =
        (startingChecker.analyze intOnly).value? := by
  obtain ⟨s₁, hexamine, -⟩ := examine_intOnly
  obtain ⟨first, s₂, hend⟩ := exists_conclude intOnly (.ok intTable) s₁
  obtain ⟨s₃, hexamine'⟩ := examine_restOnly s₂
  obtain ⟨second, s₄, hend'⟩ := exists_conclude restOnly _ s₃
  have hhistory : (startingChecker.runAll [intOnly, restOnly]).Yields
      startingChecker.freshState [first, second] s₄ := by
    refine yields_runAll_cons.2 ⟨first, s₂, _, yields_run.2 ⟨_, s₁, hexamine, hend⟩, ?_, rfl⟩
    refine yields_runAll_cons.2 ⟨second, s₄, [], yields_run.2 ⟨_, s₃, hexamine', hend'⟩, ?_, rfl⟩
    exact Step.yields_pure.2 ⟨rfl, rfl⟩
  exact ⟨_, s₄, hhistory, (session_forgets startingChecker).1 _ _ s₄ hhistory intOnly⟩

end Checker

end CaseCover
