import Mathlib.Data.List.Nodup
import CaseCover.Proofs.Analysis.Queueing
import CaseCover.Proofs.Analysis.Reports
import CaseCover.Proofs.Analysis.Termination
import CaseCover.Proofs.Diagnostic.Evidence

/-!
The verdict of an analysis. What the steps of an analysis report is put together to what the
analysis as a whole reports, and the queue has counted an error exactly when one was
reported. So an analysis fails exactly when its case set has a violation, however diagnostics
are queued and in whatever order the cases stand (`analyze_verdict`).
-/

namespace CaseCover

theorem Step.yields_flush {s s' : SessionState} {diagnostics : List Diagnostic} :
    Step.flush.Yields s diagnostics s' ↔
      diagnostics = s.queue.flush.1 ∧ s' = { s with queue := s.queue.flush.2 } := by
  constructor
  · intro h
    obtain ⟨_, _, hget, hrest⟩ := yields_bind.1 h
    obtain ⟨rfl, rfl⟩ := yields_get.1 hget
    obtain ⟨_, _, hmodify, hdone⟩ := yields_bind.1 hrest
    obtain rfl := yields_modify.1 hmodify
    exact yields_pure.1 hdone
  · rintro ⟨rfl, rfl⟩
    apply yields_bind.2 ⟨s, s, yields_get.2 ⟨rfl, rfl⟩, ?_⟩
    exact yields_bind.2 ⟨(), _, yields_modify.2 rfl, yields_pure.2 ⟨rfl, rfl⟩⟩

namespace Checker

variable {C : Checker} {s s' : SessionState} {union : Ty}

/-- What is kept of a member of a union is the member itself, once. -/
theorem filter_member {member : Ty} (hmember : member ∈ (TypeSet.ofUnion union).members)
    (keep : Ty → Bool) :
    ((TypeSet.ofUnion union).members.filter keep).filter (· = member) =
      if keep member then [member] else [] := by
  have hcount := List.count_eq_one_of_mem (TypeSet.nodup_ofUnion union) hmember
  have hsingle : (TypeSet.ofUnion union).members.filter (· == member) = [member] := by
    rw [List.filter_beq, hcount]
    rfl
  calc
    _ = [member].filter keep := by
      rw [List.filter_comm, ← hsingle]
      rfl
    _ = _ := by
      rw [List.filter_cons]
      rfl

/-- The results of an alternative for a member of a union: one if it can match it. -/
theorem resultsFor_eq {member : Ty} (hmember : member ∈ (TypeSet.ofUnion union).members)
    (a : Alternative) : C.resultsFor (TypeSet.ofUnion union) member a =
      if C.canMatch a.patternType member then [a.result member] else [] := by
  rw [resultsFor, filter_member hmember]
  split <;> rfl

/-- What a result says about its case and its alternative. -/
def origin (r : MatchResult) : Bool × Pattern × PatternType :=
  (r.guarded, r.alternative, r.patternType)

/-- The results that the alternatives of a case record for a member. -/
theorem origins_ofCase {member : Ty} (hmember : member ∈ (TypeSet.ofUnion union).members)
    {index : Nat} {c : Case} {found : List (Pattern × PatternType)}
    (hanswered : ∀ a ∈ found, (C.canMatch a.2 member = true ↔
      C.hierarchy.decls.Compatible a.2 member)) :
    ((Alternative.ofCase index c found).flatMap
        (C.resultsFor (TypeSet.ofUnion union) member)).map origin =
      (found.filter fun a => C.canMatch a.2 member).map fun a => (c.isGuarded, a) := by
  induction found with
  | nil => rfl
  | cons a found ih =>
      have hrest := ih fun a' ha' => hanswered a' (List.mem_cons_of_mem a ha')
      rw [Alternative.ofCase, List.map_cons, List.flatMap_cons, List.map_append]
      rw [Alternative.ofCase] at hrest
      rw [hrest, resultsFor_eq hmember, List.filter_cons]
      cases C.canMatch a.2 member <;> simp [origin, Alternative.result]

/-- The results that cases record for a member are those of the alternatives that can match
it. -/
theorem origins_of_extracted {member : Ty}
    (hmember : member ∈ (TypeSet.ofUnion union).members) {index : Nat} {cases : List Case}
    {before after : FieldCache} {alternatives : List Alternative}
    (hextracted : C.Extracted index cases before alternatives after)
    (hbefore : before.Valid C.hierarchy.decls)
    (hanswered : ∀ a ∈ alternatives, (C.canMatch a.patternType member = true ↔
      C.hierarchy.decls.Compatible a.patternType member)) :
    (alternatives.flatMap (C.resultsFor (TypeSet.ofUnion union) member)).map origin =
      (C.touching cases member).map fun a => (a.1.isGuarded, a.2) := by
  induction hextracted with
  | nil => rfl
  | @cons index c rest before between after found later hfound hrest ih =>
      have hindifferent := C.extractor.indifferent_extractAlternatives c.pattern
      obtain ⟨hbetween, hextraction⟩ := hindifferent.answer_empty hbefore hfound
      have hlater := ih hbetween fun a ha => hanswered a (List.mem_append_right _ ha)
      have hfirst : ∀ a ∈ found, (C.canMatch a.2 member = true ↔
          C.hierarchy.decls.Compatible a.2 member) := fun a ha =>
        hanswered ⟨index, c, a.1, a.2⟩ (List.mem_append_left _ (List.mem_map_of_mem ha))
      rw [List.flatMap_append, List.map_append, hlater, origins_ofCase hmember hfirst,
        touching_cons hextraction hfirst, List.map_append, List.map_map]
      rfl

/-- What binding the cases of a request records for the members of its union. -/
theorem origins_of_bindCases (hs : s.Remembers C.hierarchy.decls) {cases : List Case}
    {table : MatchTable}
    (h : (C.bindCases (TypeSet.ofUnion union) 0 cases .empty).Yields s (.ok table) s')
    {member : Ty} (hmember : member ∈ (TypeSet.ofUnion union).members) :
    (table.get member).map origin =
      (C.touching cases member).map fun a => (a.1.isGuarded, a.2) := by
  obtain ⟨alternatives, hextracted, hbound⟩ := bound_of_bindCases h
  have hempty : MatchTable.empty.get member = [] := rfl
  rw [hbound.results, hempty, List.nil_append]
  exact origins_of_extracted hmember hextracted hs.fields
    fun a ha => hbound.answered a ha member hmember

section Origins

variable {cases : List Case} {member : Ty} {results : List MatchResult}

theorem results_eq_nil_iff (horigins : results.map origin =
    (C.touching cases member).map fun a => (a.1.isGuarded, a.2)) :
    results = [] ↔ C.touching cases member = [] := by
  have hlength := congrArg List.length horigins
  rw [List.length_map, List.length_map] at hlength
  rw [← List.length_eq_zero_iff, ← List.length_eq_zero_iff, hlength]

theorem proofsIn_eq (horigins : results.map origin =
    (C.touching cases member).map fun a => (a.1.isGuarded, a.2)) :
    C.proofsIn results = C.proofsFor cases member := by
  have hresults : C.proofsIn results = ((results.map origin).filter fun o =>
      C.config.countsAsEvidence o.1).map Prod.snd := by
    rw [proofsIn, evidence, List.filter_map, List.map_map]
    rfl
  rw [hresults, horigins, proofsFor, List.filter_map, List.map_map]
  rfl

end Origins

/-- What an analysis does before it ends: it binds the cases, and checks the required
members of a total case set. -/
def examine (C : Checker) (r : AnalysisRequest) :
    Step (Except ExtractionError MatchTable) := do
  let union ← Step.expand r.union
  match ← C.bindCases union 0 r.cases .empty with
  | .error e => return .error e
  | .ok table =>
    match r.completeness with
    | .total => C.checkTotal r union table
    | .partially => pure ()
    return .ok table

/-- How an analysis ends. -/
def conclude (r : AnalysisRequest) :
    Except ExtractionError MatchTable → Step (Except AnalysisFailure Analysis)
  | .error e => do
    Step.report e.toDiagnostic
    return .error ⟨← Step.flush, ⟨⟩⟩
  | .ok table => do
    let queue := (← get).queue
    let diagnostics ← Step.flush
    match queue.hasErrors with
    | some evidence => return .error ⟨diagnostics, evidence⟩
    | none => return .ok ⟨r.cases, table, diagnostics⟩

/-- An analysis examines the case set, and then ends. -/
theorem yields_run {r : AnalysisRequest} {outcome : Except AnalysisFailure Analysis} :
    (C.run r).Yields s outcome s' ↔ ∃ result s₁, (C.examine r).Yields s result s₁ ∧
      (conclude r result).Yields s₁ outcome s' := by
  unfold run examine
  simp only [Step.yields_bind]
  constructor
  · rintro ⟨union, s₁, hexpand, result, s₂, hbind, h⟩
    cases result with
    | error e =>
        exact ⟨.error e, s₂, ⟨union, s₁, hexpand, _, s₂, hbind, Step.yields_pure.2 ⟨rfl, rfl⟩⟩, h⟩
    | ok table =>
        cases hcompleteness : r.completeness with
        | total =>
            simp only [hcompleteness] at h ⊢
            obtain ⟨_, s₃, hcheck, h⟩ := Step.yields_bind.1 h
            refine ⟨.ok table, s₃, ⟨union, s₁, hexpand, _, s₂, hbind, ?_⟩, h⟩
            exact Step.yields_bind.2 ⟨_, s₃, hcheck, Step.yields_pure.2 ⟨rfl, rfl⟩⟩
        | partially =>
            simp only [hcompleteness] at h ⊢
            refine ⟨.ok table, s₂, ⟨union, s₁, hexpand, _, s₂, hbind, ?_⟩, h⟩
            exact Step.yields_pure.2 ⟨rfl, rfl⟩
  · rintro ⟨result, s₃, ⟨union, s₁, hexpand, bound, s₂, hbind, hexamine⟩, h⟩
    refine ⟨union, s₁, hexpand, bound, s₂, hbind, ?_⟩
    cases bound with
    | error e =>
        obtain ⟨rfl, rfl⟩ := Step.yields_pure.1 hexamine
        exact h
    | ok table =>
        cases hcompleteness : r.completeness with
        | total =>
            simp only [hcompleteness] at hexamine ⊢
            obtain ⟨_, s₃, hcheck, hdone⟩ := Step.yields_bind.1 hexamine
            obtain ⟨rfl, rfl⟩ := Step.yields_pure.1 hdone
            exact Step.yields_bind.2 ⟨_, _, hcheck, h⟩
        | partially =>
            simp only [hcompleteness] at hexamine ⊢
            obtain ⟨rfl, rfl⟩ := Step.yields_pure.1 hexamine
            exact h

/-- A case set does not handle the required members as a total one must. -/
def Incomplete (C : Checker) (r : AnalysisRequest) : Prop :=
  (∃ part, r.required = some part ∧
    ¬ C.hierarchy.decls.PartOf part (TypeSet.ofUnion r.union)) ∨
  (∃ m, C.hierarchy.decls.Required r m ∧ C.touching r.cases m = []) ∨
  ∃ m, C.hierarchy.decls.Required r m ∧ C.touching r.cases m ≠ [] ∧ ∃ texts note,
    (C.check m (C.proofsFor r.cases m)).value? = some (.missing texts note)

theorem Incomplete.violates {r : AnalysisRequest} (hr : C.Incomplete r)
    (htotal : r.completeness = .total) : C.Violates r := by
  rcases hr with ⟨part, hpart, houtside⟩ | ⟨m, hm, hnone⟩ | ⟨m, hm, hsome, texts, note, h⟩
  · exact .notContained htotal hpart houtside
  · exact .untouched htotal hm hnone
  · exact .uncovered htotal hm hsome h

/-- The check of a total case set, over a table that records what its cases can match. -/
theorem reports_incomplete (hs : s.Remembers C.hierarchy.decls) {r : AnalysisRequest}
    {table : MatchTable} (htable : table.Filled)
    (horigins : ∀ m, C.hierarchy.decls.Required r m → (table.get m).map origin =
      (C.touching r.cases m).map fun a => (a.1.isGuarded, a.2))
    (h : (C.checkTotal r (TypeSet.ofUnion r.union) table).Yields s () s') :
    (∀ m, C.hierarchy.decls.Required r m → C.touching r.cases m ≠ [] →
      ∃ coverage, (C.check m (C.proofsFor r.cases m)).value? = some coverage) ∧
    Step.Reports C.hierarchy.decls (C.checkTotal r (TypeSet.ofUnion r.union) table) s () s'
      (C.Incomplete r) := by
  obtain ⟨hanswered, hreports⟩ := reports_checkTotal hs htable h
  have huntouched : ∀ m, C.hierarchy.decls.Required r m →
      (table.get m = [] ↔ C.touching r.cases m = []) :=
    fun m hm => results_eq_nil_iff (horigins m hm)
  have hproofs : ∀ m, C.hierarchy.decls.Required r m →
      C.proofsIn (table.get m) = C.proofsFor r.cases m :=
    fun m hm => proofsIn_eq (horigins m hm)
  refine ⟨fun m hm hsome => ?_, hreports.congr (or_congr_right (or_congr ?_ ?_))⟩
  · rw [← hproofs m hm]
    exact hanswered m hm (hsome ∘ (huntouched m hm).1)
  · exact exists_congr fun m => and_congr_right fun hm => huntouched m hm
  · refine exists_congr fun m => and_congr_right fun hm => ?_
    rw [Ne, huntouched m hm, hproofs m hm]

/-- What an examination finds: a violation when a case has no pattern types, and else whether
there is one. -/
inductive Judges (C : Checker) (r : AnalysisRequest) (P : Prop) :
    Except ExtractionError MatchTable → Prop
  | error {e : ExtractionError} (violates : C.Violates r) : C.Judges r P (.error e)
  | ok {table : MatchTable} (violates : P → C.Violates r) (passes : ¬ P → C.Passes r) :
      C.Judges r P (.ok table)

/-- An examination reports an error exactly when it finds a violation. -/
theorem reports_examine (hs : s.Remembers C.hierarchy.decls) {r : AnalysisRequest}
    {result : Except ExtractionError MatchTable} (h : (C.examine r).Yields s result s') :
    ∃ P, Step.Reports C.hierarchy.decls (C.examine r) s result s' P ∧ C.Judges r P result := by
  obtain ⟨union, s₁, hexpand, h⟩ := Step.yields_bind.1 h
  obtain ⟨rfl, hreports⟩ := Step.reports_expand hs hexpand
  obtain ⟨bound, s₂, hbind, h⟩ := Step.yields_bind.1 h
  obtain ⟨P, hbound, hbinds⟩ := reports_bindCases hreports.remembers MatchTable.filled_empty hbind
  cases hbinds with
  | error hc he =>
      obtain ⟨rfl, rfl⟩ := Step.yields_pure.1 h
      refine ⟨P ∨ False, hreports.silent_bind (hbound.bind ?_), .error (.unextractable hc he)⟩
      exact Step.reports_pure hbound.remembers _
  | @ok table filled extracted foreign =>
      have hforeign : P → C.Violates r := by
        rw [foreign]
        rintro ⟨c, hc, a, ha, hforeign⟩
        exact .foreign hc ha hforeign
      have hnative : ¬ P → ∀ c ∈ r.cases, ∀ a ∈ C.alternativesOf c,
          ¬ C.hierarchy.decls.Foreign r.union a.2 := by
        intro hP c hc a ha hforeign
        exact hP (foreign.2 ⟨c, hc, a, ha, hforeign⟩)
      cases hcompleteness : r.completeness with
      | partially =>
          simp only [hcompleteness] at h
          obtain ⟨rfl, rfl⟩ := Step.yields_pure.1 h
          refine ⟨P ∨ False, hreports.silent_bind (hbound.bind ?_), .ok ?_ fun hP => ?_⟩
          · simp only [hcompleteness]
            exact Step.reports_pure hbound.remembers _
          · rwa [or_false]
          · have hpartially : r.completeness ≠ .total := by simp [hcompleteness]
            rw [or_false] at hP
            exact ⟨extracted, hnative hP, fun h => absurd h hpartially,
              fun h => absurd h hpartially, fun h => absurd h hpartially⟩
      | total =>
          simp only [hcompleteness] at h
          obtain ⟨_, s₃, hcheck, hdone⟩ := Step.yields_bind.1 h
          obtain ⟨rfl, rfl⟩ := Step.yields_pure.1 hdone
          obtain ⟨hanswered, hchecked⟩ := reports_incomplete hbound.remembers filled
            (fun m hm => origins_of_bindCases hreports.remembers hbind hm.1) hcheck
          refine ⟨P ∨ C.Incomplete r ∨ False, hreports.silent_bind (hbound.bind ?_),
            .ok ?_ fun hP => ?_⟩
          · simp only [hcompleteness]
            exact hchecked.bind (Step.reports_pure hchecked.remembers _)
          · rintro (hP | hincomplete | hfalse)
            · exact hforeign hP
            · exact hincomplete.violates hcompleteness
            · exact hfalse.elim
          · rw [or_false, not_or] at hP
            obtain ⟨hP, hcomplete⟩ := hP
            simp only [Incomplete, not_or, not_exists, not_and, not_not] at hcomplete
            obtain ⟨hcontained, htouched, hcovered⟩ := hcomplete
            refine ⟨extracted, hnative hP, fun _ => hcontained, fun _ => htouched, ?_⟩
            intro _ m hm
            obtain ⟨coverage, hcoverage⟩ := hanswered m hm (htouched m hm)
            refine ⟨coverage, hcoverage, fun texts note hmissing => ?_⟩
            exact hcovered m hm (htouched m hm) texts note (hmissing ▸ hcoverage)

theorem exists_conclude (r : AnalysisRequest) (result : Except ExtractionError MatchTable)
    (s : SessionState) : ∃ outcome s', (conclude r result).Yields s outcome s' := by
  cases result with
  | error e => exact ⟨_, _, rfl⟩
  | ok table =>
      cases hqueue : s.queue.hasErrors with
      | none =>
          refine ⟨.ok ⟨r.cases, table, s.queue.flush.1⟩, { s with queue := s.queue.flush.2 }, ?_⟩
          apply Step.yields_bind.2 ⟨s, s, Step.yields_get.2 ⟨rfl, rfl⟩, ?_⟩
          apply Step.yields_bind.2 ⟨_, _, Step.yields_flush.2 ⟨rfl, rfl⟩, ?_⟩
          simp only [hqueue]
          exact Step.yields_pure.2 ⟨rfl, rfl⟩
      | some evidence =>
          refine ⟨.error ⟨s.queue.flush.1, evidence⟩, { s with queue := s.queue.flush.2 }, ?_⟩
          apply Step.yields_bind.2 ⟨s, s, Step.yields_get.2 ⟨rfl, rfl⟩, ?_⟩
          apply Step.yields_bind.2 ⟨_, _, Step.yields_flush.2 ⟨rfl, rfl⟩, ?_⟩
          simp only [hqueue]
          exact Step.yields_pure.2 ⟨rfl, rfl⟩

/-- An analysis that stopped at a case without pattern types fails. -/
theorem isOk_of_conclude_error {r : AnalysisRequest} {e : ExtractionError}
    {outcome : Except AnalysisFailure Analysis}
    (h : (conclude r (.error e)).Yields s outcome s') : outcome.isOk = false := by
  obtain ⟨_, _, _, h⟩ := Step.yields_bind.1 h
  obtain ⟨_, _, _, h⟩ := Step.yields_bind.1 h
  obtain ⟨rfl, -⟩ := Step.yields_pure.1 h
  rfl

/-- Any other analysis fails exactly when its queue has counted an error. -/
theorem isOk_of_conclude_ok {r : AnalysisRequest} {table : MatchTable}
    {outcome : Except AnalysisFailure Analysis}
    (h : (conclude r (.ok table)).Yields s outcome s') :
    outcome.isOk = false ↔ s.queue.hasErrors = some ⟨⟩ := by
  obtain ⟨_, s, hget, hrest⟩ := Step.yields_bind.1 h
  obtain ⟨rfl, rfl⟩ := Step.yields_get.1 hget
  obtain ⟨diagnostics, _, -, hdone⟩ := Step.yields_bind.1 hrest
  cases hqueue : s.queue.hasErrors with
  | none =>
      simp only [hqueue] at hdone
      obtain ⟨rfl, -⟩ := Step.yields_pure.1 hdone
      exact iff_of_false nofun nofun
  | some evidence =>
      simp only [hqueue] at hdone
      obtain ⟨rfl, -⟩ := Step.yields_pure.1 hdone
      exact iff_of_true rfl rfl

/-- An analysis that starts with right memories and an empty queue passes a case set that
passes and fails one that has a violation, whatever the configuration of the queue. -/
theorem verdict_of_run (hs : s.Remembers C.hierarchy.decls) {r : AnalysisRequest}
    {config : QueueConfig} {outcome : Except AnalysisFailure Analysis}
    (h : (C.run r).Yields { s with queue := .empty config } outcome s') :
    (outcome.isOk = true → C.Passes r) ∧ (outcome.isOk = false → C.Violates r) ∧
      ∀ config', ∃ outcome' s'',
        (C.run r).Yields { s with queue := .empty config' } outcome' s'' ∧
          outcome'.isOk = outcome.isOk := by
  obtain ⟨result, s₁, hexamine, hend⟩ := yields_run.1 h
  obtain ⟨P, hreports, hjudges⟩ := reports_examine
    (s := { s with queue := .empty config }) ⟨hs.unions, hs.fields⟩ hexamine
  obtain ⟨ds, hgraded, herror, hoffered⟩ := hreports.offered
  have hagain : ∀ config', ∃ outcome' s'',
      (C.run r).Yields { s with queue := .empty config' } outcome' s'' ∧
        (conclude r result).Yields { s₁ with queue := (DiagnosticQueue.empty config').extend ds }
          outcome' s'' := by
    intro config'
    obtain ⟨outcome', s'', hend'⟩ := exists_conclude r result
      { s₁ with queue := (DiagnosticQueue.empty config').extend ds }
    exact ⟨outcome', s'', yields_run.2 ⟨result, _, hoffered _, hend'⟩, hend'⟩
  cases hjudges with
  | error violates =>
      have hfails := isOk_of_conclude_error hend
      refine ⟨fun hok => ?_, fun _ => violates, fun config' => ?_⟩
      · exact Bool.noConfusion (hok.symm.trans hfails)
      · obtain ⟨outcome', s'', hrun, hend'⟩ := hagain config'
        exact ⟨outcome', s'', hrun, (isOk_of_conclude_error hend').trans hfails.symm⟩
  | @ok table violates passes =>
      have hfails : ∀ {config' outcome' s''}, (conclude r (.ok table)).Yields
          { s₁ with queue := (DiagnosticQueue.empty config').extend ds } outcome' s'' →
          (outcome'.isOk = false ↔ P) := by
        intro config' outcome' s'' hend'
        rw [isOk_of_conclude_ok hend', ← herror]
        exact DiagnosticQueue.hasErrors_extend config' hgraded
      have hstate : s₁ = { s₁ with queue := (DiagnosticQueue.empty config).extend ds } := by
        have hsame := (hexamine.symm.trans (hoffered (.empty config)))
        exact (Prod.mk.inj (Option.some.inj hsame)).2
      rw [hstate] at hend
      have hverdict := hfails hend
      refine ⟨fun hok => ?_, fun hfail => violates (hverdict.1 hfail), fun config' => ?_⟩
      · exact passes fun hP => Bool.noConfusion (hok.symm.trans (hverdict.2 hP))
      · obtain ⟨outcome', s'', hrun, hend'⟩ := hagain config'
        refine ⟨outcome', s'', hrun, ?_⟩
        have hsame := (hfails hend').trans hverdict.symm
        rwa [← Bool.not_eq_true, ← Bool.not_eq_true, not_iff_not, ← Bool.eq_iff_iff] at hsame

theorem remembers_freshState (C : Checker) : C.freshState.Remembers C.hierarchy.decls :=
  ⟨UnionCache.valid_empty, FieldCache.valid_empty _⟩

/-- An analysis on its own answers what a fresh session does. -/
theorem value?_analyze_eq (r : AnalysisRequest) :
    (C.analyze r).value? = ((C.run r).run C.freshState).value?.map Prod.fst :=
  Query.value?_map _ _

theorem value?_analyze {r : AnalysisRequest} {outcome : Except AnalysisFailure Analysis} :
    (C.analyze r).value? = some outcome ↔ ∃ s', (C.run r).Yields C.freshState outcome s' := by
  rw [value?_analyze_eq, Option.map_eq_some_iff]
  constructor
  · rintro ⟨⟨_, s'⟩, hrun, rfl⟩
    exact ⟨s', hrun⟩
  · rintro ⟨s', hrun⟩
    exact ⟨(outcome, s'), hrun, rfl⟩

/-- An answered analysis has passed a case set that passes, or failed one with a violation. -/
theorem verdict_of_analyze {r : AnalysisRequest} {outcome : Except AnalysisFailure Analysis}
    (h : (C.analyze r).value? = some outcome) :
    (outcome.isOk = true → C.Passes r) ∧ (outcome.isOk = false → C.Violates r) := by
  obtain ⟨s', hrun⟩ := value?_analyze.1 h
  obtain ⟨hpasses, hviolates, -⟩ := verdict_of_run (remembers_freshState C) hrun
  exact ⟨hpasses, hviolates⟩

/-- With diagnostics queued in another way, an answered analysis is answered as well, with the
same verdict. -/
theorem isOk_of_queueing {r : AnalysisRequest} {outcome : Except AnalysisFailure Analysis}
    (h : (C.analyze r).value? = some outcome) (queue : QueueConfig) :
    ∃ outcome', ((C.queueing queue).analyze r).value? = some outcome' ∧
      outcome'.isOk = outcome.isOk := by
  obtain ⟨s', hrun⟩ := value?_analyze.1 h
  obtain ⟨-, -, hagain⟩ := verdict_of_run (remembers_freshState C) hrun
  obtain ⟨outcome', s'', hrun', hsame⟩ := hagain queue
  rw [← C.run_queueing queue] at hrun'
  exact ⟨outcome', value?_analyze.2 ⟨s'', hrun'⟩, hsame⟩

/-- Two answered analyses of a case set, with its cases in two orders, have the same verdict. -/
theorem isOk_of_perm {r : AnalysisRequest} {cases : List Case} (hperm : cases.Perm r.cases)
    {outcome outcome' : Except AnalysisFailure Analysis}
    (h : (C.analyze r).value? = some outcome)
    (h' : (C.analyze { r with cases }).value? = some outcome') :
    outcome'.isOk = outcome.isOk := by
  obtain ⟨hpasses, hviolates⟩ := verdict_of_analyze h
  obtain ⟨hpasses', hviolates'⟩ := verdict_of_analyze h'
  cases hok : outcome.isOk with
  | true =>
      cases hok' : outcome'.isOk with
      | true => rfl
      | false =>
          have hback : C.Passes { { r with cases } with cases := r.cases } := hpasses hok
          exact absurd (hviolates' hok') (hback.not_violates_of_perm hperm.symm)
  | false =>
      cases hok' : outcome'.isOk with
      | true => exact absurd (hviolates hok) ((hpasses' hok').not_violates_of_perm hperm)
      | false => rfl

/-- An analysis fails exactly when its case set has a violation. The verdict is the same
however diagnostics are queued and in whatever order the cases stand, and it is reached in all
these ways as long as questions about types have answers. -/
theorem analyze_verdict (C : Checker) (r : AnalysisRequest) :
    (∀ outcome, (C.analyze r).value? = some outcome →
      ((∃ failure, outcome = .error failure) ↔ C.Violates r) ∧
      (∀ queue, ∃ outcome', ((C.queueing queue).analyze r).value? = some outcome' ∧
        outcome'.isOk = outcome.isOk) ∧
      ∀ cases, cases.Perm r.cases → ∀ outcome',
        (C.analyze { r with cases }).value? = some outcome' → outcome'.isOk = outcome.isOk) ∧
    (C.hierarchy.decls.Settled →
      ∃ outcome, Query.Settles (fun n => (C.within n).analyze r) outcome ∧
        ∀ queue cases, cases.Perm r.cases → ∃ outcome',
          Query.Settles (fun n => ((C.within n).queueing queue).analyze { r with cases })
            outcome' ∧ outcome'.isOk = outcome.isOk) := by
  refine ⟨fun outcome h => ⟨?_, isOk_of_queueing h, fun _ hperm _ => isOk_of_perm hperm h⟩, ?_⟩
  · obtain ⟨hpasses, hviolates⟩ := verdict_of_analyze h
    cases outcome with
    | error failure => exact iff_of_true ⟨failure, rfl⟩ (hviolates rfl)
    | ok analysis => exact iff_of_false nofun (hpasses rfl).not_violates
  · intro hsettled
    obtain ⟨outcome, houtcome⟩ := analyze_ends hsettled r
    refine ⟨outcome, houtcome, fun queue cases hperm => ?_⟩
    obtain ⟨outcome', houtcome'⟩ :=
      analyze_ends (C := C.queueing queue) hsettled { r with cases }
    refine ⟨outcome', houtcome', ?_⟩
    obtain ⟨enough, hanswers⟩ := houtcome
    obtain ⟨enough', hanswers'⟩ := houtcome'
    obtain ⟨queued, hqueued, hsame⟩ := isOk_of_queueing
      (hanswers (max enough enough') (Nat.le_max_left ..)) queue
    rw [← hsame]
    exact isOk_of_perm hperm hqueued (hanswers' (max enough enough') (Nat.le_max_right ..))

/-- The case `_: int`. -/
def anyInt : Case :=
  ⟨.typed default (.wildcard default) (.prim .int), default, none⟩

/-- A case set on `int | str` whose only case is `_: int`. -/
def intOnly : AnalysisRequest where
  union := .union (.prim .int) (.prim .str)
  cases := [anyInt]
  span := default

/-- What is remembered of `int | str`. -/
def intState : SessionState :=
  { startingChecker.freshState with
    unions := ⟨[(intOnly.union, ⟨[.prim .int, .prim .str]⟩)]⟩ }

/-- What is recorded of `_: int`. -/
def intTable : MatchTable :=
  ⟨[(.prim .int,
    [⟨0, default, false, anyInt.pattern, .prim .int, .ascription (.prim .int)⟩])]⟩

theorem answer_anyInt (fields : FieldCache) :
    (startingChecker.extractor.extractAlternatives anyInt.pattern).answer fields =
      some (.ok [(anyInt.pattern, .ascription (.prim .int))], fields) := by
  change (startingChecker.extractor.extract anyInt.pattern >>= _).answer fields = _
  rw [Extraction.answer_bind, Extractor.answer_extract]
  rfl

theorem examine_intOnly : ∃ s', (startingChecker.examine intOnly).Yields
    startingChecker.freshState (.ok intTable) s' ∧ s'.queue.hasErrors = some ⟨⟩ := by
  have hexpand : (Step.expand intOnly.union).Yields startingChecker.freshState
      ⟨[.prim .int, .prim .str]⟩ intState := rfl
  have hbind : (startingChecker.bindCases ⟨[.prim .int, .prim .str]⟩ 0 [anyInt]
      .empty).Yields intState (.ok intTable) intState := by
    apply Step.yields_bind.2 ⟨_, _, yields_alternatives.2 ⟨_, answer_anyInt _, rfl⟩, ?_⟩
    rfl
  have hcheck : ∃ s', (startingChecker.checkTotal intOnly ⟨[.prim .int, .prim .str]⟩
      intTable).Yields intState () s' ∧ s'.queue.hasErrors = some ⟨⟩ := ⟨_, rfl, rfl⟩
  obtain ⟨s', hcheck, herror⟩ := hcheck
  refine ⟨s', ?_, herror⟩
  apply Step.yields_bind.2 ⟨_, _, hexpand, ?_⟩
  apply Step.yields_bind.2 ⟨_, _, hbind, ?_⟩
  exact Step.yields_bind.2 ⟨_, _, hcheck, Step.yields_pure.2 ⟨rfl, rfl⟩⟩

/-- The analysis of `_: int` on `int | str` fails, however its diagnostics are queued and however
many questions about types may be nested. -/
theorem analyze_verdict_int_only :
    (∃ failure, (startingChecker.analyze intOnly).value? = some (.error failure)) ∧
      startingChecker.Violates intOnly ∧
      (∀ queue, ∃ outcome, ((startingChecker.queueing queue).analyze intOnly).value? =
        some outcome ∧ outcome.isOk = false) ∧
      startingChecker.hierarchy.decls.Settled ∧
      ∃ outcome, Query.Settles (fun n => (startingChecker.within n).analyze intOnly) outcome := by
  obtain ⟨s', hexamine, herror⟩ := examine_intOnly
  obtain ⟨outcome, s'', hend⟩ := exists_conclude intOnly (.ok intTable) s'
  have hfails : outcome.isOk = false := (isOk_of_conclude_ok hend).2 herror
  have hanalyze : (startingChecker.analyze intOnly).value? = some outcome :=
    value?_analyze.2 ⟨s'', yields_run.2 ⟨_, s', hexamine, hend⟩⟩
  obtain ⟨hverdict, hsettles⟩ := analyze_verdict startingChecker intOnly
  obtain ⟨hviolates, hqueue, -⟩ := hverdict outcome hanalyze
  have hsettled : startingChecker.hierarchy.decls.Settled :=
    Declarations.settled_of_ordered (by decide)
  obtain ⟨settled, hanswers, -⟩ := hsettles hsettled
  cases outcome with
  | ok analysis => exact nomatch hfails
  | error failure =>
      exact ⟨⟨failure, hanalyze⟩, hviolates.1 ⟨failure, rfl⟩, hqueue, hsettled, settled,
        hanswers⟩

end Checker

end CaseCover
