import Mathlib.Algebra.GroupWithZero.Nat
import Mathlib.Data.List.Induction
import CaseCover.Proofs.Analysis.Verdict

/-!
The table that an analysis hands out. A table holds, member by member, the results that were
recorded one after another: none is lost and none is added, and its members stand in the order
of their first results (`get_ofResults`, `members_ofResults`). Binding the cases of a case set
records one result for each alternative and each member that its pattern type is comparable
with, so the table of an analysis is known from the case set alone (`analyze_records`).
-/

namespace CaseCover

namespace MatchTable

/-- The table in which results were recorded one after another. -/
def ofResults (results : List MatchResult) : MatchTable := results.foldl add empty

theorem ofResults_concat (results : List MatchResult) (r : MatchResult) :
    ofResults (results ++ [r]) = (ofResults results).add r :=
  List.foldl_append

/-- The results for a member are those that were recorded for it, in that order. -/
theorem get_ofResults (results : List MatchResult) (member : Ty) :
    (ofResults results).get member = results.filter (·.member = member) := by
  induction results using List.reverseRecOn with
  | nil => rfl
  | append_singleton results r ih =>
      rw [ofResults_concat, get_add, ih, List.filter_append, List.filter_singleton]
      by_cases hr : r.member = member
      · simp [hr]
      · simp [hr]

theorem members_addTo (r : MatchResult) (groups : List (Ty × List MatchResult)) :
    (addTo r groups).map Prod.fst =
      if r.member ∈ groups.map Prod.fst then groups.map Prod.fst
      else groups.map Prod.fst ++ [r.member] := by
  induction groups with
  | nil => rfl
  | cons group groups ih =>
      obtain ⟨member, results⟩ := group
      rw [addTo]
      by_cases hmember : member = r.member
      · simp [hmember]
      · rw [if_neg hmember, List.map_cons, ih]
        simp only [List.map_cons, List.mem_cons, Ne.symm hmember, false_or]
        split <;> rfl

/-- Recording a result adds its member at the end, unless that has results already. -/
theorem members_add (table : MatchTable) (r : MatchResult) :
    (table.add r).members =
      if r.member ∈ table.members then table.members else table.members ++ [r.member] :=
  members_addTo r table.groups

/-- The members stand in the order of their first results. -/
theorem members_ofResults (results : List MatchResult) :
    (ofResults results).members = (results.map MatchResult.member).eraseDups := by
  induction results using List.reverseRecOn with
  | nil => rfl
  | append_singleton results r ih =>
      rw [ofResults_concat, members_add, ih, List.map_append]
      simp only [List.mem_eraseDups]
      exact (TypeSet.eraseDups_concat (results.map MatchResult.member) r.member).symm

theorem nodup_members_ofResults (results : List MatchResult) :
    (ofResults results).members.Nodup :=
  members_ofResults results ▸ TypeSet.nodup_eraseDups _

theorem mem_members_ofResults_iff {results : List MatchResult} {member : Ty} :
    member ∈ (ofResults results).members ↔ (ofResults results).get member ≠ [] := by
  rw [members_ofResults, List.mem_eraseDups, List.mem_map, get_ofResults, Ne,
    List.filter_eq_nil_iff]
  simp

theorem map_lookup_of_nodup {groups : List (Ty × List MatchResult)}
    (hgroups : (groups.map Prod.fst).Nodup) :
    groups.map (fun group => (groups.lookup group.1).getD []) = groups.map Prod.snd := by
  induction groups with
  | nil => rfl
  | cons group groups ih =>
      obtain ⟨hnew, hgroups⟩ := List.nodup_cons.1 hgroups
      have hrest := ih hgroups
      rw [List.map_cons, List.map_cons, ← hrest]
      congr 1
      · rw [List.lookup_cons, beq_self_eq_true]
        rfl
      · apply List.map_congr_left
        intro other hother
        have hne : (other.1 == group.1) = false := by
          rw [beq_eq_false_iff_ne]
          exact ne_of_mem_of_not_mem (List.mem_map_of_mem hother) hnew
        rw [List.lookup_cons, hne]

/-- The results of a table are those of its members. -/
theorem resultCount_eq_sum {table : MatchTable} (htable : table.members.Nodup) :
    table.resultCount = (table.members.map fun member => (table.get member).length).sum := by
  have hgroups := congrArg (List.map List.length) (map_lookup_of_nodup htable)
  rw [List.map_map, List.map_map] at hgroups
  rw [resultCount, List.length_flatMap, members, List.map_map]
  exact congrArg List.sum hgroups.symm

end MatchTable

namespace Checker

variable {C : Checker} {s s' : SessionState}

open Classical in
/-- The results of an alternative for the members of a list that its pattern type is
comparable with. -/
noncomputable def recordedFor (C : Checker) (members : List Ty) (a : Alternative) :
    List MatchResult :=
  (members.filter fun m => C.hierarchy.decls.Compatible a.patternType m).map a.result

/-- The alternatives of cases, the first of which has the given position: case by case, and
those of a case as they are extracted. -/
def alternativesFrom (C : Checker) (index : Nat) (cases : List Case) : List Alternative :=
  (cases.zipIdx index).flatMap fun c => Alternative.ofCase c.2 c.1 (C.alternativesOf c.1)

/-- What is recorded for a case set. -/
noncomputable def recorded (C : Checker) (r : AnalysisRequest) : List MatchResult :=
  (C.alternativesFrom 0 r.cases).flatMap
    (C.recordedFor (TypeSet.ofUnion r.union).members)

section Steps

variable {union : TypeSet} {index : Nat} {c : Case} {table table' : MatchTable}

open Classical in
theorem recordedFor_of_bind {p : Pattern × PatternType}
    (hbind : (C.bind union index c p table).Yields s table' s') :
    table' = (C.recordedFor union.members ⟨index, c, p.1, p.2⟩).foldl .add table := by
  obtain ⟨rfl, hcompatible⟩ := table_of_bind hbind
  have hkept : (union.members.filter fun m => C.hierarchy.decls.Compatible p.2 m) =
      union.members.filter (C.canMatch p.2) := by
    apply List.filter_congr
    intro m hm
    rw [Bool.eq_iff_iff, decide_eq_true_iff, hcompatible m hm]
  rw [recordedFor, hkept, List.foldl_map]
  rfl

theorem recordedFor_of_bindAll {found : List (Pattern × PatternType)}
    (hbind : (C.bindAll union index c found table).Yields s table' s') :
    table' = ((Alternative.ofCase index c found).flatMap
      (C.recordedFor union.members)).foldl .add table := by
  induction found generalizing table s with
  | nil => exact (Step.yields_pure.1 hbind).1
  | cons p found ih =>
      obtain ⟨between, s₁, hfirst, hrest⟩ := Step.yields_bind.1 hbind
      have hbetween := recordedFor_of_bind hfirst
      rw [Alternative.ofCase, List.map_cons, List.flatMap_cons, List.foldl_append, ← hbetween]
      exact ih hrest

/-- Binding cases extracts each of them, and records what its alternatives can match. -/
theorem recordedFor_of_bindCases {cases : List Case} (hs : s.fields.Valid C.hierarchy.decls)
    (hbind : (C.bindCases union index cases table).Yields s (.ok table') s') :
    (∀ c ∈ cases, C.extraction c = some (.ok (C.alternativesOf c))) ∧
      table' = ((C.alternativesFrom index cases).flatMap
        (C.recordedFor union.members)).foldl .add table := by
  induction cases generalizing index table s with
  | nil => exact ⟨nofun, Except.ok.inj (Step.yields_pure.1 hbind).1⟩
  | cons c rest ih =>
      obtain ⟨result, s₁, hextract, hbind⟩ := Step.yields_bind.1 hbind
      obtain ⟨fields, hfound, rfl⟩ := yields_alternatives.1 hextract
      cases result with
      | error e => exact nomatch (Step.yields_pure.1 hbind).1
      | ok found =>
          have hindifferent := C.extractor.indifferent_extractAlternatives c.pattern
          obtain ⟨hfields, hextraction⟩ := hindifferent.answer_empty hs hfound
          have halternatives := alternativesOf_of_extraction hextraction
          obtain ⟨between, s₂, hfirst, hrest⟩ := Step.yields_bind.1 hbind
          have hbetween := recordedFor_of_bindAll hfirst
          have hunchanged : s₂.fields = fields := (bound_of_bindAll hfirst).2
          obtain ⟨hextracted, htable⟩ := ih (hunchanged ▸ hfields) hrest
          constructor
          · intro d hd
            rcases List.mem_cons.1 hd with rfl | hd
            · rw [halternatives]
              exact hextraction
            · exact hextracted d hd
          · rw [alternativesFrom, List.zipIdx_cons, List.flatMap_cons, List.flatMap_append,
              List.foldl_append, halternatives, ← hbetween]
            exact htable

end Steps

/-- An examination that comes to an end has bound the cases. -/
theorem bindCases_of_examine {r : AnalysisRequest} {table : MatchTable}
    (hs : s.Remembers C.hierarchy.decls) (h : (C.examine r).Yields s (.ok table) s') :
    ∃ s₁ s₂, s₁.Remembers C.hierarchy.decls ∧
      (C.bindCases (TypeSet.ofUnion r.union) 0 r.cases .empty).Yields s₁ (.ok table) s₂ := by
  obtain ⟨union, s₁, hexpand, h⟩ := Step.yields_bind.1 h
  obtain ⟨rfl, hreports⟩ := Step.reports_expand hs hexpand
  obtain ⟨result, s₂, hbind, h⟩ := Step.yields_bind.1 h
  refine ⟨s₁, s₂, hreports.remembers, ?_⟩
  cases result with
  | error e => exact nomatch (Step.yields_pure.1 h).1
  | ok bound =>
      suffices hsame : table = bound by rwa [hsame]
      cases hcompleteness : r.completeness with
      | total =>
          simp only [hcompleteness] at h
          obtain ⟨_, _, -, hdone⟩ := Step.yields_bind.1 h
          exact Except.ok.inj (Step.yields_pure.1 hdone).1
      | partially =>
          simp only [hcompleteness] at h
          exact Except.ok.inj (Step.yields_pure.1 h).1

/-- An analysis that succeeds hands out the cases and the table of its examination. -/
theorem conclude_eq_ok {r : AnalysisRequest} {result : Except ExtractionError MatchTable}
    {analysis : Analysis} (h : (conclude r result).Yields s (.ok analysis) s') :
    analysis.cases = r.cases ∧ result = .ok analysis.matchTable := by
  cases result with
  | error e => exact nomatch isOk_of_conclude_error h
  | ok table =>
      obtain ⟨_, _, _, hrest⟩ := Step.yields_bind.1 h
      obtain ⟨_, _, _, hdone⟩ := Step.yields_bind.1 hrest
      split at hdone
      · exact nomatch (Step.yields_pure.1 hdone).1
      · obtain rfl := Except.ok.inj (Step.yields_pure.1 hdone).1
        exact ⟨rfl, rfl⟩

open Classical in
/-- What is recorded for a member of a request's union. -/
theorem filter_recorded {r : AnalysisRequest} {m : Ty}
    (hm : m ∈ (TypeSet.ofUnion r.union).members) :
    (C.recorded r).filter (·.member = m) = ((C.alternativesFrom 0 r.cases).filter fun a =>
      C.hierarchy.decls.Compatible a.patternType m).map (·.result m) := by
  rw [recorded]
  induction C.alternativesFrom 0 r.cases with
  | nil => rfl
  | cons a alternatives ih =>
      have hresults : (C.recordedFor (TypeSet.ofUnion r.union).members a).filter
          (·.member = m) = if C.hierarchy.decls.Compatible a.patternType m then [a.result m]
            else [] := by
        have hfilter := filter_member hm fun m => C.hierarchy.decls.Compatible a.patternType m
        rw [recordedFor, List.filter_map]
        change List.map a.result (List.filter (· = m) _) = _
        rw [hfilter]
        simp only [decide_eq_true_eq]
        split <;> rfl
      rw [List.flatMap_cons, List.filter_append, ih, hresults, List.filter_cons]
      simp only [decide_eq_true_eq]
      split <;> rfl

open Classical in
/-- An analysis that succeeds hands back its cases, each of which was extracted. Its table has,
for each member of the union, one result for each alternative whose pattern type is comparable
with the member, case by case and those of a case as they were extracted, and nothing else. The
members that have results stand in the order of their first ones. -/
theorem analyze_records {r : AnalysisRequest} {analysis : Analysis}
    (h : (C.analyze r).value? = some (.ok analysis)) :
    analysis.cases = r.cases ∧
    (∀ c ∈ r.cases, C.extraction c = some (.ok (C.alternativesOf c))) ∧
    (∀ m ∈ (TypeSet.ofUnion r.union).members, analysis.matchTable.get m =
      ((C.alternativesFrom 0 r.cases).filter fun a =>
        C.hierarchy.decls.Compatible a.patternType m).map (·.result m)) ∧
    (∀ m, m ∈ analysis.matchTable.members ↔ analysis.matchTable.get m ≠ []) ∧
    (∀ m ∈ analysis.matchTable.members, m ∈ (TypeSet.ofUnion r.union).members) ∧
    analysis.matchTable.members.Nodup ∧
    analysis.matchTable.members = ((C.recorded r).map MatchResult.member).eraseDups ∧
    analysis.matchTable.resultCount =
      (analysis.matchTable.members.map fun m => (analysis.matchTable.get m).length).sum := by
  obtain ⟨s', hrun⟩ := value?_analyze.1 h
  obtain ⟨result, s₁, hexamine, hend⟩ := yields_run.1 hrun
  obtain ⟨hcases, rfl⟩ := conclude_eq_ok hend
  obtain ⟨s₂, s₃, hremembers, hbind⟩ := bindCases_of_examine (remembers_freshState C) hexamine
  obtain ⟨hextracted, htable⟩ := recordedFor_of_bindCases hremembers.fields hbind
  have hrecorded : analysis.matchTable = .ofResults (C.recorded r) := htable
  rw [hrecorded]
  have hnodup := MatchTable.nodup_members_ofResults (C.recorded r)
  refine ⟨hcases, hextracted, fun m hm => ?_, fun m => MatchTable.mem_members_ofResults_iff,
    fun m hm => ?_, hnodup, MatchTable.members_ofResults _, MatchTable.resultCount_eq_sum hnodup⟩
  · rw [MatchTable.get_ofResults, filter_recorded hm]
  · rw [MatchTable.members_ofResults, List.mem_eraseDups, List.mem_map] at hm
    obtain ⟨result, hresult, rfl⟩ := hm
    obtain ⟨a, -, hresult⟩ := List.mem_flatMap.1 hresult
    obtain ⟨m, hm, rfl⟩ := List.mem_map.1 hresult
    exact List.mem_of_mem_filter hm

/-- A case set on `int | str` with the cases `_: int` and `_`, which need not be total. -/
def intThenAny : AnalysisRequest where
  union := .union (.prim .int) (.prim .str)
  cases := [anyInt, ⟨.wildcard default, default, none⟩]
  completeness := .partially
  span := default

/-- What `_: int` and then `_` record. -/
def intThenAnyTable : MatchTable :=
  ⟨[(.prim .int,
      [⟨0, default, false, anyInt.pattern, .prim .int, .ascription (.prim .int)⟩,
        ⟨1, default, false, .wildcard default, .prim .int, .catchAll⟩]),
    (.prim .str, [⟨1, default, false, .wildcard default, .prim .str, .catchAll⟩])]⟩

theorem answer_wildcard (fields : FieldCache) :
    (startingChecker.extractor.extractAlternatives (.wildcard default)).answer fields =
      some (.ok [(.wildcard default, .catchAll)], fields) := by
  change (startingChecker.extractor.extract (.wildcard default) >>= _).answer fields = _
  rw [Extraction.answer_bind, Extractor.answer_extract]
  rfl

theorem analyze_intThenAny : ∃ notes, (startingChecker.analyze intThenAny).value? =
    some (.ok ⟨intThenAny.cases, intThenAnyTable, notes⟩) := by
  have hfirst : (startingChecker.bindAll ⟨[.prim .int, .prim .str]⟩ 0 anyInt
      [(anyInt.pattern, .ascription (.prim .int))] .empty).Yields intState intTable intState := rfl
  have hsecond : (startingChecker.bindAll ⟨[.prim .int, .prim .str]⟩ 1
      ⟨.wildcard default, default, none⟩ [(.wildcard default, .catchAll)] intTable).Yields
      intState intThenAnyTable intState := rfl
  have hbind : (startingChecker.bindCases ⟨[.prim .int, .prim .str]⟩ 0 intThenAny.cases
      .empty).Yields intState (.ok intThenAnyTable) intState := by
    apply Step.yields_bind.2 ⟨_, _, yields_alternatives.2 ⟨_, answer_anyInt _, rfl⟩, ?_⟩
    apply Step.yields_bind.2 ⟨_, _, hfirst, ?_⟩
    apply Step.yields_bind.2 ⟨_, _, yields_alternatives.2 ⟨_, answer_wildcard _, rfl⟩, ?_⟩
    exact Step.yields_bind.2 ⟨_, _, hsecond, Step.yields_pure.2 ⟨rfl, rfl⟩⟩
  have hexamine : (startingChecker.examine intThenAny).Yields startingChecker.freshState
      (.ok intThenAnyTable) intState :=
    Step.yields_bind.2 ⟨_, intState, rfl, Step.yields_bind.2 ⟨_, _, hbind, rfl⟩⟩
  have hend : (conclude intThenAny (.ok intThenAnyTable)).Yields intState
      (.ok ⟨intThenAny.cases, intThenAnyTable, intState.queue.flush.1⟩)
      { intState with queue := intState.queue.flush.2 } :=
    Step.yields_bind.2 ⟨_, _, Step.yields_get.2 ⟨rfl, rfl⟩,
      Step.yields_bind.2 ⟨_, _, Step.yields_flush.2 ⟨rfl, rfl⟩, Step.yields_pure.2 ⟨rfl, rfl⟩⟩⟩
  exact ⟨_, value?_analyze.2 ⟨_, yields_run.2 ⟨_, _, hexamine, hend⟩⟩⟩

/-- The first case has a result for `int` only, the second one for each member. -/
theorem analyze_records_int_then_any : ∃ analysis,
    (startingChecker.analyze intThenAny).value? = some (.ok analysis) ∧
      analysis.cases = intThenAny.cases ∧
      analysis.matchTable.members.Nodup ∧
      (∀ m, m ∈ analysis.matchTable.members ↔ analysis.matchTable.get m ≠ []) ∧
      analysis.matchTable.resultCount = 3 := by
  obtain ⟨notes, hanalyze⟩ := analyze_intThenAny
  obtain ⟨hcases, -, -, hmembers, -, hnodup, -, -⟩ := analyze_records hanalyze
  exact ⟨_, hanalyze, hcases, hnodup, hmembers, rfl⟩

end Checker

end CaseCover
