import CaseCover.Proofs.Analysis.Steps
import CaseCover.Proofs.Check.Termination
import CaseCover.Proofs.Pattern.ExtractionEnds
import CaseCover.Proofs.Union.Agreement

/-!
Analyses that end. Binding asks about subtyping only, once the alternatives of the cases are
extracted (`bindAll_ends`); an extraction and a check ask for joins as well. So where questions
about subtyping and joins have answers, an analysis has a verdict, whatever it is asked and
whatever a session remembers (`run_ends`, `analyze_ends`).
-/

namespace CaseCover

namespace Step

variable {α β : Type}

/-- In every state, a family of steps settles. -/
def Ends (m : Nat → Step α) : Prop := ∀ s, Query.Ends fun n => (m n).run s

theorem ends_pure (a : α) : Ends fun _ => (pure a : Step α) :=
  fun s => Query.ends_pure (a, s)

theorem ends_get : Ends fun _ => (get : Step SessionState) :=
  fun s => Query.ends_pure (s, s)

theorem ends_modify (f : SessionState → SessionState) : Ends fun _ => (modify f : Step Unit) :=
  fun s => Query.ends_pure ((), f s)

/-- A report ends, if it is the same in every member of the family. -/
theorem ends_report {d : Nat → Diagnostic} (hd : ∀ n, d n = d 0) : Ends fun n => report (d n) := by
  intro s
  simp only [hd]
  exact ends_modify (fun s => { s with queue := s.queue.add (d 0) }) s

theorem ends_ask {q : Nat → Query α} (hq : Query.Ends q) : Ends fun n => ask (q n) :=
  fun s => (hq.map fun a => (a, s)).congr fun n => by
    rw [value?_run_ask, Query.value?_map]

/-- A composed step ends when its first part does and, whatever that answers, its second. -/
theorem Ends.bind {m : Nat → Step α} {f : Nat → α → Step β} (hm : Ends m)
    (hf : ∀ a, Ends fun n => f n a) : Ends fun n => m n >>= f n := by
  intro s
  refine Query.Ends.congr (fun n => by rw [StateT.run_bind]) ?_
  exact (hm s).bind fun found _ => hf found.1 found.2

/-- A step that asks about its state and keeps a part of the answer ends when the question does,
in that state. -/
theorem ends_keep {q : Nat → SessionState → Query (α × β)}
    (keep : β → SessionState → SessionState) (hq : ∀ s, Query.Ends fun n => q n s) :
    Ends fun n => (do
      let (answer, kept) ← ask (q n (← get))
      modify (keep kept)
      return answer : Step α) := by
  refine ends_get.bind fun s => (ends_ask (hq s)).bind fun found => ?_
  exact (ends_modify _).bind fun _ => ends_pure _

theorem ends_askUnions {q : Nat → UnionCache → Query (α × UnionCache)}
    (hq : ∀ cache, Query.Ends fun n => q n cache) : Ends fun n => askUnions (q n) :=
  ends_keep (fun unions s => { s with unions }) fun s => hq s.unions

theorem ends_expand (t : Ty) : Ends fun _ => expand t :=
  ends_askUnions fun cache => Query.ends_pure (cache.expand t)

theorem ends_flush : Ends fun _ => flush :=
  ends_get.bind fun _ => (ends_modify _).bind fun _ => ends_pure _

end Step

namespace Extractor

variable {E : Extractor}

theorem extractEach_ends (hD : E.hierarchy.decls.Settled) (ps : List Pattern) :
    Extraction.Ends fun n => (E.within n).extractEach ps := by
  induction ps with
  | nil => exact Extraction.ends_pure _
  | cons p ps ih =>
      refine (extract_ends hD p).bind fun results => ih.bind fun others => ?_
      exact Extraction.ends_pure _

theorem extractAlternatives_ends (hD : E.hierarchy.decls.Settled) (p : Pattern) :
    Extraction.Ends fun n => (E.within n).extractAlternatives p :=
  extractEach_ends hD _

end Extractor

namespace Checker

open Query (ends_pure)

variable {C : Checker}

theorem alternatives_ends (hD : C.hierarchy.decls.Settled) (c : Case) :
    Step.Ends fun n => (C.within n).alternatives c :=
  Step.ends_keep (fun fields s => { s with fields }) fun s =>
    Extractor.extractAlternatives_ends (E := C.extractor) hD c.pattern s.fields

section Subtyping

variable (hD : ∀ a b, C.hierarchy.decls.SubtypeFinite a b)

include hD

theorem comparable_ends (a b : Ty) : Query.Ends fun n => (C.within n).comparable a b := by
  refine (hD a b).ends.bind fun below _ => ?_
  cases below with
  | true => exact ends_pure true
  | false => exact (hD b a).ends

theorem membersMatched_ends (p : PatternType) (union : TypeSet) :
    Query.Ends fun n => (C.within n).membersMatched p union := by
  by_cases hcatch : p.isCatchAll = true
  · simp only [membersMatched, if_pos hcatch]
    exact ends_pure _
  · simp only [membersMatched, if_neg hcatch]
    exact Query.filter_ends_of_mem fun m _ => comparable_ends hD p.ty m

theorem partOf_ends (cache : UnionCache) (t : Ty) (target : TypeSet) :
    Query.Ends fun n => (C.within n).hierarchy.partOf cache t target :=
  (Declarations.mismatch?_ends fun u _ m _ => hD u m).map _

/-- Binding an alternative ends where questions about subtyping do. -/
theorem bind_ends (union : TypeSet) (index : Nat) (c : Case)
    (alternative : Pattern × PatternType) (table : MatchTable) :
    Step.Ends fun n => (C.within n).bind union index c alternative table := by
  refine (Step.ends_ask (membersMatched_ends hD alternative.2 union)).bind fun members => ?_
  by_cases hempty : members.isEmpty = true
  · simp only [if_pos hempty]
    refine (Step.ends_askUnions fun cache => partOf_ends hD cache _ union).bind fun found => ?_
    cases found with
    | none => exact Step.ends_pure table
    | some mismatch =>
        exact (Step.ends_report fun _ => rfl).bind fun _ => Step.ends_pure table
  · simp only [if_neg hempty]
    exact Step.ends_pure _

theorem bindAll_ends (union : TypeSet) (index : Nat) (c : Case)
    (found : List (Pattern × PatternType)) (table : MatchTable) :
    Step.Ends fun n => (C.within n).bindAll union index c found table := by
  induction found generalizing table with
  | nil => exact Step.ends_pure table
  | cons a found ih => exact (bind_ends hD union index c a table).bind fun next => ih next

theorem requiredMembers_ends (r : AnalysisRequest) (union : TypeSet) :
    Step.Ends fun n => (C.within n).requiredMembers r union := by
  unfold requiredMembers
  cases r.required with
  | none => exact Step.ends_pure _
  | some part =>
      have hwanted : Step.Ends fun n => (do
          let wanted ← Step.expand part
          Step.ask (Query.filter
            (fun m => Query.any ((C.within n).comparable m) wanted.members) union.members)) :=
        (Step.ends_expand part).bind fun wanted => Step.ends_ask
          (Query.filter_ends_of_mem fun m _ => Query.any_ends (comparable_ends hD m) _)
      refine (Step.ends_askUnions fun cache => partOf_ends hD _ part _).bind fun found => ?_
      cases found with
      | none => exact hwanted
      | some mismatch => exact (Step.ends_report fun _ => rfl).bind fun _ => hwanted

end Subtyping

theorem bindCases_ends (hD : C.hierarchy.decls.Settled) (union : TypeSet) (index : Nat)
    (cases : List Case) (table : MatchTable) :
    Step.Ends fun n => (C.within n).bindCases union index cases table := by
  induction cases generalizing index table with
  | nil => exact Step.ends_pure _
  | cons c rest ih =>
      refine (alternatives_ends hD c).bind fun result => ?_
      cases result with
      | error e => exact Step.ends_pure _
      | ok found =>
          exact (bindAll_ends hD.subtype union index c found table).bind fun next => ih _ next

theorem checkCoverage_ends (required : List Ty) (table : MatchTable) (span : Span) :
    Step.Ends fun n => (C.within n).checkCoverage required table span := by
  unfold checkCoverage
  dsimp only
  split
  · exact Step.ends_pure ()
  · exact Step.ends_report fun _ => rfl

theorem checkMember_ends (hD : C.hierarchy.decls.Settled) (member : Ty)
    (results : List MatchResult) (span : Span) :
    Step.Ends fun n => (C.within n).checkMember member results span := by
  have hcheck := check_ends hD member ((C.evidence results).map fun r =>
    (r.alternative, r.patternType))
  refine (Step.ends_ask hcheck).bind fun coverage => ?_
  cases coverage with
  | covered => exact Step.ends_pure ()
  | missing texts note => exact Step.ends_report fun _ => rfl
  | inconclusive limit => exact Step.ends_report fun _ => rfl

theorem checkMembers_ends (hD : C.hierarchy.decls.Settled) (table : MatchTable) (span : Span)
    (members : List Ty) : Step.Ends fun n => (C.within n).checkMembers table span members := by
  induction members with
  | nil => exact Step.ends_pure ()
  | cons member rest ih =>
      unfold checkMembers
      dsimp only
      split
      · exact ih
      · exact (checkMember_ends hD member _ span).bind fun _ => ih

theorem checkTotal_ends (hD : C.hierarchy.decls.Settled) (r : AnalysisRequest) (union : TypeSet)
    (table : MatchTable) : Step.Ends fun n => (C.within n).checkTotal r union table := by
  refine (requiredMembers_ends hD.subtype r union).bind fun required => ?_
  refine (checkCoverage_ends required table r.span).bind fun _ => ?_
  exact checkMembers_ends hD table r.span required

/-- An analysis of a session has a verdict where subtyping and joins are found. -/
theorem run_ends (hD : C.hierarchy.decls.Settled) (r : AnalysisRequest) :
    Step.Ends fun n => (C.within n).run r := by
  refine (Step.ends_expand r.union).bind fun union => ?_
  refine (bindCases_ends hD union 0 r.cases .empty).bind fun result => ?_
  cases result with
  | error e =>
      refine (Step.ends_report fun _ => rfl).bind fun _ => Step.ends_flush.bind fun _ => ?_
      exact Step.ends_pure _
  | ok table =>
      cases r.completeness with
      | total =>
          refine (checkTotal_ends hD r union table).bind fun _ => ?_
          refine Step.ends_get.bind fun s => Step.ends_flush.bind fun _ => ?_
          cases s.queue.hasErrors <;> exact Step.ends_pure _
      | partially =>
          refine Step.ends_get.bind fun s => Step.ends_flush.bind fun _ => ?_
          cases s.queue.hasErrors <;> exact Step.ends_pure _

theorem analyze_ends (hD : C.hierarchy.decls.Settled) (r : AnalysisRequest) :
    Query.Ends fun n => (C.within n).analyze r :=
  (run_ends hD r C.freshState).map _

end Checker

end CaseCover
