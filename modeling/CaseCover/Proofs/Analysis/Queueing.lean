import CaseCover.Proofs.Analysis.Steps
import CaseCover.Proofs.Check.Search

/-!
The configuration of the queue is no part of any question. A checker that queues its
diagnostics in another way asks and answers as before, and an analysis takes the same steps
(`run_queueing`); only the queue that it starts with is another.
-/

namespace CaseCover

namespace Checker

/-- The checker with another configuration of its queue. -/
def queueing (C : Checker) (queue : QueueConfig) : Checker :=
  ⟨C.hierarchy, { C.config with diagnostics := queue }⟩

variable (C : Checker) (queue : QueueConfig)

theorem gapsByCtor_queueing
    (gapsOf : List Row → List Column → Search (List (List Gap))) (rows : List Row)
    (column : Column) (rest : List Column) (ctors : List Ctor) (known : List (List Gap)) :
    (C.queueing queue).gapsByCtor gapsOf rows column rest ctors known =
      C.gapsByCtor gapsOf rows column rest ctors known := by
  induction ctors generalizing known with
  | nil => rfl
  | cons ctor ctors ih =>
      have hrow : (C.queueing queue).specializeRow = C.specializeRow :=
        C.specializeRow_configured _
      unfold gapsByCtor
      simp only [ih, hrow]
      rfl

theorem gapsWithin_queueing (depth : Nat) (rows : List Row) (columns : List Column) :
    (C.queueing queue).gapsWithin depth rows columns = C.gapsWithin depth rows columns := by
  induction depth generalizing rows columns with
  | zero => rfl
  | succ depth ih =>
      have hgapsOf : (C.queueing queue).gapsWithin depth = C.gapsWithin depth := by
        funext rows columns
        exact ih rows columns
      have hnormalize : (C.queueing queue).normalize = C.normalize := by
        funext ty rows
        exact C.normalize_configured _ ty rows
      unfold gapsWithin
      simp only [hgapsOf, hnormalize, gapsByCtor_queueing]
      rfl

theorem check_queueing : (C.queueing queue).check = C.check := by
  funext target patterns
  unfold check checkClosed gaps
  simp only [gapsWithin_queueing]
  rfl

theorem bindAll_queueing (union : TypeSet) (index : Nat) (c : Case)
    (found : List (Pattern × PatternType)) (table : MatchTable) :
    (C.queueing queue).bindAll union index c found table =
      C.bindAll union index c found table := by
  induction found generalizing table with
  | nil => rfl
  | cons p found ih =>
      unfold bindAll
      simp only [ih]
      rfl

theorem bindCases_queueing (union : TypeSet) (index : Nat) (cases : List Case)
    (table : MatchTable) :
    (C.queueing queue).bindCases union index cases table =
      C.bindCases union index cases table := by
  induction cases generalizing index table with
  | nil => rfl
  | cons c rest ih =>
      unfold bindCases
      simp only [ih, bindAll_queueing]
      rfl

theorem checkMember_queueing : (C.queueing queue).checkMember = C.checkMember := by
  funext member results span
  unfold checkMember
  rw [check_queueing]
  rfl

theorem checkMembers_queueing (table : MatchTable) (span : Span) (members : List Ty) :
    (C.queueing queue).checkMembers table span members = C.checkMembers table span members := by
  induction members with
  | nil => rfl
  | cons m members ih =>
      unfold checkMembers
      rw [ih, checkMember_queueing]

/-- An analysis takes the same steps however its diagnostics are queued. -/
theorem run_queueing (r : AnalysisRequest) : (C.queueing queue).run r = C.run r := by
  unfold run checkTotal
  simp only [bindCases_queueing, checkMembers_queueing]
  rfl

end Checker

end CaseCover
