import CaseCover.Diagnostic.Queue

/-!
What becomes of a diagnostic that is offered to a queue. A queue drops an error at its limit and
what repeats something earlier, and takes the rest (`outcome`). Neither the limit nor whether
repetitions are dropped ever changes (`config_extend`).
-/

namespace CaseCover

/-- The severity of a diagnostic is that of its code: advice is no error, all else is. -/
def Diagnostic.Graded (d : Diagnostic) : Prop := d.isError = !d.code.isAdvice

theorem Diagnostic.Graded.isError_eq {d d' : Diagnostic} (hd : d.Graded) (hd' : d'.Graded)
    (hcode : d.code = d'.code) : d.isError = d'.isError := by
  rw [hd, hd', hcode]

namespace DiagnosticQueue

/-- What becomes of a diagnostic that is offered to a queue. -/
inductive Outcome (q : DiagnosticQueue) (d : Diagnostic) : Prop
  /-- It is an error too many. -/
  | overLimit (herror : d.isError = true) (hlimit : q.limitReached = true)
      (hpush : q.push d = (false, q.reportLimit d))
  /-- It repeats an earlier one. -/
  | repeated (hwithin : d.isError = true → q.limitReached = false)
      (hdeduplicate : q.config.deduplicate = true) (hseen : d.fingerprint ∈ q.seen)
      (hpush : q.push d = (false, q))
  | taken (hwithin : d.isError = true → q.limitReached = false)
      (hnew : q.config.deduplicate = true → d.fingerprint ∉ q.seen)
      (hpush : q.push d = (true, q.accept d))

theorem outcome (q : DiagnosticQueue) (d : Diagnostic) : q.Outcome d := by
  by_cases hover : (d.isError && q.limitReached) = true
  · obtain ⟨herror, hlimit⟩ := Bool.and_eq_true_iff.1 hover
    exact .overLimit herror hlimit (if_pos hover)
  have hwithin : d.isError = true → q.limitReached = false := by simpa using hover
  by_cases hrepeat : (q.config.deduplicate && decide (d.fingerprint ∈ q.seen)) = true
  · obtain ⟨hdeduplicate, hseen⟩ := Bool.and_eq_true_iff.1 hrepeat
    refine .repeated hwithin hdeduplicate (of_decide_eq_true hseen) ?_
    rw [push, if_neg hover, if_pos hrepeat]
  · refine .taken hwithin (by simpa using hrepeat) ?_
    rw [push, if_neg hover, if_neg hrepeat]

/-- Whether a queue has reached its limit, in numbers. -/
theorem limitReached_iff (q : DiagnosticQueue) : q.limitReached = true ↔
    0 < q.config.errorLimit ∧ q.config.errorLimit ≤ q.errorCount := by
  simp [limitReached]

theorem errorCount_reportLimit (q : DiagnosticQueue) (d : Diagnostic) :
    (q.reportLimit d).errorCount = q.errorCount ∧ (q.reportLimit d).seen = q.seen := by
  unfold reportLimit
  split
  · exact ⟨rfl, rfl⟩
  · exact ⟨rfl, rfl⟩

theorem config_reportLimit (q : DiagnosticQueue) (d : Diagnostic) :
    (q.reportLimit d).config = q.config := by
  unfold reportLimit
  split
  · rfl
  · rfl

/-- Offering a diagnostic does not change what a queue drops. -/
theorem config_add (q : DiagnosticQueue) (d : Diagnostic) : (q.add d).config = q.config := by
  rw [add]
  cases q.outcome d with
  | overLimit _ _ hpush =>
      rw [hpush]
      exact q.config_reportLimit d
  | repeated _ _ _ hpush => rw [hpush]
  | taken _ _ hpush => rw [hpush, accept]

theorem extend_append (q : DiagnosticQueue) (ds es : List Diagnostic) :
    q.extend (ds ++ es) = (q.extend ds).extend es :=
  List.foldl_append

theorem config_extend (q : DiagnosticQueue) (ds : List Diagnostic) :
    (q.extend ds).config = q.config := by
  induction ds generalizing q with
  | nil => rfl
  | cons d ds ih => exact (ih (q.add d)).trans (q.config_add d)

end DiagnosticQueue

end CaseCover
