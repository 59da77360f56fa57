import Mathlib.Data.List.Pairwise
import CaseCover.Proofs.Diagnostic.Queue

/-!
Histories of a queue. A client offers diagnostics one at a time, several at once or as errors,
and takes out the batch from time to time. A batch is taken out whole, so after any history a
queue is a new one that was offered what came since the last batch (`run_eq_extend`). Of what it
is offered it takes a part (`taken`), and the batch is that part in the order of its places
(`flush_stable`).
-/

namespace CaseCover

/-- What a client does with a queue. -/
inductive QueueStep
  | push (d : Diagnostic)
  | extend (ds : List Diagnostic)
  /-- Offer an error, for evidence that there was one. -/
  | emit (d : Diagnostic)
  | flush

namespace QueueStep

/-- What the next batch has been offered after a step, given what it was offered before. What is
no error cannot be offered as one. -/
def offered (before : List Diagnostic) : QueueStep → List Diagnostic
  | push d => before ++ [d]
  | extend ds => before ++ ds
  | emit d => if d.isError then before ++ [d] else before
  | flush => []

/-- What has been offered since the last batch was taken out. -/
def sinceFlush (steps : List QueueStep) : List Diagnostic := steps.foldl offered []

end QueueStep

namespace DiagnosticQueue

/-- The queue after a step. -/
def after (q : DiagnosticQueue) : QueueStep → DiagnosticQueue
  | .push d => (q.push d).2
  | .extend ds => q.extend ds
  | .emit d =>
    match q.emitError d with
    | .ok (_, next) => next
    | .error _ => q
  | .flush => q.flush.2

def run (q : DiagnosticQueue) (steps : List QueueStep) : DiagnosticQueue :=
  steps.foldl after q

theorem extend_concat (q : DiagnosticQueue) (ds : List Diagnostic) (d : Diagnostic) :
    q.extend (ds ++ [d]) = (q.extend ds).add d :=
  q.extend_append ds [d]

theorem emitError_of_isError (q : DiagnosticQueue) {d : Diagnostic} (hd : d.isError = true) :
    q.emitError d = .ok (⟨⟩, q.add d) := by
  rw [emitError, if_pos hd]

/-- A step from a new queue that was offered some diagnostics leads to such a queue again. -/
theorem after_extend (config : QueueConfig) (before : List Diagnostic) (step : QueueStep) :
    ((empty config).extend before).after step =
      (empty config).extend (step.offered before) := by
  cases step with
  | push d => exact ((empty config).extend_concat before d).symm
  | extend ds => exact ((empty config).extend_append before ds).symm
  | emit d =>
      rw [after, QueueStep.offered]
      by_cases hd : d.isError = true
      · rw [emitError_of_isError _ hd, if_pos hd, extend_concat]
      · rw [emitError, if_neg hd, if_neg hd]
  | flush =>
      rw [after, flush, config_extend]
      rfl

theorem run_eq_extend (config : QueueConfig) (steps : List QueueStep) :
    (empty config).run steps = (empty config).extend (QueueStep.sinceFlush steps) := by
  suffices h : ∀ before, ((empty config).extend before).run steps =
      (empty config).extend (steps.foldl QueueStep.offered before) from h []
  intro before
  induction steps generalizing before with
  | nil => rfl
  | cons step steps ih =>
      have hstep := after_extend config before step
      rw [run, List.foldl_cons, hstep]
      exact ih (step.offered before)

/-- The diagnostics of a list that a queue takes when they are offered to it in turn. -/
def taken (q : DiagnosticQueue) : List Diagnostic → List Diagnostic
  | [] => []
  | d :: ds => if (q.push d).1 then d :: taken (q.add d) ds else taken (q.add d) ds

theorem taken_append (q : DiagnosticQueue) (ds es : List Diagnostic) :
    q.taken (ds ++ es) = q.taken ds ++ (q.extend ds).taken es := by
  induction ds generalizing q with
  | nil => rfl
  | cons d ds ih =>
      have hrest := ih (q.add d)
      rw [List.cons_append, taken, taken, hrest]
      split <;> rfl

theorem taken_concat (q : DiagnosticQueue) (ds : List Diagnostic) (d : Diagnostic) :
    q.taken (ds ++ [d]) = q.taken ds ++ if ((q.extend ds).push d).1 then [d] else [] :=
  q.taken_append ds [d]

theorem mem_of_mem_taken {q : DiagnosticQueue} {ds : List Diagnostic} {d : Diagnostic}
    (hd : d ∈ q.taken ds) : d ∈ ds := by
  induction ds generalizing q with
  | nil => exact hd
  | cons e ds ih =>
      rw [taken] at hd
      split at hd
      · rcases List.mem_cons.1 hd with rfl | hd
        · exact List.mem_cons_self
        · exact List.mem_cons_of_mem e (ih hd)
      · exact List.mem_cons_of_mem e (ih hd)

section Flush

theorem notAfter_trans (a b c : Diagnostic) (hab : a.place.notAfter b.place = true)
    (hbc : b.place.notAfter c.place = true) : a.place.notAfter c.place = true := by
  rw [Span.notAfter_iff] at hab hbc ⊢
  omega

theorem notAfter_total (a b : Diagnostic) :
    (a.place.notAfter b.place || b.place.notAfter a.place) = true := by
  rw [Bool.or_eq_true, Span.notAfter_iff, Span.notAfter_iff]
  omega

/-- The batch has the diagnostics of the queue, sorted by their places, and those at one place
stand as they stood in the queue. The queue is then as new. -/
theorem flush_stable (q : DiagnosticQueue) :
    q.flush.1.Perm q.diagnostics ∧
      q.flush.1.Pairwise (fun a b => a.place.notAfter b.place = true) ∧
      (∀ place, q.flush.1.filter (·.place = place) = q.diagnostics.filter (·.place = place)) ∧
      q.flush.2 = empty q.config := by
  have hperm : q.flush.1.Perm q.diagnostics := List.mergeSort_perm ..
  refine ⟨hperm, List.pairwise_mergeSort notAfter_trans notAfter_total _, fun place => ?_, rfl⟩
  -- What stands at one place is sorted as it is, so sorting keeps it as a sublist.
  have hsorted : (q.diagnostics.filter (·.place = place)).Pairwise
      (fun a b => a.place.notAfter b.place = true) := by
    apply List.pairwise_of_forall_mem_list
    intro a ha b hb
    rw [List.mem_filter, decide_eq_true_eq] at ha hb
    rw [ha.2, hb.2, Span.notAfter_iff]
    omega
  have hsublist : (q.diagnostics.filter (·.place = place)).Sublist q.flush.1 :=
    List.sublist_mergeSort notAfter_trans notAfter_total hsorted List.filter_sublist
  have hkept := hsublist.filter (·.place = place)
  simp only [List.filter_filter, Bool.and_self] at hkept
  exact (hkept.eq_of_length (hperm.filter _).length_eq.symm).symm

end Flush

end DiagnosticQueue

end CaseCover
