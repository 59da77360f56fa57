import CaseCover.Proofs.Diagnostic.Accounting

/-!
What the evidence of an error is worth. A queue gives evidence for every error that is offered to
it, also for one that it drops. At the limit it has other errors; but a repeated diagnostic is
known by code, message and place alone, and what an error repeats may be a mere note
(`exists_vacuous_evidence`). When the queue has taken no error, and only then, nothing stands
behind the evidence (`emitError_evidence`). Where the code decides the severity this does not
happen (`hasErrors_emitError_of_graded`): whatever the queue drops, it has counted an error
exactly when one was offered (`hasErrors_extend`).
-/

namespace CaseCover

namespace DiagnosticQueue

variable {config : QueueConfig} {offered : List Diagnostic} {d : Diagnostic}

theorem hasErrors_eq_some_iff (q : DiagnosticQueue) :
    q.hasErrors = some ⟨⟩ ↔ 0 < q.errorCount := by
  rw [hasErrors]
  by_cases h : 0 < q.errorCount
  · rw [if_pos h]
    exact iff_of_true rfl h
  · rw [if_neg h]
    exact iff_of_false (Option.some_ne_none _).symm h

/-- At its limit a queue has taken an error. -/
theorem errorCount_pos_of_limitReached {q : DiagnosticQueue} (h : q.limitReached = true) :
    0 < q.errorCount := by
  rw [limitReached_iff] at h
  omega

theorem Ledger.errorCount_pos_iff {q : DiagnosticQueue} (h : Ledger config offered q) :
    0 < q.errorCount ↔ ∃ x ∈ (empty config).taken offered, x.isError = true := by
  rw [h.counted, List.countP_pos_iff]

/-- The note of the limit is an error as well, but it never stands alone. -/
theorem Holds.exists_isError_iff {reported : Bool} {held : List Diagnostic}
    (h : Holds config offered reported held) : (∃ x ∈ held, x.isError = true) ↔
      ∃ x ∈ (empty config).taken offered, x.isError = true := by
  cases h with
  | within _ => exact Iff.rfl
  | exceeded before _ _ _ _ hexceeds hlater =>
      have hcounted := errorCount_pos_of_limitReached hexceeds.reached
      rw [(ledger_extend config before).errorCount_pos_iff] at hcounted
      obtain ⟨x, hx, herror⟩ := hcounted
      rw [hlater]
      exact iff_of_true ⟨x, List.mem_append_left _ hx, herror⟩
        ⟨x, List.mem_append_left _ hx, herror⟩

/-- A new queue that was offered some diagnostics took none of them as an error, and drops a
further one as a repetition. -/
structure Masked (config : QueueConfig) (offered : List Diagnostic) (d : Diagnostic) : Prop where
  deduplicate : config.deduplicate = true
  repeats : ∃ x ∈ (empty config).taken offered, x.fingerprint = d.fingerprint
  no_error : ¬ ∃ x ∈ (empty config).taken offered, x.isError = true

/-- When an error has just been offered, one is counted unless that one was masked. -/
theorem errorCount_add_pos_iff (herror : d.isError = true) :
    0 < (((empty config).extend offered).add d).errorCount ↔ ¬ Masked config offered d := by
  have h := ledger_extend config offered
  rw [add]
  cases ((empty config).extend offered).outcome d with
  | overLimit _ hlimit hpush =>
      have hcounted := errorCount_pos_of_limitReached hlimit
      rw [hpush, (errorCount_reportLimit _ d).1]
      exact iff_of_true hcounted fun hmasked =>
        hmasked.no_error (h.errorCount_pos_iff.1 hcounted)
  | repeated _ hdeduplicate hseen hpush =>
      rw [h.config_eq] at hdeduplicate
      have hrepeats := (h.remembered hdeduplicate d.fingerprint).1 hseen
      rw [hpush, h.errorCount_pos_iff]
      constructor
      · exact fun hcounted hmasked => hmasked.no_error hcounted
      · exact fun hmasked => by_contra fun hnone => hmasked ⟨hdeduplicate, hrepeats, hnone⟩
  | taken _ hnew hpush =>
      rw [h.config_eq] at hnew
      rw [hpush, errorCount_accept, List.countP_singleton, if_pos herror]
      exact iff_of_true (Nat.succ_pos _) fun hmasked => hnew hmasked.deduplicate
        ((h.remembered hmasked.deduplicate d.fingerprint).2 hmasked.repeats)

/-- After any history, evidence is given for every error that is offered. The queue then holds an
error, and says so, unless the one that was offered repeats a diagnostic of this batch and the
queue has taken no error since the batch began. -/
theorem emitError_evidence (config : QueueConfig) (steps : List QueueStep) (d : Diagnostic)
    (herror : d.isError = true) :
    ∃ q, ((empty config).run steps).emitError d = .ok (⟨⟩, q) ∧
      ((∃ x ∈ q.diagnostics, x.isError = true) ↔ q.hasErrors = some ⟨⟩) ∧
      (q.hasErrors = some ⟨⟩ ↔ ¬ Masked config (QueueStep.sinceFlush steps) d) := by
  refine ⟨_, emitError_of_isError _ herror, ?_⟩
  rw [run_eq_extend, hasErrors_eq_some_iff]
  refine ⟨?_, errorCount_add_pos_iff herror⟩
  have h := ledger_extend config (QueueStep.sinceFlush steps ++ [d])
  rw [extend_concat] at h
  rw [h.holds.exists_isError_iff, h.errorCount_pos_iff]

/-- A problem that is only noted. -/
def noted : Diagnostic := .noteAt .notInUnion "not a member" ⟨5, 6⟩ "here"

/-- The same problem as an error. -/
def raised : Diagnostic := .errorAt .notInUnion "not a member" ⟨5, 6⟩ "here"

/-- A new batch does not remember the note. -/
theorem emitError_evidence_raised : raised.isError = true ∧
    ∃ q, ((empty {}).run [.push noted, .flush]).emitError raised = .ok (⟨⟩, q) ∧
      q.hasErrors = some ⟨⟩ := by
  obtain ⟨q, hemit, -, hhas⟩ := emitError_evidence {} [.push noted, .flush] raised rfl
  refine ⟨rfl, q, hemit, hhas.2 fun hmasked => ?_⟩
  obtain ⟨x, hx, -⟩ := hmasked.repeats
  exact absurd hx List.not_mem_nil

theorem masked_raised : Masked {} [noted] raised := by
  have htaken : (empty {}).taken [noted] = [noted] := rfl
  refine ⟨rfl, ?_, ?_⟩
  · rw [htaken]
    exact ⟨noted, List.mem_cons_self, rfl⟩
  · rintro ⟨x, hx, herror⟩
    rw [htaken, List.mem_singleton] at hx
    subst hx
    exact Bool.false_ne_true herror

/-- In one batch the note hides the error, whose evidence is then vacuous. -/
theorem exists_vacuous_evidence :
    ¬ ∀ (config : QueueConfig) (steps : List QueueStep) (d : Diagnostic), d.isError = true →
      ∃ e q, ((empty config).run steps).emitError d = .ok (e, q) ∧
        (∃ x ∈ q.diagnostics, x.isError = true) ∧ q.hasErrors.isSome = true := by
  intro h
  obtain ⟨e, q, hemit, -, hhas⟩ := h {} [.push noted] raised rfl
  rw [emitError_of_isError _ rfl] at hemit
  cases hemit
  rw [Option.isSome_iff_exists] at hhas
  obtain ⟨⟨⟩, hhas⟩ := hhas
  rw [hasErrors_eq_some_iff, run_eq_extend] at hhas
  exact (errorCount_add_pos_iff rfl).1 hhas masked_raised

section Graded

/-- What an error repeats is an error, as both have one code. -/
theorem not_masked_of_graded (hoffered : ∀ x ∈ offered, x.Graded) (hd : d.Graded)
    (herror : d.isError = true) : ¬ Masked config offered d := by
  intro hmasked
  obtain ⟨x, hx, hfingerprint⟩ := hmasked.repeats
  have hcode : x.code = d.code := congrArg Fingerprint.code hfingerprint
  have hgraded := hoffered x (mem_of_mem_taken hx)
  exact hmasked.no_error ⟨x, hx, (hgraded.isError_eq hd hcode).trans herror⟩

/-- Whatever a queue drops, it has counted an error exactly when one was offered. -/
theorem hasErrors_extend (config : QueueConfig) (hoffered : ∀ x ∈ offered, x.Graded) :
    ((empty config).extend offered).hasErrors = some ⟨⟩ ↔ ∃ x ∈ offered, x.isError = true := by
  rw [hasErrors_eq_some_iff, (ledger_extend config offered).errorCount_pos_iff]
  constructor
  · rintro ⟨x, hx, herror⟩
    exact ⟨x, mem_of_mem_taken hx, herror⟩
  · rintro ⟨d, hd, herror⟩
    obtain ⟨before, after, rfl⟩ := List.append_of_mem hd
    -- An error is counted once this one has been offered, and stays taken.
    have hbefore : ∀ x ∈ before, x.Graded := fun x hx => hoffered x (List.mem_append_left _ hx)
    have hcounted : 0 < (((empty config).extend before).add d).errorCount :=
      (errorCount_add_pos_iff herror).2 (not_masked_of_graded hbefore (hoffered d hd) herror)
    rw [← extend_concat, (ledger_extend config _).errorCount_pos_iff] at hcounted
    obtain ⟨x, hx, herror⟩ := hcounted
    rw [List.append_cons, taken_append]
    exact ⟨x, List.mem_append_left _ hx, herror⟩

/-- Where the severity of each diagnostic is that of its code, the evidence of an error is never
vacuous. -/
theorem hasErrors_emitError_of_graded (steps : List QueueStep)
    (hoffered : ∀ x ∈ QueueStep.sinceFlush steps, x.Graded) (hd : d.Graded)
    (herror : d.isError = true) : ∃ q, ((empty config).run steps).emitError d = .ok (⟨⟩, q) ∧
      q.hasErrors = some ⟨⟩ := by
  refine ⟨_, emitError_of_isError _ herror, ?_⟩
  rw [run_eq_extend, hasErrors_eq_some_iff]
  exact (errorCount_add_pos_iff herror).2 (not_masked_of_graded hoffered hd herror)

end Graded

end DiagnosticQueue

end CaseCover
