import Mathlib.Data.Finset.Card
import CaseCover.Proofs.Diagnostic.Accounting

/-!
Offering the same diagnostic again. A queue that drops repetitions refuses what it has taken in
this batch (`push_again`). Mostly that leaves no trace. But the limit comes before the question
whether a diagnostic repeats another: when a repeated error is the first error that is offered at
the limit, the queue notes that errors were dropped though none was lost
(`exists_noted_repetition`). After that the repetition leaves no trace any more. A repetition never
counts, so errors reach the limit when there are as many different ones
(`limitReached_extend_of_errors`).
-/

namespace CaseCover

/-- How many of some diagnostics are different, as far as a queue tells them apart. -/
def QueueConfig.different (config : QueueConfig) (ds : List Diagnostic) : Nat :=
  if config.deduplicate then (ds.map Diagnostic.fingerprint).toFinset.card else ds.length

/-- One more diagnostic is one more different one unless it repeats another. -/
theorem QueueConfig.different_concat (config : QueueConfig) (ds : List Diagnostic)
    (d : Diagnostic) : config.different (ds ++ [d]) =
      if config.deduplicate = true ∧ d.fingerprint ∈ ds.map Diagnostic.fingerprint
      then config.different ds else config.different ds + 1 := by
  unfold different
  by_cases hdeduplicate : config.deduplicate = true
  · have hinsert : ((ds ++ [d]).map Diagnostic.fingerprint).toFinset =
        insert d.fingerprint (ds.map Diagnostic.fingerprint).toFinset := by
      ext f
      simp [eq_comm]
    by_cases hrepeats : d.fingerprint ∈ ds.map Diagnostic.fingerprint
    · rw [if_pos hdeduplicate, if_pos hdeduplicate, if_pos ⟨hdeduplicate, hrepeats⟩, hinsert,
        Finset.insert_eq_of_mem (List.mem_toFinset.2 hrepeats)]
    · rw [if_pos hdeduplicate, if_pos hdeduplicate, if_neg fun h => hrepeats h.2, hinsert,
        Finset.card_insert_of_notMem (mt List.mem_toFinset.1 hrepeats)]
  · rw [if_neg hdeduplicate, if_neg hdeduplicate, if_neg fun h => hdeduplicate h.1,
      List.length_append, List.length_singleton]

theorem QueueConfig.different_singleton (config : QueueConfig) (d : Diagnostic) :
    config.different [d] = 1 := by
  rw [different]
  split <;> rfl

namespace DiagnosticQueue

/-- A repeated error is the first error that is offered to the queue at its limit. -/
structure FirstAtLimit (q : DiagnosticQueue) (d : Diagnostic) : Prop where
  isError : d.isError = true
  reached : q.limitReached = true
  silent : q.limitReported = false

/-- Dropping an error at the limit leaves no trace once the queue has said so. -/
theorem reportLimit_eq_self_iff (q : DiagnosticQueue) (d : Diagnostic) :
    q.reportLimit d = q ↔ q.limitReported = true := by
  constructor
  · intro h
    rw [← h]
    exact (q.limitReported_reportLimit d).1
  · intro hreported
    rw [reportLimit, if_pos hreported]

/-- Noting the limit keeps a queue at its limit. -/
theorem limitReached_reportLimit (q : DiagnosticQueue) (d : Diagnostic) :
    (q.reportLimit d).limitReached = q.limitReached := by
  rw [limitReached, config_reportLimit, (errorCount_reportLimit q d).1]
  rfl

/-- A diagnostic that repeats another is refused; at the limit an error is refused as one too
many. -/
theorem push_of_mem_seen {q : DiagnosticQueue} {d : Diagnostic}
    (hdeduplicate : q.config.deduplicate = true) (hseen : d.fingerprint ∈ q.seen) :
    q.push d = (false, if d.isError && q.limitReached then q.reportLimit d else q) := by
  cases q.outcome d with
  | overLimit herror hlimit hpush => rw [hpush, herror, hlimit, Bool.and_self, if_pos rfl]
  | repeated hwithin _ _ hpush =>
      rw [hpush, if_neg]
      simpa using hwithin
  | taken _ hnew _ => exact absurd hseen (hnew hdeduplicate)

/-- A repetition leaves no trace exactly when it is not the first error at the limit. -/
theorem add_eq_self_iff {q : DiagnosticQueue} {d : Diagnostic}
    (hdeduplicate : q.config.deduplicate = true) (hseen : d.fingerprint ∈ q.seen) :
    q.add d = q ↔ ¬ q.FirstAtLimit d := by
  rw [add, push_of_mem_seen hdeduplicate hseen]
  by_cases hover : (d.isError && q.limitReached) = true
  · obtain ⟨herror, hlimit⟩ := Bool.and_eq_true_iff.1 hover
    rw [if_pos hover, reportLimit_eq_self_iff]
    constructor
    · exact fun hreported hfirst => Bool.false_ne_true (hfirst.silent.symm.trans hreported)
    · exact fun hfirst => by_contra fun h => hfirst ⟨herror, hlimit, Bool.eq_false_iff.2 h⟩
  · rw [if_neg hover]
    refine iff_of_true rfl fun hfirst => hover ?_
    rw [hfirst.isError, hfirst.reached, Bool.and_self]

/-- When a diagnostic that repeats another has been offered, offering it once more leaves no trace:
either the first offer left none, or it made the queue note the limit. -/
theorem push_add_of_mem_seen {q : DiagnosticQueue} {d : Diagnostic}
    (hdeduplicate : q.config.deduplicate = true) (hseen : d.fingerprint ∈ q.seen) :
    (q.add d).push d = (false, q.add d) := by
  by_cases hfirst : q.FirstAtLimit d
  · have hadd : q.add d = q.reportLimit d := by
      rw [add, push_of_mem_seen hdeduplicate hseen, hfirst.isError, hfirst.reached, Bool.and_self,
        if_pos rfl]
    have hreported : (q.reportLimit d).reportLimit d = q.reportLimit d :=
      (reportLimit_eq_self_iff _ d).2 (q.limitReported_reportLimit d).1
    rw [← q.config_reportLimit d] at hdeduplicate
    rw [← (q.errorCount_reportLimit d).2] at hseen
    rw [hadd, push_of_mem_seen hdeduplicate hseen, hreported, ite_self]
  · have hself : q.add d = q := (add_eq_self_iff hdeduplicate hseen).2 hfirst
    have hrefused : (q.push d).1 = false := by rw [push_of_mem_seen hdeduplicate hseen]
    rw [hself]
    exact Prod.ext hrefused hself

/-- What a queue has taken it remembers, whatever is offered after that. -/
theorem mem_seen_of_taken {config : QueueConfig} {offered : List Diagnostic} {d : Diagnostic}
    (hdeduplicate : config.deduplicate = true) (hd : d ∈ (empty config).taken offered) :
    d.fingerprint ∈ ((empty config).extend offered).seen :=
  ((ledger_extend config offered).remembered hdeduplicate _).2 ⟨d, hd, rfl⟩

/-- After any history of a queue that drops repetitions, a diagnostic that was taken since the last
batch is refused. The queue stays as it is unless this is the first error that is offered at the
limit; then it notes that errors were dropped, and after that it stays as it is. -/
theorem push_again (config : QueueConfig) (steps : List QueueStep) (d : Diagnostic)
    (hdeduplicate : config.deduplicate = true)
    (hd : d ∈ (empty config).taken (QueueStep.sinceFlush steps)) :
    let q := (empty config).run steps
    (q.push d).1 = false ∧
      ((q.push d).2 = q ↔ ¬ q.FirstAtLimit d) ∧
      (q.FirstAtLimit d → (q.push d).2 = { q with
        limitReported := true
        diagnostics := q.diagnostics ++ [.tooManyErrors config.errorLimit d.place] }) ∧
      (q.add d).push d = (false, q.add d) := by
  intro q
  have hoffered : q = (empty config).extend (QueueStep.sinceFlush steps) :=
    run_eq_extend config steps
  have hconfig : q.config = config := by rw [hoffered, config_extend]; rfl
  have hseen : d.fingerprint ∈ q.seen := by
    rw [hoffered]
    exact mem_seen_of_taken hdeduplicate hd
  rw [← hconfig] at hdeduplicate
  have hpush := push_of_mem_seen hdeduplicate hseen
  refine ⟨congrArg Prod.fst hpush, add_eq_self_iff hdeduplicate hseen, fun hfirst => ?_,
    push_add_of_mem_seen hdeduplicate hseen⟩
  rw [hpush, hfirst.isError, hfirst.reached, Bool.and_self, if_pos rfl, reportLimit,
    if_neg (Bool.eq_false_iff.1 hfirst.silent), hconfig]

/-- An error that is offered twice. -/
def missing : Diagnostic := .errorAt .notInUnion "not a member" ⟨5, 6⟩ "here"

/-- Below the limit the repetition leaves no trace. -/
theorem push_again_missing : missing ∈ (empty ⟨2, true⟩).taken [missing] ∧
    ((empty ⟨2, true⟩).run [.push missing]).push missing =
      (false, (empty ⟨2, true⟩).run [.push missing]) := by
  have htaken : missing ∈ (empty ⟨2, true⟩).taken [missing] := by decide
  obtain ⟨hrefused, hself, -, -⟩ := push_again ⟨2, true⟩ [.push missing] missing rfl htaken
  refine ⟨htaken, Prod.ext hrefused (hself.2 fun hfirst => ?_)⟩
  exact absurd hfirst.reached (by decide)

/-- With a limit of one error, a queue that took that one and is offered it again notes that errors
were dropped. -/
theorem exists_noted_repetition :
    ¬ ∀ (config : QueueConfig) (steps : List QueueStep) (d : Diagnostic),
      config.deduplicate = true → d ∈ (empty config).taken (QueueStep.sinceFlush steps) →
        ((empty config).run steps).push d = (false, (empty config).run steps) := by
  intro h
  have hpush := h ⟨1, true⟩ [.push missing] missing rfl (by decide)
  have hsize := congrArg (fun pushed => pushed.2.size) hpush
  exact absurd hsize (by decide)

/-- What a new queue has counted of some errors that it was offered: below its limit the different
ones, all of which it remembers; at its limit as many as the limit allows. -/
structure Counts (config : QueueConfig) (ds : List Diagnostic) (q : DiagnosticQueue) : Prop where
  below : q.limitReached = false → q.errorCount = config.different ds ∧
    (config.deduplicate = true → ∀ d ∈ ds, d.fingerprint ∈ q.seen)
  reached : q.limitReached = true → config.errorLimit ≤ config.different ds

theorem Counts.add {config : QueueConfig} {ds : List Diagnostic} {d : Diagnostic}
    (h : Counts config ds ((empty config).extend ds)) (herror : d.isError = true) :
    Counts config (ds ++ [d]) (((empty config).extend ds).add d) := by
  have hledger := ledger_extend config ds
  have hdifferent := config.different_concat ds d
  rw [DiagnosticQueue.add]
  cases ((empty config).extend ds).outcome d with
  | overLimit _ hlimit hpush =>
      have hreached := h.reached hlimit
      rw [hpush]
      refine ⟨fun hbelow => ?_, fun _ => ?_⟩
      · rw [limitReached_reportLimit, hlimit] at hbelow
        exact absurd hbelow.symm Bool.false_ne_true
      · rw [hdifferent]
        split <;> omega
  | repeated hwithin hdeduplicate hseen hpush =>
      have hbelow := hwithin herror
      rw [hledger.config_eq] at hdeduplicate
      obtain ⟨hcount, hremembered⟩ := h.below hbelow
      obtain ⟨x, hx, hfingerprint⟩ := (hledger.remembered hdeduplicate _).1 hseen
      have hrepeats : d.fingerprint ∈ ds.map Diagnostic.fingerprint :=
        List.mem_map.2 ⟨x, mem_of_mem_taken hx, hfingerprint⟩
      rw [if_pos ⟨hdeduplicate, hrepeats⟩] at hdifferent
      rw [hpush]
      refine ⟨fun _ => ⟨hcount.trans hdifferent.symm, fun _ e he => ?_⟩, fun hreached => ?_⟩
      · rcases List.mem_append.1 he with he | he
        · exact hremembered hdeduplicate e he
        · rwa [List.mem_singleton.1 he]
      · exact absurd (hbelow.symm.trans hreached) Bool.false_ne_true
  | taken hwithin hnew hpush =>
      obtain ⟨hcount, hremembered⟩ := h.below (hwithin herror)
      rw [hledger.config_eq] at hnew
      have hfresh : ¬ (config.deduplicate = true ∧
          d.fingerprint ∈ ds.map Diagnostic.fingerprint) := by
        rintro ⟨hdeduplicate, hrepeats⟩
        obtain ⟨x, hx, hfingerprint⟩ := List.mem_map.1 hrepeats
        exact hnew hdeduplicate (hfingerprint ▸ hremembered hdeduplicate x hx)
      rw [if_neg hfresh] at hdifferent
      have hcount' : (((empty config).extend ds).accept d).errorCount =
          config.different (ds ++ [d]) := by
        rw [errorCount_accept, List.countP_singleton, if_pos herror, hcount, hdifferent]
      rw [hpush]
      refine ⟨fun _ => ⟨hcount', fun hdeduplicate e he => ?_⟩, fun hreached => ?_⟩
      · have hseen : (((empty config).extend ds).accept d).seen =
            d.fingerprint :: ((empty config).extend ds).seen := by
          rw [accept, hledger.config_eq, if_pos hdeduplicate]
        rw [hseen]
        rcases List.mem_append.1 he with he | he
        · exact List.mem_cons_of_mem _ (hremembered hdeduplicate e he)
        · rw [List.mem_singleton.1 he]
          exact List.mem_cons_self
      · have hconfig : (((empty config).extend ds).accept d).config = config := hledger.config_eq
        rw [limitReached_iff, hconfig, hcount'] at hreached
        exact hreached.2

/-- Errors bring a queue to its limit when there are as many different ones as the limit allows. -/
theorem limitReached_extend_of_errors (config : QueueConfig) {ds : List Diagnostic}
    (hds : ∀ d ∈ ds, d.isError = true) : ((empty config).extend ds).limitReached = true ↔
      0 < config.errorLimit ∧ config.errorLimit ≤ config.different ds := by
  have hcounts : Counts config ds ((empty config).extend ds) := by
    induction ds using List.reverseRecOn with
    | nil =>
        refine ⟨fun _ => ⟨?_, fun _ d hd => absurd hd List.not_mem_nil⟩, fun hreached => ?_⟩
        · simp [empty, extend, QueueConfig.different]
        · obtain ⟨hpositive, hlimit⟩ := (limitReached_iff _).1 hreached
          exact absurd hlimit (Nat.not_le.2 hpositive)
    | append_singleton ds d ih =>
        rw [extend_concat]
        exact (ih fun e he => hds e (List.mem_append_left _ he)).add
          (hds d (List.mem_append_right _ (List.mem_singleton_self d)))
  have hconfig : ((empty config).extend ds).config = config := config_extend _ ds
  constructor
  · intro hreached
    have hpositive := ((limitReached_iff _).1 hreached).1
    rw [hconfig] at hpositive
    exact ⟨hpositive, hcounts.reached hreached⟩
  · rintro ⟨hpositive, hlimit⟩
    by_contra hnot
    obtain ⟨hcount, -⟩ := hcounts.below (Bool.eq_false_iff.2 hnot)
    rw [limitReached_iff, hconfig, hcount] at hnot
    exact hnot ⟨hpositive, hlimit⟩

end DiagnosticQueue

end CaseCover
