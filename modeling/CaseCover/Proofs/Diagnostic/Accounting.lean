import Mathlib.Data.List.Induction
import CaseCover.Proofs.Diagnostic.History

/-!
The accounts of a queue. After any history a queue has counted the errors that it took since the
last batch, never more than its limit, and it holds what it took in the order in which that was
offered. Once an error is offered at the limit, a note of it stands among them, at the place of
the first such error, and there is no other note (`Holds`). `run_accounts` says this of all
histories; one offer keeps it (`Ledger.add`).
-/

namespace CaseCover

namespace DiagnosticQueue

/-- A diagnostic that is offered to a new queue after others is an error, and of these the queue
has taken as many errors as its limit allows. -/
structure Exceeds (config : QueueConfig) (before : List Diagnostic) (d : Diagnostic) : Prop where
  isError : d.isError = true
  reached : ((empty config).extend before).limitReached = true

/-- No diagnostic of a list is an error too many. -/
def Within (config : QueueConfig) (offered : List Diagnostic) : Prop :=
  ∀ before d after, offered = before ++ d :: after → ¬ Exceeds config before d

theorem within_nil (config : QueueConfig) : Within config [] :=
  fun before d after hsplit => absurd hsplit.symm (by simp)

theorem within_concat_iff {config : QueueConfig} {offered : List Diagnostic} {d : Diagnostic} :
    Within config (offered ++ [d]) ↔ Within config offered ∧ ¬ Exceeds config offered d := by
  constructor
  · intro h
    refine ⟨fun before e after hsplit => ?_, h offered d [] rfl⟩
    exact h before e (after ++ [d]) (by rw [hsplit]; simp)
  · rintro ⟨hwithin, hd⟩ before e after hsplit
    rcases List.eq_nil_or_concat after with rfl | ⟨after, last, rfl⟩
    · obtain ⟨rfl, hlast⟩ := List.append_inj' hsplit rfl
      rwa [← List.singleton_inj.1 hlast]
    · rw [List.concat_eq_append, ← List.cons_append, ← List.append_assoc] at hsplit
      exact hwithin before e after (List.append_inj' hsplit rfl).1

/-- What a new queue holds that was offered some diagnostics, and whether it has said that its
limit was exceeded: it holds what it took, and says so where the first error too many was
offered. -/
inductive Holds (config : QueueConfig) (offered : List Diagnostic) : Bool → List Diagnostic → Prop
  | within (hwithin : Within config offered) :
      Holds config offered false ((empty config).taken offered)
  | exceeded (before : List Diagnostic) (d : Diagnostic) (after : List Diagnostic)
      {later : List Diagnostic} (hsplit : offered = before ++ d :: after)
      (hfirst : Within config before) (hd : Exceeds config before d)
      (hlater : (empty config).taken offered = (empty config).taken before ++ later) :
      Holds config offered true
        ((empty config).taken before ++ .tooManyErrors config.errorLimit d.place :: later)

/-- A queue has said that its limit was exceeded exactly when an error was offered to it at its
limit. -/
theorem Holds.reported_iff {config : QueueConfig} {offered held : List Diagnostic}
    {reported : Bool} (h : Holds config offered reported held) : reported = true ↔
      ∃ before d after, offered = before ++ d :: after ∧ Exceeds config before d := by
  cases h with
  | within hwithin =>
      refine iff_of_false Bool.false_ne_true ?_
      rintro ⟨before, d, after, hsplit, hd⟩
      exact hwithin before d after hsplit hd
  | exceeded before d after hsplit _ hd _ => exact iff_of_true rfl ⟨before, d, after, hsplit, hd⟩

/-- A queue holds nothing but what it took and the note of its limit. -/
theorem Holds.taken_or_note {config : QueueConfig} {offered held : List Diagnostic}
    {reported : Bool} (h : Holds config offered reported held) {d : Diagnostic} (hd : d ∈ held) :
    d ∈ (empty config).taken offered ∨ ∃ place, d = .tooManyErrors config.errorLimit place := by
  cases h with
  | within _ => exact .inl hd
  | exceeded before e after _ _ _ hlater =>
      rw [hlater]
      rcases List.mem_append.1 hd with hd | hd
      · exact .inl (List.mem_append_left _ hd)
      · rcases List.mem_cons.1 hd with rfl | hd
        · exact .inr ⟨e.place, rfl⟩
        · exact .inl (List.mem_append_right _ hd)

theorem Holds.exists_note {config : QueueConfig} {offered held : List Diagnostic}
    (h : Holds config offered true held) :
    ∃ place, .tooManyErrors config.errorLimit place ∈ held := by
  cases h with
  | exceeded before e after _ _ _ _ =>
      exact ⟨e.place, List.mem_append_right _ List.mem_cons_self⟩

/-- Another diagnostic is offered that is not an error too many; if it is taken, it comes last. -/
theorem Holds.offer {config : QueueConfig} {offered held : List Diagnostic} {reported : Bool}
    (h : Holds config offered reported held) {d : Diagnostic} {more : List Diagnostic}
    (hd : ¬ Exceeds config offered d)
    (hmore : (empty config).taken (offered ++ [d]) = (empty config).taken offered ++ more) :
    Holds config (offered ++ [d]) reported (held ++ more) := by
  cases h with
  | within hwithin =>
      rw [← hmore]
      exact .within (within_concat_iff.2 ⟨hwithin, hd⟩)
  | exceeded before e after hsplit hfirst he hlater =>
      rw [List.append_assoc, List.cons_append]
      refine .exceeded before e (after ++ [d]) ?_ hfirst he ?_
      · rw [hsplit, List.append_assoc, List.cons_append]
      · rw [hmore, hlater, List.append_assoc]

/-- Another error is offered at the limit. -/
theorem Holds.exceed {config : QueueConfig} {offered held : List Diagnostic} {reported : Bool}
    (h : Holds config offered reported held) {d : Diagnostic} (hd : Exceeds config offered d)
    (hmore : (empty config).taken (offered ++ [d]) = (empty config).taken offered) :
    Holds config (offered ++ [d]) true
      (if reported then held else held ++ [.tooManyErrors config.errorLimit d.place]) := by
  cases h with
  | within hwithin =>
      refine .exceeded offered d [] rfl hwithin hd ?_
      rw [hmore, List.append_nil]
  | exceeded before e after hsplit hfirst he hlater =>
      refine .exceeded before e (after ++ [d]) ?_ hfirst he (hmore.trans hlater)
      rw [hsplit, List.append_assoc, List.cons_append]

/-- What a queue says of what it was offered since it was new. -/
structure Ledger (config : QueueConfig) (offered : List Diagnostic) (q : DiagnosticQueue) :
    Prop where
  config_eq : q.config = config
  counted : q.errorCount = ((empty config).taken offered).countP Diagnostic.isError
  bounded : config.errorLimit = 0 ∨ q.errorCount ≤ config.errorLimit
  remembered : config.deduplicate = true →
    ∀ f, f ∈ q.seen ↔ ∃ d ∈ (empty config).taken offered, d.fingerprint = f
  holds : Holds config offered q.limitReported q.diagnostics

theorem ledger_empty (config : QueueConfig) : Ledger config [] (empty config) where
  config_eq := rfl
  counted := rfl
  bounded := .inr (Nat.zero_le _)
  remembered := fun _ f => by simp [empty, taken]
  holds := .within (within_nil config)

theorem limitReported_reportLimit (q : DiagnosticQueue) (d : Diagnostic) :
    (q.reportLimit d).limitReported = true ∧ (q.reportLimit d).diagnostics =
      if q.limitReported then q.diagnostics
      else q.diagnostics ++ [.tooManyErrors q.config.errorLimit d.place] := by
  unfold reportLimit
  by_cases h : q.limitReported = true
  · simp [h]
  · simp [h]

theorem errorCount_accept (q : DiagnosticQueue) (d : Diagnostic) :
    (q.accept d).errorCount = q.errorCount + [d].countP Diagnostic.isError := by
  rw [accept, List.countP_singleton]
  by_cases h : d.isError = true
  · simp [h]
  · simp [h]

namespace Ledger

variable {config : QueueConfig} {offered : List Diagnostic} {q q' : DiagnosticQueue}
  {d : Diagnostic}

/-- An error is offered only below the limit unless it is one too many. -/
theorem not_exceeds (hwithin : d.isError = true → ((empty config).extend offered).limitReached =
    false) : ¬ Exceeds config offered d :=
  fun hd => Bool.false_ne_true ((hwithin hd.isError).symm.trans hd.reached)

/-- A diagnostic is offered and dropped. -/
theorem dropped (h : Ledger config offered q) (hconfig : q'.config = q.config)
    (hcount : q'.errorCount = q.errorCount) (hseen : q'.seen = q.seen)
    (htaken : (empty config).taken (offered ++ [d]) = (empty config).taken offered)
    (hholds : Holds config (offered ++ [d]) q'.limitReported q'.diagnostics) :
    Ledger config (offered ++ [d]) q' where
  config_eq := hconfig.trans h.config_eq
  counted := by rw [hcount, h.counted, htaken]
  bounded := by
    rw [hcount]
    exact h.bounded
  remembered := by
    rw [hseen, htaken]
    exact h.remembered
  holds := hholds

/-- A diagnostic is offered and taken. -/
theorem accept (h : Ledger config offered q) (hwithin : d.isError = true → q.limitReached = false)
    (htaken : (empty config).taken (offered ++ [d]) = (empty config).taken offered ++ [d])
    (hholds : Holds config (offered ++ [d]) (q.accept d).limitReported (q.accept d).diagnostics) :
    Ledger config (offered ++ [d]) (q.accept d) where
  config_eq := h.config_eq
  counted := by rw [errorCount_accept, htaken, List.countP_append, h.counted]
  bounded := by
    rw [errorCount_accept, List.countP_singleton]
    by_cases herror : d.isError = true
    · have hlimit := mt (limitReached_iff q).2 (Bool.eq_false_iff.1 (hwithin herror))
      rw [h.config_eq] at hlimit
      rw [if_pos herror]
      omega
    · rw [if_neg herror]
      exact h.bounded
  remembered := by
    intro hdeduplicate f
    have hseen : (q.accept d).seen = d.fingerprint :: q.seen := by
      rw [DiagnosticQueue.accept, h.config_eq, if_pos hdeduplicate]
    rw [hseen, htaken, List.mem_cons, h.remembered hdeduplicate]
    simp only [List.mem_append, List.mem_singleton, or_and_right, exists_or, exists_eq_left]
    rw [or_comm, eq_comm]
  holds := hholds

/-- One more diagnostic is offered. -/
theorem add (h : Ledger config offered ((empty config).extend offered)) (d : Diagnostic) :
    Ledger config (offered ++ [d]) (((empty config).extend offered).add d) := by
  have htaken := (empty config).taken_concat offered d
  rw [DiagnosticQueue.add]
  cases ((empty config).extend offered).outcome d with
  | overLimit herror hlimit hpush =>
      rw [hpush, if_neg Bool.false_ne_true, List.append_nil] at htaken
      rw [hpush]
      obtain ⟨hcount, hseen⟩ := errorCount_reportLimit ((empty config).extend offered) d
      obtain ⟨hreported, hheld⟩ := limitReported_reportLimit ((empty config).extend offered) d
      refine h.dropped (config_reportLimit _ d) hcount hseen htaken ?_
      rw [hreported, hheld, h.config_eq]
      exact h.holds.exceed ⟨herror, hlimit⟩ htaken
  | repeated hwithin _ _ hpush =>
      rw [hpush, if_neg Bool.false_ne_true] at htaken
      rw [hpush]
      have hholds := h.holds.offer (not_exceeds hwithin) htaken
      rw [List.append_nil] at htaken hholds
      exact h.dropped rfl rfl rfl htaken hholds
  | taken hwithin _ hpush =>
      rw [hpush, if_pos rfl] at htaken
      rw [hpush]
      exact h.accept hwithin htaken (h.holds.offer (not_exceeds hwithin) htaken)

end Ledger

theorem ledger_extend (config : QueueConfig) (offered : List Diagnostic) :
    Ledger config offered ((empty config).extend offered) := by
  induction offered using List.reverseRecOn with
  | nil => exact ledger_empty config
  | append_singleton offered d ih =>
      rw [extend_concat]
      exact ih.add d

/-- After any history a queue is a new one that was offered what came since the last batch. It has
counted the errors that it took of this, which are no more than its limit; it holds what it took,
with one note where an error was first offered at the limit, if one was; and its batch is what it
holds in the order of the places. -/
theorem run_accounts (config : QueueConfig) (steps : List QueueStep) :
    let offered := QueueStep.sinceFlush steps
    let q := (empty config).run steps
    q = (empty config).extend offered ∧
      q.errorCount = ((empty config).taken offered).countP Diagnostic.isError ∧
      (config.errorLimit = 0 ∨ q.errorCount ≤ config.errorLimit) ∧
      Holds config offered q.limitReported q.diagnostics ∧
      (q.limitReported = true ↔
        ∃ before d after, offered = before ++ d :: after ∧ Exceeds config before d) ∧
      q.flush.1.Perm q.diagnostics ∧
      q.flush.1.Pairwise (fun a b => a.place.notAfter b.place = true) ∧
      (∀ place, q.flush.1.filter (·.place = place) = q.diagnostics.filter (·.place = place)) ∧
      q.flush.2 = empty config := by
  intro offered q
  have hoffered : q = (empty config).extend offered := run_eq_extend config steps
  have hledger : Ledger config offered q := by
    rw [hoffered]
    exact ledger_extend config offered
  obtain ⟨hperm, hsorted, hstable, hnew⟩ := q.flush_stable
  refine ⟨hoffered, hledger.counted, hledger.bounded, hledger.holds, hledger.holds.reported_iff,
    hperm, hsorted, hstable, ?_⟩
  rw [hnew, hledger.config_eq]

end DiagnosticQueue

end CaseCover
