import CaseCover.Diagnostic.Basic

/-!
The queue of diagnostics of one batch. It drops what repeats an earlier diagnostic,
stops taking errors at a limit and then says so once, and hands out the batch in the
order of its places.
-/

namespace CaseCover

/-- What a queue drops. -/
structure QueueConfig where
  /-- The number of errors after which further ones are dropped; zero for no limit. -/
  errorLimit : Nat := 32
  /-- Whether a diagnostic is dropped that repeats an earlier one. -/
  deduplicate : Bool := true
  deriving DecidableEq, Repr, Inhabited

def QueueConfig.unlimited : QueueConfig := ⟨0, false⟩

/-- What two diagnostics have in common when one repeats the other: code, message and
primary span.

Fingerprints are compared in full. A queue that remembers only a 64-bit hash of each drops the
same diagnostics as long as no two fingerprints that differ have one hash, which is assumed of
the hash throughout. -/
structure Fingerprint where
  code : DiagnosticCode
  message : String
  span : Option Span
  deriving DecidableEq, Repr

/-- The fingerprint of a diagnostic. -/
def Diagnostic.fingerprint (d : Diagnostic) : Fingerprint :=
  ⟨d.code, d.message, d.primarySpan?⟩

/-- The diagnostic that says where the error limit was exceeded. -/
def Diagnostic.tooManyErrors (limit : Nat) (span : Span) : Diagnostic :=
  (Diagnostic.errorAt .tooManyErrors
    ("aborting due to " ++ toString limit ++ " previous errors") span
    "error limit reached here").withNote
    "raise `error_limit` in the diagnostic configuration to see more"

/-- Diagnostics that wait to be reported. -/
structure DiagnosticQueue where
  config : QueueConfig := {}
  /-- The diagnostics in the order in which they were taken. -/
  diagnostics : List Diagnostic := []
  /-- What later diagnostics must not repeat. -/
  seen : List Fingerprint := []
  /-- The number of errors taken. -/
  errorCount : Nat := 0
  /-- Whether the queue has said that the limit was exceeded. -/
  limitReported : Bool := false
  deriving DecidableEq, Repr

/-- The evidence that an error was reported. -/
structure ErrorReported where
  deriving DecidableEq, Repr

/-- The wording of the evidence. -/
def ErrorReported.message : ErrorReported → String
  | ⟨⟩ => "analysis reported errors"

/-- Recording something as an error that is none. -/
structure NotAnError where
  deriving DecidableEq, Repr

/-- The wording of the refusal to record it. -/
def NotAnError.message : NotAnError → String
  | ⟨⟩ => "emit_error called with a non-error diagnostic"

namespace DiagnosticQueue

def empty (config : QueueConfig) : DiagnosticQueue := { config }

instance : Inhabited DiagnosticQueue := ⟨empty {}⟩

/-- Whether as many errors were taken as the limit allows. -/
def limitReached (q : DiagnosticQueue) : Bool :=
  decide (0 < q.config.errorLimit) && decide (q.config.errorLimit ≤ q.errorCount)

/-- Note that an error was dropped at the limit; only the first note is queued. -/
def reportLimit (q : DiagnosticQueue) (d : Diagnostic) : DiagnosticQueue :=
  if q.limitReported then q
  else { q with
    limitReported := true
    diagnostics :=
      q.diagnostics ++ [.tooManyErrors q.config.errorLimit d.place] }

/-- Take a diagnostic into the queue. -/
def accept (q : DiagnosticQueue) (d : Diagnostic) : DiagnosticQueue :=
  { q with
    diagnostics := q.diagnostics ++ [d]
    seen := if q.config.deduplicate then d.fingerprint :: q.seen else q.seen
    errorCount := if d.isError then q.errorCount + 1 else q.errorCount }

/-- Offer a diagnostic, and say whether it was taken. The limit comes before the
question whether the diagnostic repeats another. -/
def push (q : DiagnosticQueue) (d : Diagnostic) : Bool × DiagnosticQueue :=
  if d.isError && q.limitReached then (false, q.reportLimit d)
  else if q.config.deduplicate && decide (d.fingerprint ∈ q.seen) then (false, q)
  else (true, q.accept d)

def add (q : DiagnosticQueue) (d : Diagnostic) : DiagnosticQueue := (q.push d).2

/-- Offer each diagnostic of a list. -/
def extend (q : DiagnosticQueue) (ds : List Diagnostic) : DiagnosticQueue :=
  ds.foldl add q

/-- Offer an error, for evidence that there was one. -/
def emitError (q : DiagnosticQueue) (d : Diagnostic) :
    Except NotAnError (ErrorReported × DiagnosticQueue) :=
  if d.isError then .ok (⟨⟩, q.add d) else .error ⟨⟩

/-- Evidence that errors were taken, if any were. -/
def hasErrors (q : DiagnosticQueue) : Option ErrorReported :=
  if 0 < q.errorCount then some ⟨⟩ else none

def size (q : DiagnosticQueue) : Nat := q.diagnostics.length

/-- The queued diagnostics in the order of their places, those at one place in the
order in which they were taken; and the queue without them. -/
def flush (q : DiagnosticQueue) : List Diagnostic × DiagnosticQueue :=
  (q.diagnostics.mergeSort fun a b => a.place.notAfter b.place, empty q.config)

end DiagnosticQueue

end CaseCover
