/-!
Source locations. A span is a half-open range of byte offsets that fit in 32 bits.
Spans are ordered by their start and then by their stop, and joined to the least range
that covers them.
-/

namespace CaseCover

/-- A half-open range `start..stop` of byte offsets into the analyzed source. -/
structure Span where
  start : Nat
  stop : Nat
  deriving DecidableEq, Repr, Inhabited

def Span.offsetBound : Nat := Nat.pow 2 32

/-- A byte range with an end that does not fit a span's offsets. -/
structure SpanError where
  start : Nat
  stop : Nat
  deriving DecidableEq, Repr

/-- The wording of a range that does not fit. -/
def SpanError.message (e : SpanError) : String :=
  "byte range " ++ toString e.start ++ ".." ++ toString e.stop ++
    " does not fit in 32-bit span offsets"

namespace Span

/-- The span of anything built without source text. -/
def origin : Span := ⟨0, 0⟩

/-- A byte range as a span, when both of its ends fit. -/
def ofRange? (start stop : Nat) : Except SpanError Span :=
  if start < offsetBound ∧ stop < offsetBound then .ok ⟨start, stop⟩
  else .error ⟨start, stop⟩

/-- The number of bytes covered; a span that stops before it starts covers none. -/
def length (s : Span) : Nat := s.stop - s.start

def isEmpty (s : Span) : Bool := s.length == 0

/-- Whether the byte at an offset is covered. -/
def contains (s : Span) (offset : Nat) : Bool :=
  decide (s.start ≤ offset) && decide (offset < s.stop)

def merge (s t : Span) : Span := ⟨min s.start t.start, max s.stop t.stop⟩

/-- The least span that covers every span of a list, when there is one. -/
def covering : List Span → Option Span
  | [] => none
  | s :: rest => some (rest.foldl merge s)

/-- Spans are ordered by their start, and by their stop where they start together. -/
def compare (s t : Span) : Ordering :=
  (Ord.compare s.start t.start).then (Ord.compare s.stop t.stop)

def notAfter (s t : Span) : Bool := (s.compare t).isLE

def render (s : Span) : String := toString s.start ++ ".." ++ toString s.stop

theorem contains_iff (s : Span) (offset : Nat) :
    s.contains offset = true ↔ s.start ≤ offset ∧ offset < s.stop := by
  simp [contains]

theorem isEmpty_iff (s : Span) : s.isEmpty = true ↔ s.stop ≤ s.start := by
  simp [isEmpty, length, Nat.sub_eq_zero_iff_le]

theorem notAfter_iff (s t : Span) : s.notAfter t = true ↔
    s.start < t.start ∨ s.start = t.start ∧ s.stop ≤ t.stop := by
  rw [notAfter, compare, Ordering.isLE_then_iff_or, Nat.isLE_compare, Nat.compare_eq_lt,
    Nat.compare_eq_eq]

end Span

end CaseCover
