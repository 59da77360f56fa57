import CaseCover.Diagnostic.Basic

/-!
Patterns that have no pattern type: why, where, and how that is reported.
-/

namespace CaseCover

/-- Why a pattern has no pattern type. -/
inductive ExtractionCause
  /-- The rest `_*` stands elsewhere than last in a sequence. -/
  | misplacedRest
  /-- An alternation has no branches. -/
  | emptyAlternation
  /-- An extractor's data type has another number of parameters than one. -/
  | extractorArity (name : String) (arity : Nat)
  /-- A singleton is given parts. -/
  | singletonParts (name : String)
  /-- A product is given another number of parts than it has fields. -/
  | fieldCount (name : String) (fields parts : Nat)
  /-- A data type without a constructor is taken apart. -/
  | notDeconstructible (name : String)
  /-- A node finds fewer results than it has parts. -/
  | malformed
  deriving DecidableEq, Repr

/-- A cause with the place of the pattern it concerns. -/
structure ExtractionError where
  cause : ExtractionCause
  span : Span
  deriving DecidableEq, Repr

/-- The wording of a cause. -/
def ExtractionCause.message : ExtractionCause → String
  | misplacedRest =>
    "unsupported pattern: `_*` is only allowed as the last element of a " ++
      "sequence extractor"
  | emptyAlternation => "unsupported pattern: empty alternation"
  | extractorArity name arity =>
    "unsupported pattern: extractor `" ++ name ++ "` has " ++ toString arity ++
      " type parameters; only single-parameter extractors are supported"
  | singletonParts name =>
    "unsupported pattern: `" ++ name ++
      "` is a singleton and takes no sub-patterns"
  | fieldCount name fields parts =>
    "unsupported pattern: `" ++ name ++ "` has " ++ toString fields ++
      " fields but the pattern deconstructs " ++ toString parts
  | notDeconstructible name =>
    "unsupported pattern: `" ++ name ++ "` cannot be deconstructed; only " ++
      "products and singletons have constructor patterns"
  | malformed => "malformed pattern tree"

/-- The remedy that is proposed for a pattern outside the language. -/
def ExtractionError.remedy : String :=
  "match on the value's type with `_: T` or split the pattern into simpler cases"

/-- The error as a diagnostic that points at the pattern. -/
def ExtractionError.toDiagnostic (e : ExtractionError) : Diagnostic :=
  let diagnostic := Diagnostic.errorAt .unsupportedPattern e.cause.message e.span
    "unsupported here"
  if e.cause = .malformed then diagnostic else diagnostic.withSuggestion remedy

end CaseCover
