import CaseCover.Analysis.Request
import CaseCover.Check.Coverage
import CaseCover.Pattern.Extraction
import CaseCover.Union.Membership

/-!
The analysis of a case set. The cases are bound to the members of the union that they
can match; then, for a total case set, every required member must be touched by a case
and covered by the cases that touch it. All problems are collected and handed out
together; a pattern that has no pattern type ends the analysis at once. What was found
about unions and fields is kept for the next case set, diagnostics are not.
-/

namespace CaseCover

/-- What an analysis keeps while it runs. -/
structure SessionState where
  unions : UnionCache := {}
  fields : FieldCache := {}
  queue : DiagnosticQueue

abbrev Step := StateT SessionState Query

namespace Step

/-- Ask a question about types. -/
@[always_inline, inline]
def ask {α : Type} (q : Query α) : Step α := liftM q

/-- Report a problem. -/
def report (d : Diagnostic) : Step Unit :=
  modify fun s => { s with queue := s.queue.add d }

/-- Ask a question that uses and adds to the expanded unions. -/
def askUnions {α : Type} (q : UnionCache → Query (α × UnionCache)) : Step α := do
  let (answer, unions) ← ask (q (← get).unions)
  modify fun s => { s with unions }
  return answer

def expand (t : Ty) : Step TypeSet := askUnions fun cache => pure (cache.expand t)

/-- The diagnostics reported so far, in order; they are forgotten. -/
def flush : Step (List Diagnostic) := do
  let (diagnostics, queue) := (← get).queue.flush
  modify fun s => { s with queue }
  return diagnostics

end Step

namespace Checker

/-- The extractor that a checker uses. -/
def extractor (C : Checker) : Extractor :=
  ⟨C.hierarchy, C.config.maxWitnesses⟩

/-- The pattern types of a case's alternatives. -/
def alternatives (C : Checker) (c : Case) :
    Step (Except ExtractionError (List (Pattern × PatternType))) := do
  let (result, fields) ←
    Step.ask ((C.extractor.extractAlternatives c.pattern).run.run (← get).fields)
  modify fun s => { s with fields }
  return result

def comparable (C : Checker) (a b : Ty) : Query Bool := do
  if ← C.hierarchy.isSubtype a b then return true else C.hierarchy.isSubtype b a

/-- The members of a union that a pattern type can match. -/
def membersMatched (C : Checker) (p : PatternType) (union : TypeSet) :
    Query (List Ty) :=
  if p.isCatchAll then pure union.members
  else Query.filter (C.comparable p.ty) union.members

/-- Record which members an alternative of a case can match. An alternative that
matches none and is not part of the union is an error. -/
def bind (C : Checker) (union : TypeSet) (index : Nat) (c : Case)
    (alternative : Pattern × PatternType) (table : MatchTable) : Step MatchTable := do
  let (pattern, p) := alternative
  let members ← Step.ask (C.membersMatched p union)
  if members.isEmpty then
    match ← Step.askUnions fun cache => C.hierarchy.partOf cache p.ty union with
    | none => return table
    | some mismatch =>
      let diagnostic :=
        mismatch.toDiagnostic C.hierarchy.decls .notInUnion pattern.span
      Step.report (diagnostic.withNote
        ("case " ++ toString (index + 1) ++ " can never match"))
      return table
  else
    return members.foldl
      (fun table member =>
        table.add ⟨index, c.span, c.isGuarded, pattern, member, p⟩) table

/-- Bind each alternative of a case. -/
def bindAll (C : Checker) (union : TypeSet) (index : Nat) (c : Case) :
    List (Pattern × PatternType) → MatchTable → Step MatchTable
  | [], table => return table
  | alternative :: rest, table => do
    C.bindAll union index c rest (← C.bind union index c alternative table)

/-- Bind the cases of a list, whose first has the given position. -/
def bindCases (C : Checker) (union : TypeSet) :
    Nat → List Case → MatchTable → Step (Except ExtractionError MatchTable)
  | _, [], table => return .ok table
  | index, c :: rest, table => do
    match ← C.alternatives c with
    | .error e => return .error e
    | .ok alternatives =>
      C.bindCases union (index + 1) rest
        (← C.bindAll union index c alternatives table)

/-- The members that a total case set must handle: all of the union, or those
comparable with a member of the required part. A required part that the union does
not contain is an error. -/
def requiredMembers (C : Checker) (request : AnalysisRequest) (union : TypeSet) :
    Step (List Ty) := do
  match request.required with
  | none => return union.members
  | some part =>
    match ← Step.askUnions fun cache =>
        C.hierarchy.containsAll cache request.union part with
    | none => pure ()
    | some mismatch =>
      Step.report
        (mismatch.toDiagnostic C.hierarchy.decls .notContained request.span)
    let wanted ← Step.expand part
    Step.ask (Query.filter
      (fun member => Query.any (C.comparable member) wanted.members) union.members)

/-- The error of required members that no case touches. -/
def uncoveredDiagnostic (D : Declarations) (uncovered : List Ty) (span : Span) :
    Diagnostic :=
  let message :=
    match uncovered with
    | [single] => "The partial function fails to match on " ++ D.render single ++ "."
    | many =>
      "The partial function fails to match on these types: " ++ D.renderSet many ++ "."
  (Diagnostic.errorAt .uncoveredMembers message span
    "case set is declared total").withSuggestion
    "add a case for every missing type, or declare the case set partial"

/-- Report the required members that no case touches. -/
def checkCoverage (C : Checker) (required : List Ty) (table : MatchTable)
    (span : Span) : Step Unit := do
  let uncovered := required.filter fun member => !table.contains member
  if uncovered.isEmpty then return ()
  else Step.report (uncoveredDiagnostic C.hierarchy.decls uncovered span)

/-- The results that prove something about a member. -/
def evidence (C : Checker) (results : List MatchResult) : List MatchResult :=
  results.filter fun r => C.config.countsAsEvidence r.guarded

/-- The error of a member some of whose values are not matched. -/
def notExhaustiveDiagnostic (C : Checker) (name : String) (results : List MatchResult)
    (span : Span) (counterexamples : List String) (note : Option String) :
    Diagnostic :=
  let message :=
    match counterexamples with
    | [single] =>
      "The patterns for " ++ name ++ " are not exhaustive; It would fail on the " ++
        "following input: " ++ single ++ "."
    | many =>
      "The patterns for " ++ name ++ " are not exhaustive; It would fail on the " ++
        "following inputs: " ++ ", ".intercalate many ++ "."
  let related (d : Diagnostic) (r : MatchResult) : Diagnostic :=
    d.withRelated r.span
      (if C.config.countsAsEvidence r.guarded then "matches " ++ name
        else "guarded, not counted")
  let base := Diagnostic.errorAt .notExhaustive message span
    ("patterns for " ++ name ++ " are not exhaustive")
  let labelled := results.foldl related base
  let noted := note.toList.foldl Diagnostic.withNote labelled
  if (C.evidence results).length < results.length then
    noted.withNote
      "a guard may reject any value, so guarded cases do not prove exhaustiveness"
  else noted

/-- The advice on a member whose check stopped at a limit. -/
def notVerifiedDiagnostic (C : Checker) (name : String) (span : Span)
    (limit : SearchLimit) : Diagnostic :=
  let reason :=
    match limit with
    | .unfoldDepth nested =>
      C.hierarchy.decls.render nested ++ " is nested more than " ++
        toString C.config.maxUnfoldDepth ++ " times"
    | .stepBudget =>
      "the search exceeded " ++ toString C.config.stepBudget ++ " steps"
  (Diagnostic.noteAt .notVerified
    ("exhaustiveness of the patterns for " ++ name ++ " was not verified") span
    "recursive type limit reached").withNote reason

/-- Check that the results for a member cover it. -/
def checkMember (C : Checker) (member : Ty) (results : List MatchResult)
    (span : Span) : Step Unit := do
  let name := C.hierarchy.decls.render member
  let proofs := (C.evidence results).map fun r => (r.alternative, r.patternType)
  match ← Step.ask (C.check member proofs) with
  | .covered => return ()
  | .missing counterexamples note =>
    Step.report (C.notExhaustiveDiagnostic name results span counterexamples note)
  | .inconclusive limit => Step.report (C.notVerifiedDiagnostic name span limit)

/-- Check each of a list of members that some case touches. -/
def checkMembers (C : Checker) (table : MatchTable) (span : Span) :
    List Ty → Step Unit
  | [] => return ()
  | member :: rest => do
    let results := table.get member
    if results.isEmpty then pure () else C.checkMember member results span
    C.checkMembers table span rest

/-- Check that the required members are touched and covered. -/
def checkTotal (C : Checker) (request : AnalysisRequest) (union : TypeSet)
    (table : MatchTable) : Step Unit := do
  let required ← C.requiredMembers request union
  C.checkCoverage required table request.span
  C.checkMembers table request.span required

/-- Analyze a case set, with what is known from earlier ones. -/
def run (C : Checker) (request : AnalysisRequest) :
    Step (Except AnalysisFailure Analysis) := do
  let union ← Step.expand request.union
  match ← C.bindCases union 0 request.cases .empty with
  | .error e =>
    Step.report e.toDiagnostic
    return .error ⟨← Step.flush, ⟨⟩⟩
  | .ok table =>
    match request.completeness with
    | .total => C.checkTotal request union table
    | .partially => pure ()
    let queue := (← get).queue
    let diagnostics ← Step.flush
    match queue.hasErrors with
    | some evidence => return .error ⟨diagnostics, evidence⟩
    | none => return .ok ⟨request.cases, table, diagnostics⟩

/-- What an analysis starts with. -/
def freshState (C : Checker) : SessionState :=
  { queue := .empty C.config.diagnostics }

/-- Analyze a case set on its own. -/
def analyze (C : Checker) (request : AnalysisRequest) :
    Query (Except AnalysisFailure Analysis) := do
  return (← (C.run request).run C.freshState).1

/-- Analyze case sets one after another. -/
def runAll (C : Checker) :
    List AnalysisRequest → Step (List (Except AnalysisFailure Analysis))
  | [] => return []
  | request :: rest => do
    let first ← C.run request
    return first :: (← C.runAll rest)

/-- Analyze case sets one after another, from the start. -/
def analyzeAll (C : Checker) (requests : List AnalysisRequest) :
    Query (List (Except AnalysisFailure Analysis)) := do
  return (← (C.runAll requests).run C.freshState).1

end Checker

end CaseCover
