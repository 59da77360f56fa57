import CaseCover.Hierarchy.Children
import CaseCover.Pattern.Alignment
import CaseCover.Pattern.Basic
import CaseCover.Pattern.Error
import CaseCover.Pattern.PatternType

/-!
The pattern types of a pattern. A walk with a list of tasks visits each node, its
parts, and then the node again to combine what its parts yielded; `combine` says how.
A deconstruction is the data type applied to what its parts say about its parameters,
with one witness for each choice of one witness per part, unless there are too many.
-/

namespace CaseCover

/-- How pattern types are found: the hierarchy, and the number of choices of
witnesses up to which a deconstruction lists them. -/
structure Extractor where
  hierarchy : Hierarchy
  maxWitnesses : Nat := 64

/-- A computation over patterns that remembers alignments and may refuse a pattern;
what was remembered before a refusal is kept. -/
abbrev Extraction := ExceptT ExtractionError (StateT FieldCache Query)

namespace Extraction

/-- Ask a question about types. -/
@[always_inline, inline]
def ask {α : Type} (q : Query α) : Extraction α :=
  liftM (liftM q : StateT FieldCache Query α)

/-- Refuse a pattern. -/
@[always_inline, inline]
def refuse {α : Type} (cause : ExtractionCause) (span : Span) : Extraction α :=
  throw ⟨cause, span⟩

end Extraction

namespace Extractor

/-- The witnesses of the results of one part. -/
def proofs (results : List PatternType) : List Ty := results.flatMap PatternType.proofs

/-- Every way to take one element of each list; the first list varies slowest. -/
def choices {α : Type} : List (List α) → List (List α)
  | [] => [[]]
  | options :: rest => options.flatMap fun a => (choices rest).map (a :: ·)

/-- The number of ways to take one element of each list. -/
def choiceCount {α : Type} : List (List α) → Nat
  | [] => 1
  | options :: rest => options.length * choiceCount rest

theorem length_choices {α : Type} (lists : List (List α)) :
    (choices lists).length = choiceCount lists := by
  induction lists with
  | nil => rfl
  | cons options rest ih =>
    rw [choices, choiceCount, List.length_flatMap]
    induction options with
    | nil => simp
    | cons a options step => simp_all [Nat.succ_mul, Nat.add_comm]

/-- Every way to take one witness of each list, unless there are more than the
limit, which is at least one. -/
def choices? (E : Extractor) (lists : List (List Ty)) : Option (List (List Ty)) :=
  if choiceCount lists ≤ max 1 E.maxWitnesses then some (choices lists)
  else none

/-- The pattern type of an extractor over the results of its elements. -/
def combineExtractor (E : Extractor) (adt : DataId) (results : List (List PatternType)) :
    Query PatternType := do
  if results.isEmpty then
    return .singleton (← Query.build (.app adt [.never]))
  let element ← E.hierarchy.lubAll (results.flatten.map PatternType.ty)
  let ty ← Query.build (.app adt [element.widen])
  match E.choices? (results.map proofs) with
  | none => return ⟨ty, [ty]⟩
  | some choices =>
    let witnesses ← Query.each
      (fun choice => do Query.build (.app adt [← E.hierarchy.lubAll choice])) choices
    return ⟨ty, witnesses.eraseDups⟩

/-- What a list of types, one for each field, says about each parameter that occurs
in a field, in the order of the occurrences. Occurrences in fields that are missing
say nothing. -/
def alignFields (E : Extractor) (adt : DataId) (alignment : List (List Occurrence))
    (types : List Ty) : Query (List (Nat × Ty)) :=
  let D := E.hierarchy.decls
  Query.filterMap
    (fun o =>
      match (D.get adt).fields[o.field]?, types[o.field]? with
      | some field, some t => do return some (o.param, ← D.project t field.ty o.path)
      | _, _ => pure none)
    alignment.flatten

/-- Add what one occurrence says to what is known about the parameters: the join with
what was known before. Positions beyond the parameters are passed over. -/
def bindAligned (E : Extractor) (bindings : List (Option Ty)) (aligned : Nat × Ty) :
    Query (List (Option Ty)) := do
  match bindings[aligned.1]? with
  | none => return bindings
  | some none => return bindings.set aligned.1 (some aligned.2)
  | some (some known) =>
    return bindings.set aligned.1 (some (← E.hierarchy.lub known aligned.2))

/-- A data type applied to what is said about its parameters; one about which nothing
is said stays unconstrained. -/
def applyAligned (E : Extractor) (adt : DataId) (aligned : List (Nat × Ty)) :
    Query Ty := do
  let arity := (E.hierarchy.decls.get adt).arity
  let bindings ← Query.fold E.bindAligned (List.replicate arity none) aligned
  Query.build (.app adt (bindings.map (·.getD .noType)))

/-- The pattern type of a product over the results of its fields. Literals are widened
in the type, but not in the witnesses. -/
def combineProduct (E : Extractor) (adt : DataId) (alignment : List (List Occurrence))
    (results : List (List PatternType)) : Query PatternType := do
  let types ← Query.each (fun r => E.hierarchy.lubAll (r.map PatternType.ty)) results
  let aligned ← E.alignFields adt alignment types
  let ty ← E.applyAligned adt (aligned.map fun a => (a.1, a.2.widen))
  match E.choices? (results.map proofs) with
  | none => return ⟨ty, [ty]⟩
  | some choices =>
    let witnesses ← Query.each
      (fun choice => do E.applyAligned adt (← E.alignFields adt alignment choice))
      choices
    return ⟨ty, witnesses.eraseDups⟩

/-- The pattern type of a deconstruction over the results of its parts. -/
def combineVariant (E : Extractor) (adt : DataId) (results : List (List PatternType))
    (span : Span) : Extraction PatternType := do
  let D := E.hierarchy.decls
  let decl := D.get adt
  match decl.kind with
  | .singleton =>
    if results.isEmpty then
      let ty ← Extraction.ask
        (Query.build (.app adt (List.replicate decl.arity .noType)))
      return .singleton ty
    else Extraction.refuse (.singletonParts decl.name) span
  | .product fields =>
    if fields.length ≠ results.length then
      Extraction.refuse (.fieldCount decl.name fields.length results.length) span
    else
      let (alignment, cache) := (← get).resolve D adt
      set cache
      Extraction.ask (E.combineProduct adt alignment results)
  | .abstractType _ | .sequence =>
    Extraction.refuse (.notDeconstructible decl.name) span

/-- The narrower of two types that are comparable, and the first of two that are
not. -/
def narrower (H : Hierarchy) (inner ascribed : Ty) : Query Ty := do
  if ← H.isSubtype inner ascribed then return inner
  else if ← H.isSubtype ascribed inner then return ascribed
  else return inner

/-- The narrower of a type and its ascription. Where the type's data type inherits
from the ascribed one, what the type leaves open is filled from the ascription. -/
def reproject (H : Hierarchy) (inner ascribed : Ty) : Query Ty := do
  match inner, ascribed with
  | .prim .noType, _ => return ascribed
  | .app d args, .app e _ =>
    if H.decls.isDescendant d e then
      let view? ← if d = e then pure (some ascribed)
        else H.instantiateChild d ascribed
      match view? with
      | none => return inner
      | some view =>
        Query.build (.app d
          (args.zipWith (fun a b => if a = .noType then b else a) view.args))
    else narrower H inner ascribed
  | _, _ => narrower H inner ascribed

/-- The results of a node over the results of its parts, which are in source order. -/
def combine (E : Extractor) (p : Pattern) (results : List (List PatternType)) :
    Extraction (List PatternType) :=
  match p with
  | .alternation _ _ => return results.flatten
  | .typed _ _ t => Extraction.ask (Query.each
      (fun r => do return ⟨← reproject E.hierarchy r.ty t, t :: r.witnesses⟩)
      results.flatten)
  | .extractor n adt _ => do
    let decl := E.hierarchy.decls.get adt
    if decl.arity = 1 then
      return [← Extraction.ask (E.combineExtractor adt results)]
    else Extraction.refuse (.extractorArity decl.name decl.arity) n.span
  | .variant n adt _ => do return [← E.combineVariant adt results n.span]
  | .wildcard n | .binding n _ | .named n _ _ | .literal n _ | .rest n =>
    Extraction.refuse .malformed n.span

/-- The first of the parts that is a rest and may not be one: where a rest is allowed,
only the last part may. -/
def misplacedRest? (allowed : Bool) : List Pattern → Option Pattern
  | [] => none
  | p :: rest =>
    if p.isRest && !(allowed && rest.isEmpty) then some p
    else misplacedRest? allowed rest

/-- Refuse a node with a rest among its parts, except at the end of a sequence. -/
def checkRest (E : Extractor) (p : Pattern) : Extraction Unit :=
  let allowed := match p with
    | .extractor _ adt _ => (E.hierarchy.decls.get adt).isSequence
    | _ => false
  match misplacedRest? allowed p.parts with
  | some part => Extraction.refuse .misplacedRest part.span
  | none => pure ()

/-- A task of the walk over a pattern. -/
inductive Task
  /-- Visit a node. -/
  | enter (p : Pattern)
  /-- Combine the results of a node's parts. -/
  | leave (p : Pattern)

/-- The tasks that visit patterns, from left to right. -/
def Task.enterAll (parts : List Pattern) : List Task := parts.map Task.enter

/-- The visits that a task still stands for. -/
def Task.weight : Task → Nat
  | .enter p => 2 * p.size
  | .leave _ => 1

/-- The visits that a list of tasks still stands for. -/
def pending : List Task → Nat
  | [] => 0
  | task :: tasks => task.weight + pending tasks

theorem pending_enterAll (parts : List Pattern) (tasks : List Task) :
    pending (Task.enterAll parts ++ tasks) =
      2 * Pattern.sizeList parts + pending tasks := by
  unfold Task.enterAll
  induction parts with
  | nil => simp [Pattern.sizeList]
  | cons p parts ih =>
    simp only [List.map_cons, List.cons_append, pending, ih, Task.weight,
      Pattern.sizeList]
    omega

/-- Work off the tasks from the front. `results` holds the results of the nodes that
are done and not yet combined, the latest first. Every node is visited at most
twice. -/
def work (E : Extractor) :
    List Task → List (List PatternType) → Extraction (List (List PatternType))
  | [], results => return results
  | .leave p :: tasks, results => do
    let count := p.parts.length
    if results.length < count then Extraction.refuse .malformed p.span
    else
      let combined ← E.combine p (results.take count).reverse
      E.work tasks (combined :: results.drop count)
  | .enter (.wildcard _) :: tasks, results
  | .enter (.binding _ _) :: tasks, results
  | .enter (.rest _) :: tasks, results => E.work tasks ([.catchAll] :: results)
  | .enter (.named _ _ q) :: tasks, results => E.work (.enter q :: tasks) results
  | .enter (.typed n q t) :: tasks, results =>
    if q.isCatchAll then E.work tasks ([.ascription t] :: results)
    else E.work (.enter q :: .leave (.typed n q t) :: tasks) results
  | .enter (.literal _ v) :: tasks, results => do
    let t ← Extraction.ask (Query.build (.ofLiteral v))
    E.work tasks ([.singleton t] :: results)
  | .enter (.alternation n []) :: _, _ => Extraction.refuse .emptyAlternation n.span
  | .enter (.alternation n (p :: rest)) :: tasks, results => do
    let node := Pattern.alternation n (p :: rest)
    E.checkRest node
    E.work (Task.enterAll (p :: rest) ++ .leave node :: tasks) results
  | .enter (.variant n adt parts) :: tasks, results => do
    let node := Pattern.variant n adt parts
    E.checkRest node
    E.work (Task.enterAll parts ++ .leave node :: tasks) results
  | .enter (.extractor n adt parts) :: tasks, results => do
    let node := Pattern.extractor n adt parts
    E.checkRest node
    E.work (Task.enterAll parts ++ .leave node :: tasks) results
termination_by tasks => pending tasks
decreasing_by
  all_goals simp only [pending_enterAll, pending, Task.weight, Pattern.size]
  all_goals omega

/-- The pattern types of a pattern. There is more than one only for an alternation at
the top. -/
def extract (E : Extractor) (p : Pattern) : Extraction (List PatternType) := do
  if p.isRest then Extraction.refuse .misplacedRest p.span
  else
    match ← E.work [.enter p] [] with
    | [results] => return results
    | _ => Extraction.refuse .malformed p.span

/-- The pattern types of each of a list of patterns, with the pattern they belong
to. -/
def extractEach (E : Extractor) :
    List Pattern → Extraction (List (Pattern × PatternType))
  | [] => return []
  | p :: rest => do
    let results ← E.extract p
    return results.map (p, ·) ++ (← E.extractEach rest)

/-- The pattern types of each alternative at the top of a pattern. -/
def extractAlternatives (E : Extractor) (p : Pattern) :
    Extraction (List (Pattern × PatternType)) :=
  E.extractEach p.topAlternatives

end Extractor

end CaseCover
