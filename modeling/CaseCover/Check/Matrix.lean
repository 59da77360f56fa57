import CaseCover.Check.Config
import CaseCover.Check.Gap
import CaseCover.Hierarchy.Children
import CaseCover.Pattern.Basic

/-!
The search for values that no pattern matches. Its state is a matrix: a row for each
pattern still in play and a column for each value still to be matched. The first
column is split into the ways in which its values are made, and for each of them the
rows are specialized to the fields; a column that cannot be split keeps the rows that
match anything. A column remembers the data types it was reached through, so that
only the nesting of a data type inside itself is limited, and every matrix looked at
takes one step of a budget.
-/

namespace CaseCover

/-- A pattern for one value, or none where any value is matched. -/
abbrev Cell := Option Pattern

/-- A pattern for each value still to be matched. -/
abbrev Row := List Cell

/-- A value still to be matched: its type and the data types that enclose it, the
innermost first. -/
structure Column where
  ty : Ty
  enclosing : List DataId := []
  deriving DecidableEq, Repr

/-- Why a search stopped without an answer. -/
inductive SearchLimit
  /-- A type is nested inside its own data type too often. -/
  | unfoldDepth (nested : Ty)
  /-- All steps were taken. -/
  | stepBudget
  deriving DecidableEq, Repr

/-- A part of a search: it takes some of the steps that are left, and may stop at a
limit. -/
abbrev Search := StateT Nat (ExceptT SearchLimit Query)

namespace Search

/-- Ask a question about types. -/
@[always_inline, inline]
def ask {α : Type} (q : Query α) : Search α :=
  liftM (liftM q : ExceptT SearchLimit Query α)

/-- Stop at a limit. -/
@[always_inline, inline]
def stop {α : Type} (limit : SearchLimit) : Search α :=
  liftM (throw limit : ExceptT SearchLimit Query α)

def step : Search Unit := do
  match ← get with
  | 0 => stop .stepBudget
  | left + 1 => set left

end Search

/-- How coverage is checked: the hierarchy, and the limits and policies. -/
structure Checker where
  hierarchy : Hierarchy
  config : CheckConfig

namespace Checker

mutual

/-- What a pattern amounts to at a column of a type: names are dropped, alternatives
listed, and ascriptions dropped that the type satisfies, until each cell matches
anything or is a pattern that may fail. -/
def normalizeHead (C : Checker) (ty : Ty) : Pattern → Query (List Cell)
  | .wildcard _ | .binding _ _ | .rest _ => pure [none]
  | .named _ _ p => normalizeHead C ty p
  | .alternation _ branches => normalizeBranches C ty branches
  | .typed n p ascribed => do
    if ← C.hierarchy.isSubtype ty ascribed then normalizeHead C ty p
    else return [some (.typed n p ascribed)]
  | .literal n v => pure [some (.literal n v)]
  | .variant n adt parts => pure [some (.variant n adt parts)]
  | .extractor n adt parts => pure [some (.extractor n adt parts)]

/-- What the branches of an alternation amount to, from left to right. -/
def normalizeBranches (C : Checker) (ty : Ty) : List Pattern → Query (List Cell)
  | [] => pure []
  | p :: rest => do
    let cells ← normalizeHead C ty p
    return cells ++ (← normalizeBranches C ty rest)

end

/-- The rows with their first cells normalized; a row with alternatives becomes one
row for each. -/
def normalize (C : Checker) (ty : Ty) : List Row → Query (List Row)
  | [] => pure []
  | (some p :: tail) :: rows => do
    let cells ← C.normalizeHead ty p
    return cells.map (· :: tail) ++ (← normalize C ty rows)
  | row :: rows => do return row :: (← normalize C ty rows)

def heads (rows : List Row) : List Pattern := rows.filterMap fun row => row.head?.join

/-- The fixed elements of a sequence pattern, and whether any rest may follow. -/
def fixedElements (elements : List Pattern) : List Pattern × Bool :=
  match elements.getLast? with
  | some last => if last.isRest then (elements.dropLast, true) else (elements, false)
  | none => (elements, false)

/-- The number of fixed elements of a pattern that lists elements. -/
def fixedLength? : Pattern → Option Nat
  | .extractor _ _ elements => some (fixedElements elements).1.length
  | _ => none

/-- The lengths into which sequences are split: each length up to the longest list of
fixed elements among the heads, and all greater ones together. -/
def sequenceCtors (heads : List Pattern) : List Ctor :=
  match (heads.filterMap fixedLength?).max? with
  | none => [.atLeast 0]
  | some longest =>
    (List.range (longest + 1)).map Ctor.exactly ++ [.atLeast (longest + 1)]

/-- The ways in which the values of a type are made, given the patterns that they
will be matched with; none where they are not known. -/
def split (C : Checker) (ty : Ty) (heads : List Pattern) : Query (Option (List Ctor)) :=
  let D := C.hierarchy.decls
  if D.isClosed ty then do
    let subtypes ← C.hierarchy.directSubtypes ty
    if subtypes.isEmpty then
      match ty with
      | .app adt _ =>
        match (D.get adt).kind with
        | .abstractType _ => return some []
        | .product _ => return some [.product ty]
        | .singleton => return some [.singleton ty]
        | .sequence => return some (sequenceCtors heads)
      | .prim .never => return some []
      | .prim .unit | .lit _ => return some [.singleton ty]
      | _ => return none
    else return some (subtypes.map Ctor.subtype)
  else pure none

/-- The types of the fields of the values of a type that are made in one way. -/
def fieldTypes (C : Checker) (ty : Ty) : Ctor → Query (List Ty)
  | .subtype t => pure [t]
  | .product t => do return (← C.hierarchy.decls.fieldsOf t).map Field.ty
  | .singleton _ => pure []
  | .exactly n | .atLeast n => pure (List.replicate n (ty.args.headD .any))

/-- Whether some value of `sub` may also have the ascribed type. -/
def overlaps (C : Checker) (ascribed sub : Ty) : Query Bool := do
  if ← C.hierarchy.isSubtype ascribed sub then return true
  else
    match ascribed, sub with
    | .app a _, .app s _ => return C.hierarchy.decls.isDescendant a s
    | _, _ => return false

/-- Cells for a list of patterns, filled up to a length with cells that match
anything. -/
def padded (patterns : List Pattern) (length : Nat) : Row :=
  patterns.map some ++ List.replicate (length - patterns.length) none

/-- The cells that a pattern asks of the fields of a value made in one way, which has
`arity` fields; none if the pattern matches no such value. -/
def specialize (C : Checker) (p : Pattern) (ctor : Ctor) (arity : Nat) :
    Query (Option Row) :=
  let D := C.hierarchy.decls
  match p, ctor with
  | .typed _ part ascribed, .subtype sub => do
    if ← C.hierarchy.isSubtype sub ascribed then return some [some part]
    else if ← C.overlaps ascribed sub then return some [some p]
    else return none
  | .literal _ v, .subtype sub => do
    let t ← Query.build (.ofLiteral v)
    if ← C.hierarchy.isSubtype t sub then return some [some p] else return none
  | .literal _ v, .singleton single => do
    let t ← Query.build (.ofLiteral v)
    return if t = single then some [] else none
  | .variant _ adt _, .subtype sub | .extractor _ adt _, .subtype sub =>
    match sub with
    | .app d _ => pure (if D.isDescendant adt d then some [some p] else none)
    | _ => pure none
  | .variant _ adt parts, .product t | .extractor _ adt parts, .product t =>
    pure (if t.constructor? = some adt ∧ parts.length = arity then
      some (parts.map some) else none)
  | .variant _ adt _, .singleton t =>
    pure (if t.constructor? = some adt then some [] else none)
  | .extractor _ _ elements, .exactly n =>
    let (fixed, isOpen) := fixedElements elements
    pure (if (if isOpen then fixed.length ≤ n else fixed.length = n) then
      some (padded fixed n) else none)
  | .extractor _ _ elements, .atLeast n =>
    let (fixed, isOpen) := fixedElements elements
    pure (if isOpen = true ∧ fixed.length ≤ n then some (padded fixed n) else none)
  | _, _ => pure none

/-- A row specialized to the values made in one way, if it matches any. -/
def specializeRow (C : Checker) (ctor : Ctor) (arity : Nat) : Row → Query (Option Row)
  | [] => pure none
  | none :: tail => pure (some (List.replicate arity none ++ tail))
  | some p :: tail => do return (← C.specialize p ctor arity).map (· ++ tail)

/-- Stop where a column's data type encloses it too often. -/
def checkDepth (C : Checker) (column : Column) : Search Unit :=
  match column.ty with
  | .app adt _ =>
    if C.config.maxUnfoldDepth ≤ column.enclosing.count adt then
      Search.stop (.unfoldDepth column.ty)
    else pure ()
  | _ => pure ()

/-- The rows that match anything in the first column, without it. -/
def defaultRows (rows : List Row) : List Row :=
  rows.filterMap fun row =>
    match row with
    | none :: tail => some tail
    | _ => none

/-- The number of gaps with which a search is content; it looks for at least one. -/
def gapLimit (C : Checker) : Nat := max 1 C.config.maxCounterexamples

/-- The first fields of a gap in one, made in the given way. -/
def regroup (ctor : Ctor) (ty : Ty) (arity : Nat) (gaps : List Gap) : List Gap :=
  .made ctor ty (gaps.take arity) :: gaps.drop arity

/-- The gaps of a matrix whose first column is split in the given ways, added to
those that are known, up to the limit. `gapsOf` finds the gaps of a matrix. -/
def gapsByCtor (C : Checker)
    (gapsOf : List Row → List Column → Search (List (List Gap)))
    (rows : List Row) (column : Column) (rest : List Column) :
    List Ctor → List (List Gap) → Search (List (List Gap))
  | [], known => return known
  | ctor :: ctors, known => do
    let fields ← Search.ask (C.fieldTypes column.ty ctor)
    let specialized ←
      Search.ask (Query.filterMap (C.specializeRow ctor fields.length) rows)
    let enclosing := column.ty.constructor?.toList ++ column.enclosing
    let found ← gapsOf specialized (fields.map (⟨·, enclosing⟩) ++ rest)
    let known := known ++ found.map (regroup ctor column.ty fields.length)
    if C.gapLimit ≤ known.length then return known.take C.gapLimit
    else gapsByCtor C gapsOf rows column rest ctors known

/-- The vectors of values of the columns' types that no row matches, with at most
`depth` matrices inside each other. A matrix inside another takes a step of its own,
so a depth of the whole budget is no restriction. -/
def gapsWithin (C : Checker) :
    (depth : Nat) → List Row → List Column → Search (List (List Gap))
  | 0, _, _ => Search.stop .stepBudget
  | depth + 1, rows, columns => do
    Search.step
    match columns with
    | [] => return if rows.isEmpty then [[]] else []
    | column :: rest =>
      if rows.isEmpty then return [columns.map fun c => .any c.ty]
      else
        let rows ← Search.ask (C.normalize column.ty rows)
        let ctors? : Option (List Ctor) ←
          if (heads rows).isEmpty then pure none
          else Search.ask (C.split column.ty (heads rows))
        match ctors? with
        | none =>
          let tails ← gapsWithin C depth (defaultRows rows) rest
          return tails.map (.any column.ty :: ·)
        | some ctors =>
          C.checkDepth column
          gapsByCtor C (gapsWithin C depth) rows column rest ctors []

/-- The gaps of a matrix, or the limit at which the search for them stopped. -/
def gaps (C : Checker) (rows : List Row) (columns : List Column) :
    Query (Except SearchLimit (List (List Gap))) := do
  let budget := C.config.stepBudget
  let found : Except SearchLimit (List (List Gap) × Nat) ←
    ((C.gapsWithin budget rows columns).run budget).run
  return found.map Prod.fst

end Checker

end CaseCover
