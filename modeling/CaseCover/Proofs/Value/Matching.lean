import CaseCover.Check.Matrix
import CaseCover.Proofs.Value.Shapes

/-!
Which shapes of values a pattern matches. A literal, a deconstruction and a sequence
pattern look at the value itself, whatever it is viewed through; an ascription may use
any of the types that the value is viewed at. So a pattern that matches a value at one
of these types matches it as a whole (`Matches.of_view`).
-/

namespace CaseCover

namespace Declarations

open Checker (fixedElements)

/-- A pattern matches a value. -/
inductive Matches (D : Declarations) : Pattern → Value → Prop
  | wildcard (n : PatternNode) (v : Value) : D.Matches (.wildcard n) v
  | binding (n : PatternNode) (x : String) (v : Value) : D.Matches (.binding n x) v
  /-- A rest that is a pattern of its own. -/
  | rest (n : PatternNode) (v : Value) : D.Matches (.rest n) v
  | named {n : PatternNode} {x : String} {p : Pattern} {v : Value} (h : D.Matches p v) :
      D.Matches (.named n x p) v
  | branch {n : PatternNode} {branches : List Pattern} {p : Pattern} {v : Value}
      (hp : p ∈ branches) (h : D.Matches p v) : D.Matches (.alternation n branches) v
  /-- The part matches at a type that conforms to the ascription. -/
  | typed {n : PatternNode} {p : Pattern} {t : Ty} {u v : Value} (hu : u ∈ v.views)
      (ht : D.Below u.ty t) (h : D.Matches p u) : D.Matches (.typed n p t) v
  | literal {n : PatternNode} {l : Literal} {v : Value}
      (hv : v.core = .single (.ofLiteral l)) : D.Matches (.literal n l) v
  | variant {n : PatternNode} {d : DataId} {args : List Ty} {ps : List Pattern}
      {parts : List Value} {v : Value} (hv : v.core = .tuple (.app d args) parts)
      (hlength : ps.length = parts.length)
      (h : ∀ q ∈ ps.zip parts, D.Matches q.1 q.2) : D.Matches (.variant n d ps) v
  /-- The value of a singleton. -/
  | singleton {n : PatternNode} {d : DataId} {args : List Ty} {ps : List Pattern}
      {v : Value} (hv : v.core = .single (.app d args)) : D.Matches (.variant n d ps) v
  /-- An extractor of a product. -/
  | fields {n : PatternNode} {d : DataId} {args : List Ty} {ps : List Pattern}
      {parts : List Value} {v : Value} (hv : v.core = .tuple (.app d args) parts)
      (hlength : ps.length = parts.length)
      (h : ∀ q ∈ ps.zip parts, D.Matches q.1 q.2) : D.Matches (.extractor n d ps) v
  /-- An extractor of a sequence, of any data type: the fixed elements match, and
  there are others only before a rest. -/
  | elements {n : PatternNode} {d : DataId} {t : Ty} {ps : List Pattern}
      {elements : List Value} {v : Value} (hv : v.core = .sequence t elements)
      (hlength : if (fixedElements ps).2 = true
        then (fixedElements ps).1.length ≤ elements.length
        else (fixedElements ps).1.length = elements.length)
      (h : ∀ q ∈ (fixedElements ps).1.zip elements, D.Matches q.1 q.2) :
      D.Matches (.extractor n d ps) v

/-- A pattern that matches a value at a type that it is viewed at matches the value. -/
theorem Matches.of_view {D : Declarations} {p : Pattern} {u v : Value}
    (hu : u ∈ v.views) (h : D.Matches p u) : D.Matches p v := by
  induction h with
  | wildcard n => exact .wildcard n v
  | binding n x => exact .binding n x v
  | rest n => exact .rest n v
  | named _ ih => exact .named (ih hu)
  | branch hp _ ih => exact .branch hp (ih hu)
  | typed hw ht hp _ => exact .typed (Value.views_of_mem hu hw) ht hp
  | literal hcore => exact .literal ((Value.core_of_mem_views hu).symm.trans hcore)
  | variant hcore hlength hparts _ =>
      exact .variant ((Value.core_of_mem_views hu).symm.trans hcore) hlength hparts
  | singleton hcore => exact .singleton ((Value.core_of_mem_views hu).symm.trans hcore)
  | fields hcore hlength hparts _ =>
      exact .fields ((Value.core_of_mem_views hu).symm.trans hcore) hlength hparts
  | elements hcore hlength helements _ =>
      exact .elements ((Value.core_of_mem_views hu).symm.trans hcore) hlength helements

/-- A cell matches a value: its pattern does, or it has none. -/
def CellMatches (D : Declarations) : Cell → Value → Prop
  | none, _ => True
  | some p, v => D.Matches p v

/-- A row matches a vector of values, one for each of its cells. -/
def RowMatches (D : Declarations) (row : Row) (values : List Value) : Prop :=
  List.Forall₂ D.CellMatches row values

end Declarations

end CaseCover
