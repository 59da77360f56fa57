import CaseCover.Proofs.Hierarchy.Descent
import CaseCover.Proofs.Hierarchy.Views
import CaseCover.Proofs.Value.Matching

/-!
Which values a pattern accepts. Acceptance is matching with one difference: an extractor of
a sequence accepts the sequences of the data type that it names only. Whether an ascription
accepts a value of a direct subtype can be told from the two types when the ascription is
decisive (`Declarations.Decisive`); whether a deconstruction does shows in the data types, as
every value of an application is made by a data type that descends from its own
(`core_of_app`).
-/

namespace CaseCover

/-- A pattern ascribes a type somewhere. -/
inductive Pattern.Mentions (t : Ty) : Pattern → Prop
  | here (n : PatternNode) (p : Pattern) : Mentions t (.typed n p t)
  | typed {n : PatternNode} {p : Pattern} {s : Ty} (h : Mentions t p) :
      Mentions t (.typed n p s)
  | named {n : PatternNode} {x : String} {p : Pattern} (h : Mentions t p) :
      Mentions t (.named n x p)
  | branch {n : PatternNode} {branches : List Pattern} {p : Pattern} (hp : p ∈ branches)
      (h : Mentions t p) : Mentions t (.alternation n branches)
  | variant {n : PatternNode} {d : DataId} {ps : List Pattern} {p : Pattern} (hp : p ∈ ps)
      (h : Mentions t p) : Mentions t (.variant n d ps)
  | extractor {n : PatternNode} {d : DataId} {ps : List Pattern} {p : Pattern} (hp : p ∈ ps)
      (h : Mentions t p) : Mentions t (.extractor n d ps)

namespace Declarations

open Checker (fixedElements)
open Relation (ReflTransGen)

/-- A pattern accepts a value. -/
inductive Accepts (D : Declarations) : Pattern → Value → Prop
  | wildcard (n : PatternNode) (v : Value) : D.Accepts (.wildcard n) v
  | binding (n : PatternNode) (x : String) (v : Value) : D.Accepts (.binding n x) v
  | rest (n : PatternNode) (v : Value) : D.Accepts (.rest n) v
  | named {n : PatternNode} {x : String} {p : Pattern} {v : Value} (h : D.Accepts p v) :
      D.Accepts (.named n x p) v
  | branch {n : PatternNode} {branches : List Pattern} {p : Pattern} {v : Value}
      (hp : p ∈ branches) (h : D.Accepts p v) : D.Accepts (.alternation n branches) v
  /-- The part accepts the value at a type that conforms to the ascription. -/
  | typed {n : PatternNode} {p : Pattern} {t : Ty} {u v : Value} (hu : u ∈ v.views)
      (ht : D.Below u.ty t) (h : D.Accepts p u) : D.Accepts (.typed n p t) v
  | literal {n : PatternNode} {l : Literal} {v : Value}
      (hv : v.core = .single (.ofLiteral l)) : D.Accepts (.literal n l) v
  | variant {n : PatternNode} {d : DataId} {args : List Ty} {ps : List Pattern}
      {parts : List Value} {v : Value} (hv : v.core = .tuple (.app d args) parts)
      (hlength : ps.length = parts.length)
      (h : ∀ q ∈ ps.zip parts, D.Accepts q.1 q.2) : D.Accepts (.variant n d ps) v
  /-- The value of a singleton. -/
  | singleton {n : PatternNode} {d : DataId} {args : List Ty} {ps : List Pattern}
      {v : Value} (hv : v.core = .single (.app d args)) : D.Accepts (.variant n d ps) v
  /-- An extractor of a product. -/
  | fields {n : PatternNode} {d : DataId} {args : List Ty} {ps : List Pattern}
      {parts : List Value} {v : Value} (hv : v.core = .tuple (.app d args) parts)
      (hlength : ps.length = parts.length)
      (h : ∀ q ∈ ps.zip parts, D.Accepts q.1 q.2) : D.Accepts (.extractor n d ps) v
  /-- An extractor of a sequence of the data type that it names. -/
  | elements {n : PatternNode} {d : DataId} {args : List Ty} {ps : List Pattern}
      {elements : List Value} {v : Value} (hv : v.core = .sequence (.app d args) elements)
      (hlength : if (fixedElements ps).2 = true
        then (fixedElements ps).1.length ≤ elements.length
        else (fixedElements ps).1.length = elements.length)
      (h : ∀ q ∈ (fixedElements ps).1.zip elements, D.Accepts q.1 q.2) :
      D.Accepts (.extractor n d ps) v

/-- What a pattern accepts it matches. -/
theorem Accepts.matches {D : Declarations} {p : Pattern} {v : Value} (h : D.Accepts p v) :
    D.Matches p v := by
  induction h with
  | wildcard n v => exact .wildcard n v
  | binding n x v => exact .binding n x v
  | rest n v => exact .rest n v
  | named _ ih => exact .named ih
  | branch hp _ ih => exact .branch hp ih
  | typed hu ht _ ih => exact .typed hu ht ih
  | literal hv => exact .literal hv
  | variant hv hlength _ ih => exact .variant hv hlength ih
  | singleton hv => exact .singleton hv
  | fields hv hlength _ ih => exact .fields hv hlength ih
  | elements hv hlength _ ih => exact .elements hv hlength ih

/-- A pattern that accepts a value at a type that it is viewed at accepts the value. -/
theorem Accepts.of_view {D : Declarations} {p : Pattern} {u v : Value}
    (hu : u ∈ v.views) (h : D.Accepts p u) : D.Accepts p v := by
  induction h with
  | wildcard n => exact .wildcard n v
  | binding n x => exact .binding n x v
  | rest n => exact .rest n v
  | named _ ih => exact .named (ih hu)
  | branch hp _ ih => exact .branch hp (ih hu)
  | typed hw ht hp _ => exact .typed (Value.views_of_mem hu hw) ht hp
  | literal hcore => exact .literal ((Value.core_of_mem_views hu).symm.trans hcore)
  | variant hcore hlength hparts _ =>
      exact .variant ((Value.core_of_mem_views hu).symm.trans hcore) hlength hparts
  | singleton hcore => exact .singleton ((Value.core_of_mem_views hu).symm.trans hcore)
  | fields hcore hlength hparts _ =>
      exact .fields ((Value.core_of_mem_views hu).symm.trans hcore) hlength hparts
  | elements hcore hlength helements _ =>
      exact .elements ((Value.core_of_mem_views hu).symm.trans hcore) hlength helements

/-- A cell accepts a value: its pattern does, or it has none. -/
def CellAccepts (D : Declarations) : Cell → Value → Prop
  | none, _ => True
  | some p, v => D.Accepts p v

/-- A row accepts a vector of values, one for each of its cells. -/
def RowAccepts (D : Declarations) (row : Row) (values : List Value) : Prop :=
  List.Forall₂ D.CellAccepts row values

/-- Two types look as if they may have a value in common: one is below the other, or is an
application of a data type that descends from the other's. -/
def Overlaps (D : Declarations) (ascribed sub : Ty) : Prop :=
  D.Below ascribed sub ∨ ∃ a as s ss, ascribed = .app a as ∧ sub = .app s ss ∧
    D.isDescendant a s = true

/-- A value of a direct subtype that is of an ascribed type, at whatever type it is viewed,
shows in the two types: the direct subtype is below the ascribed type or overlaps with it. -/
def Decisive (D : Declarations) (t : Ty) : Prop :=
  ∀ outer inner, D.IsValue (.viewed outer inner) → ∀ u ∈ inner.views, D.Below u.ty t →
    D.Below inner.ty t ∨ D.Overlaps t inner.ty

/-- Every type that a pattern ascribes is decisive. -/
def Decides (D : Declarations) (p : Pattern) : Prop := ∀ t, p.Mentions t → D.Decisive t

section Descent

variable {D : Declarations}

/-- The types at which a value of an application is viewed are applications of data types that
descend from its own. -/
theorem app_of_mem_views (hD : D.ChildrenInherit) {u v : Value} (hv : D.IsValue v)
    (hu : u ∈ v.views) {d : DataId} {args : List Ty} (hty : v.ty = .app d args) :
    ∃ c cs, u.ty = .app c cs ∧ ReflTransGen D.Inherits c d := by
  induction hv generalizing d args with
  | @viewed t subtypes inner hsubtypes hmem _ ih =>
      obtain rfl : t = .app d args := hty
      rcases List.mem_cons.1 hu with rfl | hu
      · exact ⟨d, args, rfl, .refl⟩
      · obtain ⟨c, cs, hc, hchild⟩ := child_of_directSubtype hsubtypes hmem
        obtain ⟨e, es, he, hreach⟩ := ih hu hc
        exact ⟨e, es, he, hreach.tail (hD d c hchild)⟩
  | tuple | sequence | single | atom =>
      rw [List.mem_singleton.1 hu]
      exact ⟨d, args, hty, .refl⟩

/-- A value of an application is made by a data type that descends from its own. -/
theorem core_of_app (hD : D.ChildrenInherit) {v : Value} (hv : D.IsValue v) {d : DataId}
    {args : List Ty} (hty : v.ty = .app d args) :
    ∃ e es, v.core.ty = .app e es ∧ ReflTransGen D.Inherits e d :=
  app_of_mem_views hD hv v.core_mem_views hty

/-- The literal of a value that is no union is found to be below the value's type. -/
theorem below_of_core_literal (hD : D.ChildrenInherit) {v : Value} (hv : D.IsValue v)
    (hunion : ∀ a b, v.ty ≠ .union a b) {l : Literal}
    (hcore : v.core = .single (.ofLiteral l)) : D.Below (.ofLiteral l) v.ty := by
  cases v with
  | viewed t inner =>
      rcases hv.viewed_cases hunion with ⟨b, rfl, rfl⟩ | ⟨d, args, rfl⟩
      · have hl : Ty.ofLiteral l = .lit (.bool b) := (Value.single.inj hcore).symm
        rw [hl]
        exact D.below_base (.bool b)
      · obtain ⟨e, es, he, -⟩ := core_of_app hD hv rfl
        rw [hcore] at he
        cases l <;> exact nomatch he
  | single t =>
      obtain rfl := Value.single.inj hcore
      exact D.below_self _
  | tuple | sequence | atom => exact nomatch hcore

/-- The type of a value that an application makes is an application from which it descends,
unless it is a union. -/
theorem app_of_core (hD : D.ChildrenInherit) {v : Value} (hv : D.IsValue v)
    (hunion : ∀ a b, v.ty ≠ .union a b) {e : DataId} {es : List Ty}
    (hcore : v.core.ty = .app e es) :
    ∃ d args, v.ty = .app d args ∧ ReflTransGen D.Inherits e d := by
  cases v with
  | viewed t inner =>
      rcases hv.viewed_cases hunion with ⟨b, rfl, rfl⟩ | ⟨d, args, rfl⟩
      · exact nomatch hcore
      · obtain ⟨_, _, he, hreach⟩ := core_of_app hD hv rfl
        obtain ⟨rfl, rfl⟩ := Ty.app.inj (he.symm.trans hcore)
        exact ⟨d, args, rfl, hreach⟩
  | tuple | sequence | single | atom => exact ⟨e, es, hcore, .refl⟩

end Descent

section Decisive

variable {D : Declarations}

/-- An application is decisive if whatever lies above a descendant of its data type lies
above the data type itself. -/
theorem decisive_app (hD : D.ChildrenInherit) (hscoped : D.ParentsScoped) {a : DataId}
    (habove : ∀ c s, ReflTransGen D.Inherits c a → ReflTransGen D.Inherits c s →
      ReflTransGen D.Inherits a s) (as : List Ty) : D.Decisive (.app a as) := by
  intro outer inner hv u hu hbelow
  obtain ⟨hinner, hunion⟩ := hv.inner
  cases inner with
  | viewed t next =>
      rcases List.mem_cons.1 hu with rfl | hu'
      · exact .inl hbelow
      rcases hinner.viewed_cases hunion with ⟨b, rfl, rfl⟩ | ⟨s, ss, rfl⟩
      · rw [List.mem_singleton.1 hu'] at hbelow
        exact absurd hbelow not_below_app_of_lit
      · obtain ⟨c, cs, hc, hreach⟩ := app_of_mem_views hD hinner hu rfl
        rw [hc] at hbelow
        have hdescends := habove c s (inherits_of_below hscoped hbelow) hreach
        exact .inr (.inr ⟨a, as, s, ss, rfl, rfl, isDescendant_iff.2 hdescends⟩)
  | tuple | sequence | single | atom =>
      rw [List.mem_singleton.1 hu] at hbelow
      exact .inl hbelow

theorem decisive_of_childless (hD : D.ChildrenInherit) (hscoped : D.ParentsScoped) {a : DataId}
    (ha : ∀ c, ¬ D.Inherits c a) (as : List Ty) : D.Decisive (.app a as) := by
  refine decisive_app hD hscoped (fun c s hc hs => ?_) as
  rcases ReflTransGen.cases_tail hc with rfl | ⟨b, -, hb⟩
  · exact hs
  · exact absurd hb (ha b)

end Decisive

section Decides

variable {D : Declarations} {n : PatternNode} {p : Pattern}

theorem Decides.mono {q : Pattern} (h : D.Decides p) (hq : ∀ t, q.Mentions t → p.Mentions t) :
    D.Decides q :=
  fun t ht => h t (hq t ht)

theorem Decides.part {t : Ty} (h : D.Decides (.typed n p t)) : D.Decides p :=
  h.mono fun _ => .typed

theorem Decides.decisive {t : Ty} (h : D.Decides (.typed n p t)) : D.Decisive t :=
  h t (.here n p)

end Decides

end Declarations

end CaseCover
