import CaseCover.Proofs.Check.Search
import CaseCover.Proofs.Value.Gaps
import CaseCover.Proofs.Value.Matching

/-!
What happens to the rows of a matrix. Normalizing rows, specializing them to a way of making
values and dropping their first cells keep them as wide as there are columns
(`Rectangular.normalize`, `Rectangular.specialize`, `Rectangular.defaultRows`), and no row
that comes out matches more than the row that went in (`normalize_sound`,
`specializeRow_sound`). Normalizing rows with a stack, one step at a time, ends with the same
rows (`normalize_eq_some_iff`).
-/

namespace CaseCover

namespace Checker

variable {C : Checker}

/-- The rows of a matrix have a cell for each column. -/
def Rectangular (rows : List Row) (columns : List Column) : Prop :=
  ∀ row ∈ rows, row.length = columns.length

theorem rectangular_of_patterns (patterns : List Pattern) (column : Column) :
    Rectangular (patterns.map fun p => [some p]) [column] := by
  intro row hrow
  obtain ⟨p, -, rfl⟩ := List.mem_map.1 hrow
  rfl

/-- An alternation amounts to the cells of its branches, from left to right. -/
theorem normalizeBranches_cons_eq_some {ty : Ty} {p : Pattern} {branches : List Pattern}
    {cells : List Cell} :
    (C.normalizeBranches ty (p :: branches)).value? = some cells ↔
      ∃ first later, (C.normalizeHead ty p).value? = some first ∧
        (C.normalizeBranches ty branches).value? = some later ∧ first ++ later = cells := by
  rw [normalizeBranches, Query.value?_bind_eq_some]
  constructor
  · rintro ⟨first, hfirst, h⟩
    obtain ⟨later, hlater, h⟩ := Query.value?_bind_eq_some.1 h
    exact ⟨first, later, hfirst, hlater, Option.some.inj h⟩
  · rintro ⟨first, later, hfirst, hlater, rfl⟩
    exact ⟨first, hfirst, Query.value?_bind_eq_some.2 ⟨later, hlater, rfl⟩⟩

theorem mem_normalizeBranches {ty : Ty} {branches : List Pattern} {cells : List Cell}
    (hcells : (C.normalizeBranches ty branches).value? = some cells) {cell : Cell}
    (hmem : cell ∈ cells) :
    ∃ p ∈ branches, ∃ found, (C.normalizeHead ty p).value? = some found ∧ cell ∈ found := by
  induction branches generalizing cells with
  | nil =>
      obtain rfl : [] = cells := Option.some.inj hcells
      exact absurd hmem List.not_mem_nil
  | cons p branches ih =>
      obtain ⟨first, later, hfirst, hlater, rfl⟩ := normalizeBranches_cons_eq_some.1 hcells
      rcases List.mem_append.1 hmem with hhead | htail
      · exact ⟨p, List.mem_cons_self, first, hfirst, hhead⟩
      · obtain ⟨q, hq, found, hfound, hcell⟩ := ih hlater htail
        exact ⟨q, List.mem_cons_of_mem p hq, found, hfound, hcell⟩

/-- A cell to which a pattern amounts at a type matches no value of the type that the
pattern does not match. -/
theorem normalizeHead_sound {ty : Ty} {p : Pattern} {cells : List Cell}
    (hcells : (C.normalizeHead ty p).value? = some cells) {cell : Cell}
    (hmem : cell ∈ cells) {v : Value} (hv : v.ty = ty)
    (hcell : C.hierarchy.decls.CellMatches cell v) : C.hierarchy.decls.Matches p v := by
  induction p generalizing cells with
  | wildcard n => exact .wildcard n v
  | binding n x => exact .binding n x v
  | rest n => exact .rest n v
  | named n x p ih =>
      rw [normalizeHead] at hcells
      exact .named (ih hcells hmem)
  | typed n p ascribed ih =>
      rw [normalizeHead, Query.value?_bind_eq_some] at hcells
      obtain ⟨below, hbelow, hcells⟩ := hcells
      cases below with
      | true =>
          have hself : C.hierarchy.decls.Below v.ty ascribed := by
            rw [hv]
            exact Declarations.below_of_isSubtype hbelow
          exact .typed v.self_mem_views hself (ih hcells hmem)
      | false =>
          obtain rfl : [some (.typed n p ascribed)] = cells := Option.some.inj hcells
          obtain rfl := List.mem_singleton.1 hmem
          exact hcell
  | literal n l =>
      obtain rfl : [some (.literal n l)] = cells := Option.some.inj hcells
      obtain rfl := List.mem_singleton.1 hmem
      exact hcell
  | variant n d ps _ =>
      obtain rfl : [some (.variant n d ps)] = cells := Option.some.inj hcells
      obtain rfl := List.mem_singleton.1 hmem
      exact hcell
  | extractor n d ps _ =>
      obtain rfl : [some (.extractor n d ps)] = cells := Option.some.inj hcells
      obtain rfl := List.mem_singleton.1 hmem
      exact hcell
  | alternation n branches ih =>
      rw [normalizeHead] at hcells
      obtain ⟨p, hp, found, hfound, hmem⟩ := mem_normalizeBranches hcells hmem
      exact .branch hp (ih p hp hfound hmem)

/-- A row with a pattern in its first cell becomes one row for each cell to which the pattern
amounts. -/
theorem normalize_cons_eq_some {ty : Ty} {p : Pattern} {tail : Row} {rows normalized : List Row} :
    (C.normalize ty ((some p :: tail) :: rows)).value? = some normalized ↔
      ∃ cells others, (C.normalizeHead ty p).value? = some cells ∧
        (C.normalize ty rows).value? = some others ∧
          cells.map (· :: tail) ++ others = normalized := by
  rw [normalize, Query.value?_bind_eq_some]
  constructor
  · rintro ⟨cells, hcells, h⟩
    obtain ⟨others, hothers, h⟩ := Query.value?_bind_eq_some.1 h
    exact ⟨cells, others, hcells, hothers, Option.some.inj h⟩
  · rintro ⟨cells, others, hcells, hothers, rfl⟩
    exact ⟨cells, hcells, Query.value?_bind_eq_some.2 ⟨others, hothers, rfl⟩⟩

theorem normalize_none_eq_some {ty : Ty} {tail : Row} {rows normalized : List Row} :
    (C.normalize ty ((none :: tail) :: rows)).value? = some normalized ↔
      ∃ others, (C.normalize ty rows).value? = some others ∧
        (none :: tail) :: others = normalized := by
  have hmap : (C.normalize ty ((none :: tail) :: rows)).value? =
      (C.normalize ty rows).value?.map ((none :: tail) :: ·) := Query.value?_map _ _
  rw [hmap, Option.map_eq_some_iff]

/-- The visit of the rows on a stack, at a column of a type, ends with the rows that come out. A
row whose first pattern is taken apart goes back to the stack. -/
inductive NormalizeEnds (C : Checker) (ty : Ty) : List Row → List Row → Prop
  | done : C.NormalizeEnds ty [] []
  | blank {tail : Row} {rows out : List Row} (h : C.NormalizeEnds ty rows out) :
      C.NormalizeEnds ty ((none :: tail) :: rows) ((none :: tail) :: out)
  | anything {p : Pattern} {tail : Row} {rows out : List Row}
      (hp : (∃ n, p = .wildcard n) ∨ (∃ n x, p = .binding n x) ∨ ∃ n, p = .rest n)
      (h : C.NormalizeEnds ty rows out) :
      C.NormalizeEnds ty ((some p :: tail) :: rows) ((none :: tail) :: out)
  | named {n : PatternNode} {x : String} {p : Pattern} {tail : Row} {rows out : List Row}
      (h : C.NormalizeEnds ty ((some p :: tail) :: rows) out) :
      C.NormalizeEnds ty ((some (.named n x p) :: tail) :: rows) out
  | alternation {n : PatternNode} {branches : List Pattern} {tail : Row} {rows out : List Row}
      (h : C.NormalizeEnds ty (branches.map (some · :: tail) ++ rows) out) :
      C.NormalizeEnds ty ((some (.alternation n branches) :: tail) :: rows) out
  | satisfied {n : PatternNode} {p : Pattern} {t : Ty} {tail : Row} {rows out : List Row}
      (ht : (C.hierarchy.isSubtype ty t).value? = some true)
      (h : C.NormalizeEnds ty ((some p :: tail) :: rows) out) :
      C.NormalizeEnds ty ((some (.typed n p t) :: tail) :: rows) out
  | unsatisfied {n : PatternNode} {p : Pattern} {t : Ty} {tail : Row} {rows out : List Row}
      (ht : (C.hierarchy.isSubtype ty t).value? = some false) (h : C.NormalizeEnds ty rows out) :
      C.NormalizeEnds ty ((some (.typed n p t) :: tail) :: rows)
        ((some (.typed n p t) :: tail) :: out)
  | refutable {p : Pattern} {tail : Row} {rows out : List Row}
      (hp : (∃ n l, p = .literal n l) ∨ (∃ n d ps, p = .variant n d ps) ∨
        ∃ n d ps, p = .extractor n d ps) (h : C.NormalizeEnds ty rows out) :
      C.NormalizeEnds ty ((some p :: tail) :: rows) ((some p :: tail) :: out)

/-- A visit lists the rows that a row becomes before it goes on. -/
theorem NormalizeEnds.cons {ty : Ty} {p : Pattern} {cells : List Cell} {tail : Row}
    {rows out : List Row} (hcells : (C.normalizeHead ty p).value? = some cells)
    (h : C.NormalizeEnds ty rows out) :
    C.NormalizeEnds ty ((some p :: tail) :: rows) (cells.map (· :: tail) ++ out) := by
  induction p generalizing cells rows out with
  | wildcard n =>
      obtain rfl : [none] = cells := Option.some.inj hcells
      exact .anything (.inl ⟨n, rfl⟩) h
  | binding n x =>
      obtain rfl : [none] = cells := Option.some.inj hcells
      exact .anything (.inr (.inl ⟨n, x, rfl⟩)) h
  | rest n =>
      obtain rfl : [none] = cells := Option.some.inj hcells
      exact .anything (.inr (.inr ⟨n, rfl⟩)) h
  | literal n l =>
      obtain rfl : [some (.literal n l)] = cells := Option.some.inj hcells
      exact .refutable (.inl ⟨n, l, rfl⟩) h
  | variant n d ps _ =>
      obtain rfl : [some (.variant n d ps)] = cells := Option.some.inj hcells
      exact .refutable (.inr (.inl ⟨n, d, ps, rfl⟩)) h
  | extractor n d ps _ =>
      obtain rfl : [some (.extractor n d ps)] = cells := Option.some.inj hcells
      exact .refutable (.inr (.inr ⟨n, d, ps, rfl⟩)) h
  | named n x p ih => exact .named (ih hcells h)
  | typed n p t ih =>
      rw [normalizeHead, Query.value?_bind_eq_some] at hcells
      obtain ⟨below, hbelow, hcells⟩ := hcells
      cases below with
      | true => exact .satisfied hbelow (ih hcells h)
      | false =>
          obtain rfl : [some (.typed n p t)] = cells := Option.some.inj hcells
          exact .unsatisfied hbelow h
  | alternation n branches ih =>
      rw [normalizeHead] at hcells
      refine .alternation ?_
      induction branches generalizing cells with
      | nil =>
          obtain rfl : [] = cells := Option.some.inj hcells
          exact h
      | cons p branches ihs =>
          obtain ⟨first, later, hfirst, hlater, rfl⟩ := normalizeBranches_cons_eq_some.1 hcells
          rw [List.map_append, List.append_assoc]
          refine ih p List.mem_cons_self hfirst ?_
          exact ihs (fun q hq => ih q (List.mem_cons_of_mem p hq)) hlater

/-- Rows with the branches of an alternation at their head become what one row with the
alternation becomes. -/
theorem normalize_alternation {ty : Ty} {n : PatternNode} {branches : List Pattern} {tail : Row}
    {rows out : List Row}
    (h : (C.normalize ty (branches.map (some · :: tail) ++ rows)).value? = some out) :
    (C.normalize ty ((some (.alternation n branches) :: tail) :: rows)).value? = some out := by
  rw [normalize_cons_eq_some]
  simp only [normalizeHead]
  induction branches generalizing out with
  | nil => exact ⟨[], out, rfl, h, rfl⟩
  | cons p branches ih =>
      obtain ⟨first, rest, hfirst, hrest, rfl⟩ := normalize_cons_eq_some.1 h
      obtain ⟨later, others, hlater, hothers, rfl⟩ := ih hrest
      refine ⟨first ++ later, others, ?_, hothers, by simp⟩
      exact normalizeBranches_cons_eq_some.2 ⟨first, later, hfirst, hlater, rfl⟩

/-- The visit of rows, none of which is empty, ends with the rows that normalizing them gives. -/
theorem normalize_eq_some_iff {ty : Ty} {rows out : List Row} (hrows : [] ∉ rows) :
    (C.normalize ty rows).value? = some out ↔ C.NormalizeEnds ty rows out := by
  constructor
  · intro h
    induction rows generalizing out with
    | nil =>
        obtain rfl : [] = out := Option.some.inj h
        exact .done
    | cons row rows ih =>
        obtain ⟨hrow, hrest⟩ := not_or.1 fun h => hrows (List.mem_cons.2 h)
        obtain ⟨cell, tail, rfl⟩ := List.exists_cons_of_ne_nil (Ne.symm hrow)
        cases cell with
        | none =>
            obtain ⟨others, hothers, rfl⟩ := normalize_none_eq_some.1 h
            exact .blank (ih hrest hothers)
        | some p =>
            obtain ⟨cells, others, hcells, hothers, rfl⟩ := normalize_cons_eq_some.1 h
            exact .cons hcells (ih hrest hothers)
  · intro h
    clear hrows
    induction h with
    | done => rfl
    | blank _ ih => exact normalize_none_eq_some.2 ⟨_, ih, rfl⟩
    | anything hp _ ih =>
        refine normalize_cons_eq_some.2 ⟨[none], _, ?_, ih, rfl⟩
        rcases hp with ⟨n, rfl⟩ | ⟨n, x, rfl⟩ | ⟨n, rfl⟩ <;> rfl
    | named _ ih => exact normalize_cons_eq_some.2 (normalize_cons_eq_some.1 ih)
    | alternation _ ih => exact normalize_alternation ih
    | satisfied ht _ ih =>
        obtain ⟨cells, others, hcells, hothers, rfl⟩ := normalize_cons_eq_some.1 ih
        refine normalize_cons_eq_some.2 ⟨cells, others, ?_, hothers, rfl⟩
        rw [normalizeHead]
        exact Query.value?_bind_eq_some.2 ⟨true, ht, hcells⟩
    | @unsatisfied n p t _ _ _ ht _ ih =>
        refine normalize_cons_eq_some.2 ⟨[some (.typed n p t)], _, ?_, ih, rfl⟩
        rw [normalizeHead]
        exact Query.value?_bind_eq_some.2 ⟨false, ht, rfl⟩
    | refutable hp _ ih =>
        refine normalize_cons_eq_some.2 ⟨[some _], _, ?_, ih, rfl⟩
        rcases hp with ⟨n, l, rfl⟩ | ⟨n, d, ps, rfl⟩ | ⟨n, d, ps, rfl⟩ <;> rfl

/-- A normalized row is a row as it was, without a first pattern, or one with a cell to
which its first pattern amounts. -/
theorem mem_normalize {ty : Ty} {rows normalized : List Row}
    (hrows : (C.normalize ty rows).value? = some normalized) {row : Row}
    (hmem : row ∈ normalized) :
    (row ∈ rows ∧ ∀ p tail, row ≠ some p :: tail) ∨
      ∃ p tail cells cell, some p :: tail ∈ rows ∧
        (C.normalizeHead ty p).value? = some cells ∧ cell ∈ cells ∧ row = cell :: tail := by
  induction rows generalizing normalized with
  | nil =>
      obtain rfl : [] = normalized := Option.some.inj hrows
      exact absurd hmem List.not_mem_nil
  | cons first rows ih =>
      have later : ∀ {normalized : List Row},
          (C.normalize ty rows).value? = some normalized → row ∈ normalized →
          (row ∈ first :: rows ∧ ∀ p tail, row ≠ some p :: tail) ∨
            ∃ p tail cells cell, some p :: tail ∈ first :: rows ∧
              (C.normalizeHead ty p).value? = some cells ∧ cell ∈ cells ∧
              row = cell :: tail := by
        intro normalized hrows hmem
        rcases ih hrows hmem with
          ⟨hkept, hhead⟩ | ⟨p, tail, cells, cell, hp, hcells, hcell, heq⟩
        · exact .inl ⟨List.mem_cons_of_mem first hkept, hhead⟩
        · exact .inr ⟨p, tail, cells, cell, List.mem_cons_of_mem first hp, hcells, hcell, heq⟩
      have unchanged : (C.normalize ty (first :: rows)).value? =
            (C.normalize ty rows).value?.map (first :: ·) →
          (∀ p tail, first ≠ some p :: tail) →
          (row ∈ first :: rows ∧ ∀ p tail, row ≠ some p :: tail) ∨
            ∃ p tail cells cell, some p :: tail ∈ first :: rows ∧
              (C.normalizeHead ty p).value? = some cells ∧ cell ∈ cells ∧
              row = cell :: tail := by
        intro heq hhead
        rw [heq, Option.map_eq_some_iff] at hrows
        obtain ⟨rest, hrest, rfl⟩ := hrows
        rcases List.mem_cons.1 hmem with rfl | hmem
        · exact .inl ⟨List.mem_cons_self, hhead⟩
        · exact later hrest hmem
      cases first with
      | nil => exact unchanged (Query.value?_map _ _) nofun
      | cons cell tail =>
          cases cell with
          | none => exact unchanged (Query.value?_map _ _) nofun
          | some p =>
              obtain ⟨cells, rest, hcells, hrest, rfl⟩ := normalize_cons_eq_some.1 hrows
              rcases List.mem_append.1 hmem with hhead | hmem
              · obtain ⟨cell, hcell, rfl⟩ := List.mem_map.1 hhead
                exact .inr ⟨p, tail, cells, cell, List.mem_cons_self, hcells, hcell, rfl⟩
              · exact later hrest hmem

theorem Rectangular.normalize {rows normalized : List Row} {column : Column}
    {rest : List Column} (h : Rectangular rows (column :: rest))
    (hrows : (C.normalize column.ty rows).value? = some normalized) :
    Rectangular normalized (column :: rest) := by
  intro row hmem
  rcases mem_normalize hrows hmem with
    ⟨hkept, -⟩ | ⟨p, tail, cells, cell, hp, -, -, rfl⟩
  · exact h row hkept
  · exact h (some p :: tail) hp

/-- What a normalized row matches is matched by a row that was there. -/
theorem normalize_sound {ty : Ty} {rows normalized : List Row}
    (hrows : (C.normalize ty rows).value? = some normalized) {row : Row}
    (hmem : row ∈ normalized) {v : Value} {values : List Value} (hv : v.ty = ty)
    (hrow : C.hierarchy.decls.RowMatches row (v :: values)) :
    ∃ row ∈ rows, C.hierarchy.decls.RowMatches row (v :: values) := by
  rcases mem_normalize hrows hmem with
    ⟨hkept, -⟩ | ⟨p, tail, cells, cell, hp, hcells, hcell, rfl⟩
  · exact ⟨row, hkept, hrow⟩
  · refine ⟨some p :: tail, hp, ?_⟩
    cases hrow with
    | cons hhead htail => exact .cons (normalizeHead_sound hcells hcell hv hhead) htail

/-- The ways in which a pattern is specialized to the values made in one way. -/
inductive Specializes (C : Checker) : Pattern → Ctor → Nat → Row → Prop
  | part {n : PatternNode} {p : Pattern} {t sub : Ty} {arity : Nat}
      (hsub : C.hierarchy.decls.Below sub t) :
      C.Specializes (.typed n p t) (.subtype sub) arity [some p]
  | kept (p : Pattern) (sub : Ty) (arity : Nat) :
      C.Specializes p (.subtype sub) arity [some p]
  | literal (n : PatternNode) (l : Literal) (arity : Nat) :
      C.Specializes (.literal n l) (.singleton (.ofLiteral l)) arity []
  | variant (n : PatternNode) (d : DataId) (args : List Ty) (parts : List Pattern) :
      C.Specializes (.variant n d parts) (.product (.app d args)) parts.length
        (parts.map some)
  | fields (n : PatternNode) (d : DataId) (args : List Ty) (parts : List Pattern) :
      C.Specializes (.extractor n d parts) (.product (.app d args)) parts.length
        (parts.map some)
  | singleton (n : PatternNode) (d : DataId) (args : List Ty) (parts : List Pattern)
      (arity : Nat) : C.Specializes (.variant n d parts) (.singleton (.app d args)) arity []
  | exactly {n : PatternNode} {d : DataId} {elements : List Pattern} {length arity : Nat}
      (hlength : if (fixedElements elements).2 = true
        then (fixedElements elements).1.length ≤ length
        else (fixedElements elements).1.length = length) :
      C.Specializes (.extractor n d elements) (.exactly length) arity
        (padded (fixedElements elements).1 length)
  | atLeast {n : PatternNode} {d : DataId} {elements : List Pattern} {length arity : Nat}
      (hopen : (fixedElements elements).2 = true)
      (hlength : (fixedElements elements).1.length ≤ length) :
      C.Specializes (.extractor n d elements) (.atLeast length) arity
        (padded (fixedElements elements).1 length)

theorem of_value?_pure_ite {c : Prop} [Decidable c] {found cells : Row}
    (hcells : (pure (if c then some found else none) : Query (Option Row)).value? =
      some (some cells)) : c ∧ found = cells := by
  by_cases hc : c
  · rw [if_pos hc] at hcells
    exact ⟨hc, Option.some.inj (Option.some.inj hcells)⟩
  · rw [if_neg hc] at hcells
    exact nomatch Option.some.inj hcells

theorem specializes_of_value? {p : Pattern} {ctor : Ctor} {arity : Nat} {cells : Row}
    (hcells : (C.specialize p ctor arity).value? = some (some cells)) :
    C.Specializes p ctor arity cells := by
  unfold specialize at hcells
  split at hcells
  case h_1 n part t sub =>
    rw [Query.value?_bind_eq_some] at hcells
    obtain ⟨below, hbelow, hcells⟩ := hcells
    cases below with
    | true =>
        obtain rfl : [some part] = cells := Option.some.inj (Option.some.inj hcells)
        exact .part (Declarations.below_of_isSubtype hbelow)
    | false =>
        rw [if_neg Bool.false_ne_true, Query.value?_bind_eq_some] at hcells
        obtain ⟨overlap, -, hcells⟩ := hcells
        cases overlap with
        | true =>
            obtain rfl : [some (.typed n part t)] = cells :=
              Option.some.inj (Option.some.inj hcells)
            exact .kept _ _ arity
        | false => exact nomatch Option.some.inj hcells
  case h_2 n l sub =>
    rw [Query.value?_bind_eq_some] at hcells
    obtain ⟨t, -, hcells⟩ := hcells
    rw [Query.value?_bind_eq_some] at hcells
    obtain ⟨below, -, hcells⟩ := hcells
    cases below with
    | true =>
        obtain rfl : [some (.literal n l)] = cells :=
          Option.some.inj (Option.some.inj hcells)
        exact .kept _ _ arity
    | false => exact nomatch Option.some.inj hcells
  case h_3 n l single =>
    rw [Query.value?_bind_eq_some] at hcells
    obtain ⟨t, ht, hcells⟩ := hcells
    obtain rfl : Ty.ofLiteral l = t := Option.some.inj ht
    obtain ⟨rfl, rfl⟩ := of_value?_pure_ite hcells
    exact .literal n l arity
  case h_4 n d parts sub =>
    split at hcells
    · obtain ⟨-, rfl⟩ := of_value?_pure_ite hcells
      exact .kept _ _ arity
    · exact nomatch Option.some.inj hcells
  case h_5 n d parts sub =>
    split at hcells
    · obtain ⟨-, rfl⟩ := of_value?_pure_ite hcells
      exact .kept _ _ arity
    · exact nomatch Option.some.inj hcells
  case h_6 n d parts t =>
    obtain ⟨⟨ht, rfl⟩, rfl⟩ := of_value?_pure_ite hcells
    obtain ⟨args, rfl⟩ := Ty.constructor?_eq_some ht
    exact .variant n d args parts
  case h_7 n d parts t =>
    obtain ⟨⟨ht, rfl⟩, rfl⟩ := of_value?_pure_ite hcells
    obtain ⟨args, rfl⟩ := Ty.constructor?_eq_some ht
    exact .fields n d args parts
  case h_8 n d parts t =>
    obtain ⟨ht, rfl⟩ := of_value?_pure_ite hcells
    obtain ⟨args, rfl⟩ := Ty.constructor?_eq_some ht
    exact .singleton n d args parts arity
  case h_9 n d elements length =>
    obtain ⟨hlength, rfl⟩ := of_value?_pure_ite hcells
    exact .exactly hlength
  case h_10 n d elements length =>
    obtain ⟨⟨hopen, hlength⟩, rfl⟩ := of_value?_pure_ite hcells
    exact .atLeast hopen hlength
  case h_11 => exact nomatch Option.some.inj hcells

theorem Specializes.length_eq {p : Pattern} {ctor : Ctor} {arity : Nat} {cells : Row}
    (hcells : C.Specializes p ctor arity cells) (hfits : ctor.Fits arity) :
    cells.length = arity := by
  cases hcells with
  | part => exact hfits.symm
  | kept => exact hfits.symm
  | literal => exact hfits.symm
  | variant n d args parts => exact List.length_map _
  | fields n d args parts => exact List.length_map _
  | singleton => exact hfits.symm
  | @exactly n d elements length _ hlength =>
      obtain rfl : arity = length := hfits
      have hle : (fixedElements elements).1.length ≤ arity := by
        split at hlength
        · exact hlength
        · exact Nat.le_of_eq hlength
      rw [padded, List.length_append, List.length_map, List.length_replicate]
      omega
  | atLeast _ hlength =>
      obtain rfl := hfits
      rw [padded, List.length_append, List.length_map, List.length_replicate]
      omega

theorem matches_of_cells {D : Declarations} {ps : List Pattern} {tail : Row}
    {fields : List Value} (h : D.RowMatches (ps.map some ++ tail) fields) :
    ∀ q ∈ ps.zip fields, D.Matches q.1 q.2 := by
  induction ps generalizing fields with
  | nil => exact fun q hq => absurd hq List.not_mem_nil
  | cons p ps ih =>
      cases h with
      | cons hhead htail =>
          intro q hq
          rcases List.mem_cons.1 hq with rfl | hq
          · exact hhead
          · exact ih htail q hq

theorem zip_take_of_length_le {α β : Type} {as : List α} {bs : List β} {n : Nat}
    (hn : as.length ≤ n) : as.zip (bs.take n) = as.zip bs := by
  calc as.zip (bs.take n) = (as.take n).zip (bs.take n) := by rw [List.take_of_length_le hn]
    _ = (as.zip bs).take n := (List.take_zipWith ..).symm
    _ = as.zip bs := List.take_of_length_le (by rw [List.length_zip]; omega)

/-- A pattern matches a value when the cells to which it is specialized match the fields
from which the value is made. -/
theorem Specializes.sound {p : Pattern} {ctor : Ctor} {arity : Nat} {cells : Row}
    {v : Value} {fields : List Value} (hcells : C.Specializes p ctor arity cells)
    (hmade : ctor.Makes v fields) (harity : arity = fields.length)
    (hfields : C.hierarchy.decls.RowMatches cells fields) :
    C.hierarchy.decls.Matches p v := by
  cases hcells with
  | part hsub =>
      cases hmade with
      | subtype t inner =>
          cases hfields with
          | cons hinner _ =>
              exact .typed (Value.mem_views_viewed inner.self_mem_views) hsub hinner
  | kept =>
      cases hmade with
      | subtype t inner =>
          cases hfields with
          | cons hinner _ => exact .of_view (Value.mem_views_viewed inner.self_mem_views) hinner
  | literal =>
      cases hmade with
      | singleton => exact .literal rfl
  | variant n d args ps =>
      cases hmade with
      | product =>
          rw [← List.append_nil (ps.map some)] at hfields
          exact .variant rfl harity (matches_of_cells hfields)
  | fields n d args ps =>
      cases hmade with
      | product =>
          rw [← List.append_nil (ps.map some)] at hfields
          exact .fields rfl harity (matches_of_cells hfields)
  | singleton =>
      cases hmade with
      | singleton => exact .singleton rfl
  | exactly hlength =>
      cases hmade with
      | exactly t elements => exact .elements rfl hlength (matches_of_cells hfields)
  | atLeast hopen hlength =>
      cases hmade with
      | @atLeast t n elements hn =>
          refine .elements rfl ?_ ?_
          · rw [if_pos hopen]
            exact Nat.le_trans hlength hn
          · rw [← zip_take_of_length_le hlength]
            exact matches_of_cells hfields

theorem rowMatches_append {D : Declarations} {cells tail : Row} {fields values : List Value}
    (hlength : cells.length = fields.length)
    (h : D.RowMatches (cells ++ tail) (fields ++ values)) :
    D.RowMatches cells fields ∧ D.RowMatches tail values := by
  have hfirst := List.forall₂_take_append _ fields values h
  have hrest := List.forall₂_drop_append _ fields values h
  rw [← hlength, List.take_left] at hfirst
  rw [← hlength, List.drop_left] at hrest
  exact ⟨hfirst, hrest⟩

/-- A specialized row comes from one that matches anything first or from one whose first
pattern is specialized. -/
theorem specializeRow_cases {ctor : Ctor} {arity : Nat} {row specialized : Row}
    (hrow : (C.specializeRow ctor arity row).value? = some (some specialized)) :
    (∃ tail, row = none :: tail ∧ specialized = List.replicate arity none ++ tail) ∨
      ∃ p tail cells, row = some p :: tail ∧ C.Specializes p ctor arity cells ∧
        specialized = cells ++ tail := by
  cases row with
  | nil => exact nomatch Option.some.inj hrow
  | cons cell tail =>
      cases cell with
      | none => exact .inl ⟨tail, rfl, (Option.some.inj (Option.some.inj hrow)).symm⟩
      | some p =>
          rw [specializeRow, Query.value?_bind_eq_some] at hrow
          obtain ⟨found, hfound, hrow⟩ := hrow
          cases found with
          | none => exact nomatch Option.some.inj hrow
          | some cells =>
              refine .inr ⟨p, tail, cells, rfl, specializes_of_value? hfound, ?_⟩
              exact (Option.some.inj (Option.some.inj hrow)).symm

theorem fits_of_fieldTypes {ty : Ty} {ctor : Ctor} {fields : List Ty}
    (hfields : (C.fieldTypes ty ctor).value? = some fields) : ctor.Fits fields.length := by
  cases ctor with
  | subtype t =>
      obtain rfl := Option.some.inj hfields
      rfl
  | product t => trivial
  | singleton t =>
      obtain rfl := Option.some.inj hfields
      rfl
  | exactly n =>
      obtain rfl := Option.some.inj hfields
      exact List.length_replicate
  | atLeast n =>
      obtain rfl := Option.some.inj hfields
      exact List.length_replicate

/-- Specializing trades the first column for the fields. -/
theorem width_specializeRow {ctor : Ctor} {arity width : Nat} {row specialized : Row}
    (hrow : (C.specializeRow ctor arity row).value? = some (some specialized))
    (hfits : ctor.Fits arity) (hwidth : row.length = width + 1) :
    specialized.length = arity + width := by
  rcases specializeRow_cases hrow with ⟨tail, rfl, rfl⟩ | ⟨p, tail, cells, rfl, hcells, rfl⟩
  · rw [List.length_append, List.length_replicate]
    rw [List.length_cons] at hwidth
    omega
  · rw [List.length_append, hcells.length_eq hfits]
    rw [List.length_cons] at hwidth
    omega

theorem Rectangular.specialize {rows specialized : List Row} {column : Column}
    {rest : List Column} {ctor : Ctor} {types : List Ty} (h : Rectangular rows (column :: rest))
    (htypes : (C.fieldTypes column.ty ctor).value? = some types)
    (hspecialized : (Query.filterMap (C.specializeRow ctor types.length) rows).value? =
      some specialized) (enclosing : List DataId) :
    Rectangular specialized (types.map (⟨·, enclosing⟩) ++ rest) := by
  intro row hrow
  obtain ⟨before, hbefore, hrow⟩ := Query.mem_of_value?_filterMap hspecialized hrow
  rw [List.length_append, List.length_map]
  exact width_specializeRow hrow (fits_of_fieldTypes htypes) (h before hbefore)

/-- What a specialized row matches is, put together, matched by the row. -/
theorem specializeRow_sound {ctor : Ctor} {arity : Nat} {row specialized : Row}
    (hrow : (C.specializeRow ctor arity row).value? = some (some specialized))
    {v : Value} {fields values : List Value} (hmade : ctor.Makes v fields)
    (harity : arity = fields.length)
    (h : C.hierarchy.decls.RowMatches specialized (fields ++ values)) :
    C.hierarchy.decls.RowMatches row (v :: values) := by
  rcases specializeRow_cases hrow with ⟨tail, rfl, rfl⟩ | ⟨p, tail, cells, rfl, hcells, rfl⟩
  · have hlength : (List.replicate arity (none : Cell)).length = fields.length := by
      rw [List.length_replicate, harity]
    exact .cons trivial (rowMatches_append hlength h).2
  · have hlength : cells.length = fields.length := by
      rw [hcells.length_eq (harity ▸ hmade.fits), harity]
    obtain ⟨hfields, htail⟩ := rowMatches_append hlength h
    exact .cons (hcells.sound hmade harity hfields) htail

theorem mem_defaultRows {rows : List Row} {tail : Row} :
    tail ∈ defaultRows rows ↔ none :: tail ∈ rows := by
  rw [defaultRows, List.mem_filterMap]
  constructor
  · rintro ⟨row, hrow, htail⟩
    split at htail
    · obtain rfl := Option.some.inj htail
      exact hrow
    · exact nomatch htail
  · intro hrow
    exact ⟨none :: tail, hrow, rfl⟩

theorem Rectangular.defaultRows {rows : List Row} {column : Column} {rest : List Column}
    (h : Rectangular rows (column :: rest)) : Rectangular (defaultRows rows) rest := by
  intro row hrow
  exact Nat.succ.inj (h (none :: row) (mem_defaultRows.1 hrow))

end Checker

end CaseCover
