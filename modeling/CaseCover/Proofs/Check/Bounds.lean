import CaseCover.Proofs.Check.Limits
import CaseCover.Proofs.Check.Soundness

/-!
The shape of matrices. A matrix in which each row has a cell for each column asks only for the
gaps of such matrices (`GapsCall.rectangular`), so every matrix that a search reaches is of this
shape, and the gaps that are found have a part for each column. Rows and vectors of gaps can
therefore be taken apart without looking at their lengths first: a search that fails where one of
them is too short never fails, and finds what the search finds (`staysInBounds_gapsWithin`).
-/

namespace CaseCover

namespace Search

variable {α β : Type}

/-- Fail unless a condition holds. -/
def require (c : Prop) [Decidable c] : OptionT Search Unit := if c then pure () else failure

/-- What a search that may fail comes to when it does not. -/
def inside : Except SearchLimit (α × Nat) → Except SearchLimit (Option α × Nat) :=
  Except.map fun found => (some found.1, found.2)

/-- A search that may fail comes to what another search comes to, so it never fails. -/
def StaysInBounds (m : OptionT Search α) (m' : Search α) : Prop :=
  ∀ left, m.run.outcome left = (m'.outcome left).map inside

theorem staysInBounds_pure (a : α) : StaysInBounds (pure a) (pure a) :=
  fun _ => rfl

theorem staysInBounds_lift (m : Search α) : StaysInBounds (OptionT.lift m) m := by
  intro left
  have hrun : (OptionT.lift m).run = m >>= fun a => pure (some a) := rfl
  rw [hrun, outcome_bind]
  cases m.outcome left with
  | none => rfl
  | some found => cases found <;> rfl

theorem StaysInBounds.bind {m : OptionT Search α} {m' : Search α} {f : α → OptionT Search β}
    {g : α → Search β} (hm : StaysInBounds m m')
    (hfg : ∀ left a left', m'.Yields left a left' → StaysInBounds (f a) (g a)) :
    StaysInBounds (m >>= f) (m' >>= g) := by
  intro left
  rw [OptionT.run_bind, Option.elimM, outcome_bind, outcome_bind, hm left]
  cases hfound : m'.outcome left with
  | none => rfl
  | some found =>
      cases found with
      | error limit => rfl
      | ok result => exact hfg left result.1 result.2 hfound result.2

theorem staysInBounds_ask_bind {q : Query α} {f : α → OptionT Search β} {g : α → Search β}
    (hfg : ∀ a, q.value? = some a → StaysInBounds (f a) (g a)) :
    StaysInBounds (OptionT.lift (ask q) >>= f) (ask q >>= g) :=
  (staysInBounds_lift (ask q)).bind fun _ a _ ha => hfg a (yields_ask.1 ha).1

theorem StaysInBounds.require_bind {c : Prop} [Decidable c] (hc : c)
    {f : Unit → OptionT Search α} {m' : Search α} (hf : StaysInBounds (f ()) m') :
    StaysInBounds (require c >>= f) m' := by
  intro left
  rw [require, if_pos hc, OptionT.run_bind, Option.elimM, outcome_bind]
  exact hf left

end Search

namespace Checker

open Search (StaysInBounds staysInBounds_pure staysInBounds_lift staysInBounds_ask_bind)

instance (rows : List Row) (columns : List Column) : Decidable (Rectangular rows columns) :=
  inferInstanceAs (Decidable (∀ row ∈ rows, row.length = columns.length))

/-- The search through the ways of making values (`gapsByCtor`), which fails where a vector of gaps
ends before those for the fields do. -/
def gapsByCtor? (C : Checker)
    (gapsOf? : List Row → List Column → OptionT Search (List (List Gap)))
    (rows : List Row) (column : Column) (rest : List Column) :
    List Ctor → List (List Gap) → OptionT Search (List (List Gap))
  | [], known => return known
  | ctor :: ctors, known => do
    let fields ← OptionT.lift (Search.ask (C.fieldTypes column.ty ctor))
    let specialized ← OptionT.lift
      (Search.ask (Query.filterMap (C.specializeRow ctor fields.length) rows))
    let enclosing := column.ty.constructor?.toList ++ column.enclosing
    let found ← gapsOf? specialized (fields.map (⟨·, enclosing⟩) ++ rest)
    Search.require (∀ gaps ∈ found, fields.length ≤ gaps.length)
    let known := known ++ found.map (regroup ctor column.ty fields.length)
    if C.gapLimit ≤ known.length then return known.take C.gapLimit
    else gapsByCtor? C gapsOf? rows column rest ctors known

/-- The search for gaps (`gapsWithin`), which fails at a matrix that is not rectangular, and where a
row has no first cell: before rows are normalized, and before they are read again to split the
column and to go on without their first cells. -/
def gapsWithin? (C : Checker) :
    (depth : Nat) → List Row → List Column → OptionT Search (List (List Gap))
  | 0, _, _ => OptionT.lift (Search.stop .stepBudget)
  | depth + 1, rows, columns => do
    OptionT.lift Search.step
    Search.require (Rectangular rows columns)
    match columns with
    | [] => return if rows.isEmpty then [[]] else []
    | column :: rest =>
      if rows.isEmpty then return [columns.map fun c => .any c.ty]
      else
        Search.require (∀ row ∈ rows, 0 < row.length)
        let rows ← OptionT.lift (Search.ask (C.normalize column.ty rows))
        Search.require (∀ row ∈ rows, 0 < row.length)
        let ctors? : Option (List Ctor) ←
          if (heads rows).isEmpty then pure none
          else OptionT.lift (Search.ask (C.split column.ty (heads rows)))
        match ctors? with
        | none =>
          let tails ← gapsWithin? C depth (defaultRows rows) rest
          return tails.map (.any column.ty :: ·)
        | some ctors =>
          OptionT.lift (C.checkDepth column)
          gapsByCtor? C (gapsWithin? C depth) rows column rest ctors []

/-- The gaps of a matrix or the limit at which the search stopped; no gaps where it failed. -/
def gaps? (C : Checker) (rows : List Row) (columns : List Column) :
    Query (Except SearchLimit (Option (List (List Gap)))) := do
  let budget := C.config.stepBudget
  let found : Except SearchLimit (Option (List (List Gap)) × Nat) ←
    ((C.gapsWithin? budget rows columns).run.run budget).run
  return found.map Prod.fst

variable {C : Checker} {rows : List Row} {columns : List Column}

/-- The matrices for whose gaps a matrix asks: the one without its first column, where that is not
split, and one for each way in which the values of its first column are made. A search may ask for
fewer, as it has limits. -/
inductive GapsCall (C : Checker) : List Row → List Column → List Row → List Column → Prop
  | default {rows normalized : List Row} {column : Column} {rest : List Column}
      (hrows : rows ≠ [])
      (hnormalized : (C.normalize column.ty rows).value? = some normalized)
      (hunsplit : heads normalized = [] ∨
        (C.split column.ty (heads normalized)).value? = some none) :
      C.GapsCall rows (column :: rest) (defaultRows normalized) rest
  | fields {rows normalized specialized : List Row} {column : Column} {rest : List Column}
      {ctors : List Ctor} {ctor : Ctor} {types : List Ty} (hrows : rows ≠ [])
      (hnormalized : (C.normalize column.ty rows).value? = some normalized)
      (hheads : heads normalized ≠ [])
      (hsplit : (C.split column.ty (heads normalized)).value? = some (some ctors))
      (hctor : ctor ∈ ctors) (htypes : (C.fieldTypes column.ty ctor).value? = some types)
      (hspecialized : (Query.filterMap (C.specializeRow ctor types.length) normalized).value? =
        some specialized) :
      C.GapsCall rows (column :: rest) specialized
        (types.map (⟨·, column.ty.constructor?.toList ++ column.enclosing⟩) ++ rest)

/-- A rectangular matrix asks for the gaps of rectangular matrices. -/
theorem GapsCall.rectangular {rows' : List Row} {columns' : List Column}
    (hcall : C.GapsCall rows columns rows' columns') (h : Rectangular rows columns) :
    Rectangular rows' columns' := by
  cases hcall with
  | default _ hnormalized _ => exact (h.normalize hnormalized).defaultRows
  | fields _ hnormalized _ _ _ htypes hspecialized =>
      exact (h.normalize hnormalized).specialize htypes hspecialized _

/-- The matrices for whose gaps a check of a closed type asks, from the one that has a row for each
pattern and the type as its only column. -/
inductive Reached (C : Checker) (target : Ty) (patterns : List Pattern) :
    List Row → List Column → Prop
  | start : C.Reached target patterns (patterns.map fun p => [some p]) [⟨target, []⟩]
  | call {rows rows' : List Row} {columns columns' : List Column}
      (hreached : C.Reached target patterns rows columns)
      (hcall : C.GapsCall rows columns rows' columns') : C.Reached target patterns rows' columns'

/-- Every matrix that a check reaches is rectangular. -/
theorem Reached.rectangular {target : Ty} {patterns : List Pattern}
    (hreached : C.Reached target patterns rows columns) : Rectangular rows columns := by
  induction hreached with
  | start => exact rectangular_of_patterns patterns _
  | call _ hcall ih => exact hcall.rectangular ih

/-- The rows of a matrix with a column have a first cell. -/
theorem Rectangular.length_pos {column : Column} {rest : List Column}
    (h : Rectangular rows (column :: rest)) : ∀ row ∈ rows, 0 < row.length := by
  intro row hrow
  rw [h row hrow]
  exact Nat.succ_pos rest.length

/-- Going through the ways of making values never fails when the searches for the gaps of the
fields do not, as their gaps have a part for each column. -/
theorem staysInBounds_gapsByCtor
    {gapsOf? : List Row → List Column → OptionT Search (List (List Gap))}
    {gapsOf : List Row → List Column → Search (List (List Gap))}
    (hlength : ∀ {rows columns left found left'}, (gapsOf rows columns).Yields left found left' →
      ∀ gaps ∈ found, gaps.length = columns.length)
    {column : Column} {rest : List Column} {ctors : List Ctor}
    (hgapsOf : ∀ ctor ∈ ctors, ∀ types, (C.fieldTypes column.ty ctor).value? = some types →
      ∀ specialized, (Query.filterMap (C.specializeRow ctor types.length) rows).value? =
        some specialized →
      StaysInBounds
        (gapsOf? specialized
          (types.map (⟨·, column.ty.constructor?.toList ++ column.enclosing⟩) ++ rest))
        (gapsOf specialized
          (types.map (⟨·, column.ty.constructor?.toList ++ column.enclosing⟩) ++ rest)))
    (known : List (List Gap)) :
    StaysInBounds (C.gapsByCtor? gapsOf? rows column rest ctors known)
      (C.gapsByCtor gapsOf rows column rest ctors known) := by
  induction ctors generalizing known with
  | nil => exact staysInBounds_pure known
  | cons ctor ctors ih =>
      rw [gapsByCtor?, gapsByCtor]
      refine staysInBounds_ask_bind fun types htypes => ?_
      refine staysInBounds_ask_bind fun specialized hspecialized => ?_
      have hinner := hgapsOf ctor List.mem_cons_self types htypes specialized hspecialized
      -- Only vectors that were found are divided, so their lengths come from what was yielded.
      refine hinner.bind fun left found left' hfound => ?_
      have hlong : ∀ gaps ∈ found, types.length ≤ gaps.length := by
        intro gaps hgaps
        rw [hlength hfound gaps hgaps, List.length_append, List.length_map]
        exact Nat.le_add_right ..
      refine StaysInBounds.require_bind hlong ?_
      dsimp only
      split
      · exact staysInBounds_pure _
      · exact ih (fun c hc => hgapsOf c (List.mem_cons_of_mem ctor hc)) _

/-- The search of a rectangular matrix never fails when those of the matrices do not for whose gaps
it asks. -/
theorem staysInBounds_of_calls {depth : Nat} (h : Rectangular rows columns)
    (hcalls : ∀ rows' columns', C.GapsCall rows columns rows' columns' →
      StaysInBounds (C.gapsWithin? depth rows' columns') (C.gapsWithin depth rows' columns')) :
    StaysInBounds (C.gapsWithin? (depth + 1) rows columns)
      (C.gapsWithin (depth + 1) rows columns) := by
  unfold gapsWithin? gapsWithin
  refine (staysInBounds_lift Search.step).bind fun _ _ _ _ => ?_
  refine StaysInBounds.require_bind h ?_
  cases columns with
  | nil => exact staysInBounds_pure _
  | cons column rest =>
      dsimp only
      split
      · exact staysInBounds_pure _
      rename_i hsome
      have hrows : rows ≠ [] := fun hnil => hsome (List.isEmpty_iff.2 hnil)
      refine StaysInBounds.require_bind h.length_pos ?_
      refine staysInBounds_ask_bind fun normalized hnormalized => ?_
      refine StaysInBounds.require_bind (h.normalize hnormalized).length_pos ?_
      -- From here on the search asks for the gaps of other matrices, each of them by a `GapsCall`.
      have hdefault (hunsplit : heads normalized = [] ∨
          (C.split column.ty (heads normalized)).value? = some none) :=
        (hcalls _ _ (.default hrows hnormalized hunsplit)).bind fun _ tails _ _ =>
          staysInBounds_pure (tails.map (.any column.ty :: ·))
      split
      · rename_i hheads
        refine (staysInBounds_pure none).bind fun _ ctors? _ hctors => ?_
        obtain ⟨rfl, -⟩ := Search.yields_pure.1 hctors
        exact hdefault (.inl (List.isEmpty_iff.1 hheads))
      · rename_i hheads
        refine staysInBounds_ask_bind fun ctors? hsplit => ?_
        cases ctors? with
        | none => exact hdefault (.inr hsplit)
        | some ctors =>
            refine (staysInBounds_lift (C.checkDepth column)).bind fun _ _ _ _ => ?_
            have hne : heads normalized ≠ [] := fun hnil => hheads (List.isEmpty_iff.2 hnil)
            apply staysInBounds_gapsByCtor fun hfound _ => length_of_gapsWithin hfound
            intro ctor hctor types htypes specialized hspecialized
            exact hcalls _ _ (.fields hrows hnormalized hne hsplit hctor htypes hspecialized)

/-- The search of a rectangular matrix never fails. The induction is on the nesting of matrices. -/
theorem staysInBounds_gapsWithin (depth : Nat) (h : Rectangular rows columns) :
    StaysInBounds (C.gapsWithin? depth rows columns) (C.gapsWithin depth rows columns) := by
  induction depth generalizing rows columns with
  | zero => exact staysInBounds_lift _
  | succ depth ih =>
      exact staysInBounds_of_calls h fun rows' columns' hcall => ih (hcall.rectangular h)

theorem gaps?_eq (h : Rectangular rows columns) :
    (C.gaps? rows columns).value? = (C.gaps rows columns).value?.map (Except.map some) := by
  have hvalue : (C.gaps? rows columns).value? =
      ((C.gapsWithin? C.config.stepBudget rows columns).run.outcome C.config.stepBudget).map
        (Except.map Prod.fst) := Query.value?_map _ _
  rw [hvalue, value?_gaps, staysInBounds_gapsWithin C.config.stepBudget h, Option.map_map,
    Option.map_map]
  congr 1
  funext found
  cases found <;> rfl

/-- Matrices stay rectangular. In every matrix that a check of a closed type reaches, each row has
a cell for each column, and each vector of gaps that is found has a gap for each column; the cells
to which a pattern is specialized are as many as the fields. So no row and no vector is ever too
short: the search that fails where one is finds what the search finds. -/
theorem matrices_are_rectangular (C : Checker) (target : Ty) (patterns : List Pattern) :
    (∀ rows columns, C.Reached target patterns rows columns →
      (∀ row ∈ rows, row.length = columns.length) ∧
        ∀ depth left found left', (C.gapsWithin depth rows columns).Yields left found left' →
          ∀ gaps ∈ found, gaps.length = columns.length) ∧
    (∀ t ctor types, (C.fieldTypes t ctor).value? = some types →
      ∀ p cells, (C.specialize p ctor types.length).value? = some (some cells) →
        cells.length = types.length) ∧
    (C.gaps? (patterns.map fun p => [some p]) [⟨target, []⟩]).value? =
      (C.gaps (patterns.map fun p => [some p]) [⟨target, []⟩]).value?.map (Except.map some) := by
  refine ⟨fun rows columns hreached => ⟨hreached.rectangular, ?_⟩, ?_, ?_⟩
  · intro depth left found left' hfound gaps hgaps
    exact length_of_gapsWithin hfound hgaps
  · intro t ctor types htypes p cells hcells
    exact (specializes_of_value? hcells).length_eq (fits_of_fieldTypes htypes)
  · exact gaps?_eq (rectangular_of_patterns patterns _)

/-- The pattern `List(true, _*)`. -/
def startsWithTrue : Pattern := .extractor default ⟨7⟩ [truth.1, .rest default]

/-- The rows and columns for the elements of lists of at least two truth values. -/
def longerLists : List Row × List Column :=
  ([[some truth.1, none]], [⟨.prim .bool, [⟨7⟩]⟩, ⟨.prim .bool, [⟨7⟩]⟩])

/-- The gap where `false` is missing. -/
def missingFalse : Gap :=
  .made (.subtype (.lit (.bool false))) (.prim .bool) [.any (.lit (.bool false))]

theorem reached_longerLists :
    initialChecker.Reached (.app ⟨7⟩ [.prim .bool]) [startsWithTrue] longerLists.1
      longerLists.2 := by
  have hnormalized : (initialChecker.normalize (.app ⟨7⟩ [.prim .bool])
      [[some startsWithTrue]]).value? = some [[some startsWithTrue]] := rfl
  have hheads : heads [[some startsWithTrue]] ≠ [] := List.cons_ne_nil startsWithTrue []
  have hsplit : (initialChecker.split (.app ⟨7⟩ [.prim .bool]) [startsWithTrue]).value? =
      some (some [.exactly 0, .exactly 1, .atLeast 2]) := rfl
  have hctor : Ctor.atLeast 2 ∈ [Ctor.exactly 0, .exactly 1, .atLeast 2] := by decide
  exact .call .start (.fields (List.cons_ne_nil _ _) hnormalized hheads hsplit hctor rfl rfl)

/-- For the pattern `List(true, _*)` the matrix of longer lists has two cells in its row and two
gaps in what it finds, the pattern is specialized to two cells, and nothing is too short. -/
theorem matrices_are_rectangular_list :
    (∀ row ∈ longerLists.1, row.length = 2) ∧
      (∀ gaps ∈ [[missingFalse, .any (.prim .bool)]], gaps.length = 2) ∧
      ([some truth.1, none] : Row).length = 2 ∧
      (initialChecker.gaps? [[some startsWithTrue]] [⟨.app ⟨7⟩ [.prim .bool], []⟩]).value? =
        some (.ok (some [[.made (.exactly 0) (.app ⟨7⟩ [.prim .bool]) []],
          [.made (.exactly 1) (.app ⟨7⟩ [.prim .bool]) [missingFalse]],
          [.made (.atLeast 2) (.app ⟨7⟩ [.prim .bool])
            [missingFalse, .any (.prim .bool)]]])) := by
  obtain ⟨hreached, hspecialize, hgaps⟩ :=
    matrices_are_rectangular initialChecker (.app ⟨7⟩ [.prim .bool]) [startsWithTrue]
  obtain ⟨hrows, hfound⟩ := hreached _ _ reached_longerLists
  have hyields : (initialChecker.gapsWithin 8 longerLists.1 longerLists.2).Yields 8
      [[missingFalse, .any (.prim .bool)]] 3 := rfl
  have htypes : (initialChecker.fieldTypes (.app ⟨7⟩ [.prim .bool]) (.atLeast 2)).value? =
      some [.prim .bool, .prim .bool] := rfl
  have hcells : (initialChecker.specialize startsWithTrue (.atLeast 2) 2).value? =
      some (some [some truth.1, none]) := rfl
  have hvalue : (initialChecker.gaps [[some startsWithTrue]]
        [⟨.app ⟨7⟩ [.prim .bool], []⟩]).value? =
      some (.ok [[.made (.exactly 0) (.app ⟨7⟩ [.prim .bool]) []],
        [.made (.exactly 1) (.app ⟨7⟩ [.prim .bool]) [missingFalse]],
        [.made (.atLeast 2) (.app ⟨7⟩ [.prim .bool]) [missingFalse, .any (.prim .bool)]]]) := rfl
  refine ⟨hrows, hfound _ _ _ _ hyields, hspecialize _ _ _ htypes _ _ hcells, ?_⟩
  exact hgaps.trans (congrArg (Option.map (Except.map some)) hvalue)

end Checker

end CaseCover
