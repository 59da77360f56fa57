import CaseCover.Check.Coverage
import CaseCover.Proofs.Check.Splitting
import CaseCover.Proofs.Pattern.Irrefutable
import CaseCover.Workspace

/-!
The search for gaps loses no value. A search that is not cut short at its gap limit
leaves no vector of values that is neither matched by a row nor described by a gap
(`gapsWithin_complete`); the induction is on the nesting of matrices. It follows that a
closed type that is found to be covered is covered.
-/

namespace CaseCover

namespace Checker

open Search (Yields)

variable {C : Checker}

/-- Where the gaps of all ways of making values leave room, no gap of any way was
dropped. -/
theorem gapsByCtor_complete
    {gapsOf : List Row → List Column → Search (List (List Gap))} {rows : List Row}
    {column : Column} {rest : List Column} {ctors : List Ctor}
    {known found : List (List Gap)} {left left' : Nat}
    (hfound : (C.gapsByCtor gapsOf rows column rest ctors known).Yields left found left')
    (hroom : found.length < C.gapLimit) :
    (∀ gaps ∈ known, gaps ∈ found) ∧ ∀ ctor ∈ ctors, ∃ types specialized inner l l',
      (C.fieldTypes column.ty ctor).value? = some types ∧
      (Query.filterMap (C.specializeRow ctor types.length) rows).value? =
        some specialized ∧
      (gapsOf specialized (types.map (⟨·, column.ty.constructor?.toList ++ column.enclosing⟩)
        ++ rest)).Yields l inner l' ∧ inner.length < C.gapLimit ∧
      ∀ gaps ∈ inner, regroup ctor column.ty types.length gaps ∈ found := by
  induction ctors generalizing known left with
  | nil =>
      rcases Search.yields_pure.1 hfound with ⟨rfl, -⟩
      exact ⟨fun gaps hgaps => hgaps, fun ctor hctor => absurd hctor List.not_mem_nil⟩
  | cons ctor ctors ih =>
      rw [gapsByCtor] at hfound
      rcases Search.yields_bind.1 hfound with ⟨types, l₁, hasked, hrows⟩
      rcases Search.yields_bind.1 hrows with ⟨specialized, l₂, hfiltered, hgaps⟩
      rcases Search.yields_bind.1 hgaps with ⟨inner, l₃, hinner, hloop⟩
      have htypes := (Search.yields_ask.1 hasked).1
      have hspecialized := (Search.yields_ask.1 hfiltered).1
      by_cases hfull : C.gapLimit ≤
          (known ++ inner.map (regroup ctor column.ty types.length)).length
      · rw [if_pos hfull] at hloop
        rcases Search.yields_pure.1 hloop with ⟨rfl, -⟩
        rw [List.length_take] at hroom
        omega
      · rw [if_neg hfull] at hloop
        rcases ih hloop with ⟨hknown, hctors⟩
        rw [List.length_append, List.length_map] at hfull
        constructor
        · intro gaps hgaps
          exact hknown gaps (List.mem_append_left _ hgaps)
        · intro c hc
          rcases List.mem_cons.1 hc with rfl | hc
          · refine ⟨types, specialized, inner, _, l₃, htypes, hspecialized, hinner, ?_, ?_⟩
            · omega
            · intro gaps hgaps
              apply hknown
              exact List.mem_append_right _ (List.mem_map_of_mem hgaps)
          · exact hctors c hc

/-- The types of a vector of values are those of the columns. -/
def OfColumns (values : List Value) (columns : List Column) : Prop :=
  values.map Value.ty = columns.map Column.ty

/-- The columns for the fields of a value stand before the others. -/
theorem OfColumns.fields {fields values : List Value} {types : List Ty} {rest : List Column}
    (hfields : fields.map Value.ty = types) (h : OfColumns values rest)
    (enclosing : List DataId) :
    OfColumns (fields ++ values) (types.map (⟨·, enclosing⟩) ++ rest) := by
  unfold OfColumns at h ⊢
  rw [List.map_append, List.map_append, h, hfields, List.map_map]
  exact congrArg (· ++ _) (List.map_id types).symm

theorem gapsDescribe_any {values : List Value} {columns : List Column}
    (htypes : OfColumns values columns) :
    GapsDescribe (columns.map fun c => .any c.ty) values := by
  induction columns generalizing values with
  | nil =>
      obtain rfl : values = [] := List.map_eq_nil_iff.1 htypes
      exact .nil
  | cons column rest ih =>
      rcases List.map_eq_cons_iff.1 htypes with ⟨v, values, rfl, hv, hrest⟩
      rw [List.map_cons, ← hv]
      exact .cons (.any v) (ih hrest)

/-- A column that is split into ways of making values loses no value: the one way in
which a value is made leads to a matrix for its fields. -/
theorem splitColumn_complete
    {gapsOf : List Row → List Column → Search (List (List Gap))} {rows : List Row}
    {column : Column} {rest : List Column} {ctors : List Ctor} {heads : List Pattern}
    (hsplit : (C.split column.ty heads).value? = some (some ctors))
    {found : List (List Gap)} {left left' : Nat}
    (hfound : (C.gapsByCtor gapsOf rows column rest ctors []).Yields left found left')
    (hroom : found.length < C.gapLimit)
    (hwidth : Rectangular rows (column :: rest)) {v : Value}
    {values : List Value} (hv : C.hierarchy.decls.IsValue v)
    (hvalues : ∀ u ∈ values, C.hierarchy.decls.IsValue u) (hty : v.ty = column.ty)
    (htypes : OfColumns values rest)
    (ih : ∀ {rows : List Row} {columns : List Column} {found : List (List Gap)}
      {left left' : Nat}, (gapsOf rows columns).Yields left found left' →
      found.length < C.gapLimit → Rectangular rows columns →
      ∀ {values : List Value}, (∀ u ∈ values, C.hierarchy.decls.IsValue u) →
      OfColumns values columns →
      (∃ row ∈ rows, C.hierarchy.decls.RowMatches row values) ∨
        ∃ gaps ∈ found, GapsDescribe gaps values) :
    (∃ row ∈ rows, C.hierarchy.decls.RowMatches row (v :: values)) ∨
      ∃ gaps ∈ found, GapsDescribe gaps (v :: values) := by
  rcases exists_ctor_of_split hsplit hv hty with ⟨ctor, hctor, fields, hmade, hfields, hty'⟩
  rcases (gapsByCtor_complete hfound hroom).2 ctor hctor with
    ⟨types, specialized, inner, l, l', htypes', hspecialized, hinner, hinnerRoom, hgaps⟩
  have hfieldTypes : fields.map Value.ty = types := hty' types htypes'
  have harity : types.length = fields.length := by
    rw [← hfieldTypes, List.length_map]
  have hinnerWidth := hwidth.specialize htypes' hspecialized
    (column.ty.constructor?.toList ++ column.enclosing)
  have hinnerValues : ∀ u ∈ fields ++ values, C.hierarchy.decls.IsValue u := by
    intro u hu
    rcases List.mem_append.1 hu with hfield | hvalue
    · exact hfields u hfield
    · exact hvalues u hvalue
  have hinnerTypes : OfColumns (fields ++ values)
      (types.map (⟨·, column.ty.constructor?.toList ++ column.enclosing⟩) ++ rest) :=
    .fields hfieldTypes htypes _
  rcases ih hinner hinnerRoom hinnerWidth hinnerValues hinnerTypes with
    ⟨row, hrow, hmatch⟩ | ⟨gaps, hmem, hdescribe⟩
  · rcases Query.mem_of_value?_filterMap hspecialized hrow with ⟨original, horiginal, hrow⟩
    exact .inl ⟨original, horiginal, specializeRow_sound hrow hmade harity hmatch⟩
  · refine .inr ⟨_, hgaps gaps hmem, ?_⟩
    rw [harity, ← hty]
    exact describes_regroup hmade hdescribe

/-- Every vector of values of the columns is matched by a row or described by a gap,
unless there may be more gaps than were found. -/
theorem gapsWithin_complete {depth : Nat} {rows : List Row} {columns : List Column}
    {found : List (List Gap)} {left left' : Nat}
    (hfound : (C.gapsWithin depth rows columns).Yields left found left')
    (hroom : found.length < C.gapLimit)
    (hwidth : Rectangular rows columns) {values : List Value}
    (hvalues : ∀ v ∈ values, C.hierarchy.decls.IsValue v)
    (htypes : OfColumns values columns) :
    (∃ row ∈ rows, C.hierarchy.decls.RowMatches row values) ∨
      ∃ gaps ∈ found, GapsDescribe gaps values := by
  induction depth generalizing rows columns found left left' values with
  | zero => exact absurd hfound Search.not_yields_stop
  | succ depth ih =>
      rcases gapsStep_of_yields hfound with ⟨l, -, hstep⟩
      cases hstep with
      | @matched rows hrows =>
          obtain rfl : values = [] := List.map_eq_nil_iff.1 htypes
          rcases List.exists_mem_of_ne_nil rows hrows with ⟨row, hrow⟩
          have hnil : row = [] := List.eq_nil_of_length_eq_zero (hwidth row hrow)
          exact .inl ⟨row, hrow, hnil ▸ .nil⟩
      | unmatched => exact .inr ⟨_, List.mem_singleton_self _, gapsDescribe_any htypes⟩
      | @default rows normalized column rest tails _ _ hnormalized _ htails =>
          rcases List.map_eq_cons_iff.1 htypes with ⟨v, values, rfl, hv, hrest⟩
          have htailWidth := (hwidth.normalize hnormalized).defaultRows
          have hlater : ∀ u ∈ values, C.hierarchy.decls.IsValue u :=
            fun u hu => hvalues u (List.mem_cons_of_mem v hu)
          rw [List.length_map] at hroom
          rcases ih htails hroom htailWidth hlater hrest with
            ⟨row, hrow, hmatch⟩ | ⟨gaps, hmem, hdescribe⟩
          · exact .inl (normalize_sound hnormalized (mem_defaultRows.1 hrow) hv
              (.cons trivial hmatch))
          · refine .inr ⟨_, List.mem_map_of_mem hmem, ?_⟩
            rw [← hv]
            exact .cons (.any v) hdescribe
      | @split rows normalized column rest ctors _ _ _ _ hnormalized _ hsplit _ hloop =>
          rcases List.map_eq_cons_iff.1 htypes with ⟨v, values, rfl, hv, hrest⟩
          have hnormalizedWidth := hwidth.normalize hnormalized
          have hlater : ∀ u ∈ values, C.hierarchy.decls.IsValue u :=
            fun u hu => hvalues u (List.mem_cons_of_mem v hu)
          rcases splitColumn_complete hsplit hloop hroom hnormalizedWidth
            (hvalues v List.mem_cons_self) hlater hv hrest ih with
            ⟨row, hrow, hmatch⟩ | hdescribe
          · exact .inl (normalize_sound hnormalized hrow hv hmatch)
          · exact .inr hdescribe

/-- A search that answers has yielded its gaps, from all steps of the budget. -/
theorem gapsWithin_of_gaps {rows : List Row} {columns : List Column}
    {found : List (List Gap)}
    (hfound : (C.gaps rows columns).value? = some (.ok found)) :
    ∃ left, (C.gapsWithin C.config.stepBudget rows columns).Yields
      C.config.stepBudget found left := by
  rw [gaps, Query.value?_bind_eq_some] at hfound
  rcases hfound with ⟨outcome, houtcome, hfound⟩
  have hok : outcome.map Prod.fst = .ok found := Option.some.inj hfound
  cases outcome with
  | error limit => exact nomatch hok
  | ok result =>
      have hfst : result.1 = found := Except.ok.inj hok
      exact ⟨result.2, hfst ▸ houtcome⟩

/-- A search for the gaps of a list of patterns describes every value of the type that
none of them matches, unless there may be more gaps than were found. -/
theorem gaps_complete {target : Ty} {patterns : List Pattern} {found : List (List Gap)}
    (hfound : (C.gaps (patterns.map fun p => [some p]) [⟨target, []⟩]).value? =
      some (.ok found)) (hroom : found.length < C.gapLimit) {v : Value}
    (hv : C.hierarchy.decls.IsValue v) (hty : v.ty = target) :
    (∃ p ∈ patterns, C.hierarchy.decls.Matches p v) ∨
      ∃ gap, [gap] ∈ found ∧ gap.Describes v := by
  rcases gapsWithin_of_gaps hfound with ⟨left, hyields⟩
  have hvalues : ∀ u ∈ [v], C.hierarchy.decls.IsValue u := by
    intro u hu
    rwa [List.mem_singleton.1 hu]
  have htypes : OfColumns [v] [⟨target, []⟩] := congrArg ([·]) hty
  rcases gapsWithin_complete hyields hroom (rectangular_of_patterns patterns _) hvalues
    htypes with ⟨row, hrow, hmatch⟩ | ⟨gaps, hgaps, hdescribe⟩
  · rcases List.mem_map.1 hrow with ⟨p, hp, rfl⟩
    exact .inl ⟨p, hp, (List.forall₂_cons.1 hmatch).1⟩
  · rcases List.forall₂_cons_right_iff.1 hdescribe with ⟨gap, tail, hgap, htail, rfl⟩
    rw [List.forall₂_nil_right_iff.1 htail] at hgaps
    exact .inr ⟨gap, hgaps, hgap⟩

theorem gaps_of_covered {target : Ty} {patterns : List Pattern}
    (hcheck : (C.checkClosed target patterns).value? = some .covered) :
    (C.gaps (patterns.map fun p => [some p]) [⟨target, []⟩]).value? = some (.ok []) := by
  rcases Query.value?_bind_eq_some.1 hcheck with ⟨outcome, houtcome, hanswer⟩
  cases outcome with
  | error limit => exact nomatch Option.some.inj hanswer
  | ok found =>
      cases found with
      | nil => exact houtcome
      | cons row rows => exact nomatch Option.some.inj hanswer

theorem gaps_of_missing {target : Ty} {patterns : List Pattern} {texts : List String}
    {note : Option String}
    (hcheck : (C.checkClosed target patterns).value? = some (.missing texts note)) :
    ∃ found, found ≠ [] ∧ (C.gaps (patterns.map fun p => [some p])
        [⟨target, []⟩]).value? = some (.ok found) ∧
      texts = (found.map fun row =>
        (row.head?.map (·.render C.hierarchy.decls)).getD "_").eraseDups := by
  rcases Query.value?_bind_eq_some.1 hcheck with ⟨outcome, houtcome, hanswer⟩
  cases outcome with
  | error limit => exact nomatch Option.some.inj hanswer
  | ok found =>
      cases found with
      | nil => exact nomatch Option.some.inj hanswer
      | cons row rows =>
          injection Option.some.inj hanswer with htexts
          exact ⟨row :: rows, List.cons_ne_nil row rows, houtcome, htexts.symm⟩

/-- Every value of a closed type that the search finds to be covered is matched. -/
theorem matches_of_covered {target : Ty} {patterns : List Pattern}
    (hcheck : (C.checkClosed target patterns).value? = some .covered) {v : Value}
    (hv : C.hierarchy.decls.IsValue v) (hty : v.ty = target) :
    ∃ p ∈ patterns, C.hierarchy.decls.Matches p v := by
  have hroom : ([] : List (List Gap)).length < C.gapLimit :=
    Nat.lt_of_lt_of_le Nat.zero_lt_one (Nat.le_max_left 1 _)
  rcases gaps_complete (gaps_of_covered hcheck) hroom hv hty with hmatch | ⟨gap, hgap, -⟩
  · exact hmatch
  · exact absurd hgap List.not_mem_nil

/-- Every value of a closed type is matched or described by a gap that is shown, unless
there may be more gaps than were found. -/
theorem shown_of_missing {target : Ty} {patterns : List Pattern} {texts : List String}
    {note : Option String}
    (hcheck : (C.checkClosed target patterns).value? = some (.missing texts note)) :
    ∃ found, (C.gaps (patterns.map fun p => [some p]) [⟨target, []⟩]).value? =
        some (.ok found) ∧ found ≠ [] ∧
      (found.length < C.gapLimit →
        ∀ v, C.hierarchy.decls.IsValue v → v.ty = target →
          (∃ p ∈ patterns, C.hierarchy.decls.Matches p v) ∨
            ∃ gap, [gap] ∈ found ∧ gap.Describes v ∧
              gap.render C.hierarchy.decls ∈ texts) := by
  rcases gaps_of_missing hcheck with ⟨found, hne, hfound, rfl⟩
  refine ⟨found, hfound, hne, fun hroom v hv hty => ?_⟩
  rcases gaps_complete hfound hroom hv hty with hmatch | ⟨gap, hgap, hdescribe⟩
  · exact .inl hmatch
  · refine .inr ⟨gap, hgap, hdescribe, ?_⟩
    rw [List.mem_eraseDups]
    exact List.mem_map.2 ⟨[gap], hgap, rfl⟩

/-- A search for gaps loses no value: a vector of values that no row of the matrix matches
is described by a gap, unless the search was content with the gaps it had found. So a
closed type that is found to be covered has no value that no pattern matches, and of one
that is not, every such value is described by a gap that is shown. An unconstrained pattern
type is taken for a pattern that matches everything, which it is when it was extracted. -/
theorem search_loses_no_value (C : Checker) :
    (∀ rows columns found, (C.gaps rows columns).value? = some (.ok found) →
      found.length < C.gapLimit → (∀ row ∈ rows, row.length = columns.length) →
      ∀ values, (∀ v ∈ values, C.hierarchy.decls.IsValue v) →
        OfColumns values columns →
        (∃ row ∈ rows, C.hierarchy.decls.RowMatches row values) ∨
          ∃ gaps ∈ found, GapsDescribe gaps values) ∧
    ∀ target (patterns : List (Pattern × PatternType)),
      C.hierarchy.decls.isClosed target = true →
      (∀ p ∈ patterns, p.2.isCatchAll = true →
        C.hierarchy.decls.Extracts p.1 p.2 ∧ ¬ p.1.Ascribes .noType) →
      ((C.check target patterns).value? = some .covered →
        ∀ v, C.hierarchy.decls.IsValue v → v.ty = target →
          ∃ p ∈ patterns.map Prod.fst, C.hierarchy.decls.Matches p v) ∧
      ∀ texts note, (C.check target patterns).value? = some (.missing texts note) →
        ∃ found, (C.gaps ((patterns.map Prod.fst).map fun p => [some p])
            [⟨target, []⟩]).value? = some (.ok found) ∧ found ≠ [] ∧
          (found.length < C.gapLimit →
            ∀ v, C.hierarchy.decls.IsValue v → v.ty = target →
              (∃ p ∈ patterns.map Prod.fst, C.hierarchy.decls.Matches p v) ∨
                ∃ gap, [gap] ∈ found ∧ gap.Describes v ∧
                  gap.render C.hierarchy.decls ∈ texts) := by
  constructor
  · intro rows columns found hfound hroom hwidth values hvalues htypes
    rcases gapsWithin_of_gaps hfound with ⟨left, hyields⟩
    exact gapsWithin_complete hyields hroom hwidth hvalues htypes
  · intro target patterns hclosed hpatterns
    unfold check
    by_cases hcatch : (patterns.any fun p => p.2.isCatchAll) = true
    · rw [if_pos hcatch]
      constructor
      · intro _ v _ _
        rcases List.any_eq_true.1 hcatch with ⟨p, hp, hwhole⟩
        rcases hpatterns p hp hwhole with ⟨hextracts, hascribed⟩
        exact ⟨p.1, List.mem_map_of_mem hp,
          hextracts.matches_of_isCatchAll hascribed hwhole v⟩
      · intro texts note hcheck
        exact nomatch Option.some.inj hcheck
    · rw [if_neg hcatch, if_pos hclosed]
      exact ⟨fun hcheck v => matches_of_covered hcheck, fun texts note => shown_of_missing⟩

/-- A checker for the data types that every workspace starts with. -/
def initialChecker : Checker := ⟨Workspace.initial.decls.within 8, {}⟩

/-- The pattern `true`, with its pattern type. -/
def truth : Pattern × PatternType :=
  (.literal default (.bool true), .singleton (.lit (.bool true)))

/-- The shape of a truth value. -/
def truthValue (b : Bool) : Value := .viewed (.prim .bool) (.single (.lit (.bool b)))

theorem isValue_truthValue (b : Bool) :
    initialChecker.hierarchy.decls.IsValue (truthValue b) := by
  have hbool : initialChecker.hierarchy.decls.DirectSubtypes (.prim .bool)
      [.lit (.bool true), .lit (.bool false)] :=
    Declarations.directSubtypes_of_value? (H := initialChecker.hierarchy) rfl
  apply Declarations.IsValue.viewed hbool
  · cases b <;> decide
  · exact .single rfl

/-- The wildcard, with its pattern type. -/
def anything : Pattern × PatternType := (.wildcard default, .catchAll)

theorem extracts_anything :
    initialChecker.hierarchy.decls.Extracts anything.1 anything.2 := by
  refine ⟨⟨initialChecker.hierarchy, 64⟩, {}, {}, _, rfl, ?_, List.mem_singleton_self _⟩
  rw [Extractor.answer_extract]
  rfl

/-- The patterns `true` and `_` match every truth value, and of those that `true` alone
does not match a gap is shown. -/
theorem search_loses_no_truth_value :
    (∀ b, ∃ p ∈ [truth.1, anything.1],
      initialChecker.hierarchy.decls.Matches p (truthValue b)) ∧
    ∀ b, (∃ p ∈ [truth.1],
      initialChecker.hierarchy.decls.Matches p (truthValue b)) ∨
        ∃ gap : Gap, gap.Describes (truthValue b) ∧
          gap.render initialChecker.hierarchy.decls ∈ ["false"] := by
  have hanything : initialChecker.hierarchy.decls.Extracts anything.1 anything.2 ∧
      ¬ anything.1.Ascribes .noType := ⟨extracts_anything, nofun⟩
  have htruth : truth.2.isCatchAll = false := rfl
  constructor
  · intro b
    have hpatterns : ∀ p ∈ [truth, anything], p.2.isCatchAll = true →
        initialChecker.hierarchy.decls.Extracts p.1 p.2 ∧ ¬ p.1.Ascribes .noType := by
      simp [hanything, htruth]
    exact ((search_loses_no_value initialChecker).2 (.prim .bool) _ rfl hpatterns).1
      (by decide) (truthValue b) (isValue_truthValue b) rfl
  · intro b
    have hpatterns : ∀ p ∈ [truth], p.2.isCatchAll = true →
        initialChecker.hierarchy.decls.Extracts p.1 p.2 ∧ ¬ p.1.Ascribes .noType := by
      simp [htruth]
    have hcheck : (initialChecker.check (.prim .bool) [truth]).value? =
        some (.missing ["false"] none) := by decide
    have hgaps : (initialChecker.gaps [[some truth.1]] [⟨.prim .bool, []⟩]).value? =
        some (.ok [[.made (.subtype (.lit (.bool false))) (.prim .bool)
          [.any (.lit (.bool false))]]]) := rfl
    rcases ((search_loses_no_value initialChecker).2 (.prim .bool) _ rfl hpatterns).2
      _ _ hcheck with ⟨found, hfound, -, hcomplete⟩
    obtain rfl := Except.ok.inj (Option.some.inj (hgaps.symm.trans hfound))
    rcases hcomplete (by decide) (truthValue b) (isValue_truthValue b) rfl with
      hmatch | ⟨gap, -, hdescribe, hshown⟩
    · exact .inl hmatch
    · exact .inr ⟨gap, hdescribe, hshown⟩

end Checker

end CaseCover
