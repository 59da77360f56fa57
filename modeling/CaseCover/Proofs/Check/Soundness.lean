import CaseCover.Proofs.Check.AcceptingRows
import CaseCover.Proofs.Check.Completeness

/-!
The search for gaps reports real gaps, as far as ascriptions are decisive and types have
values. No row of a matrix accepts a vector of values that one of its gaps describes
(`gapsWithin_sound`), and where all types that the columns are made of have values, each gap
describes a vector of values (`gapsWithin_describes`). Neither condition can be left out: a
union may be ascribed that covers a sealed type without being above it (`exists_unreal_gap`),
and a column is missing as a whole when no row is left for it, whether or not its type has a
value (`exists_gap_without_value`).
-/

namespace CaseCover

namespace Checker

open Search (Yields)
open Relation (ReflTransGen)

variable {C : Checker}

/-- A vector of gaps is found in the matrix for the fields of the values of the first column
that are made in one way. -/
def GapsFrom (C : Checker) (gapsOf : List Row → List Column → Search (List (List Gap)))
    (rows : List Row) (column : Column) (rest : List Column) (gaps : List Gap)
    (ctor : Ctor) : Prop :=
  ∃ types specialized inner left left',
    (C.fieldTypes column.ty ctor).value? = some types ∧
    (Query.filterMap (C.specializeRow ctor types.length) rows).value? = some specialized ∧
    (gapsOf specialized (types.map (⟨·, column.ty.constructor?.toList ++ column.enclosing⟩)
      ++ rest)).Yields left inner left' ∧
    ∃ g ∈ inner, gaps = regroup ctor column.ty types.length g

/-- Every gap that is found comes from some way of making values. -/
theorem gapsByCtor_sound
    {gapsOf : List Row → List Column → Search (List (List Gap))} {rows : List Row}
    {column : Column} {rest : List Column} {ctors : List Ctor}
    {known found : List (List Gap)} {left left' : Nat}
    (hfound : (C.gapsByCtor gapsOf rows column rest ctors known).Yields left found left')
    {gaps : List Gap} (hgaps : gaps ∈ found) :
    gaps ∈ known ∨ ∃ ctor ∈ ctors, C.GapsFrom gapsOf rows column rest gaps ctor := by
  induction ctors generalizing known left with
  | nil =>
      rcases Search.yields_pure.1 hfound with ⟨rfl, -⟩
      exact .inl hgaps
  | cons ctor ctors ih =>
      rw [gapsByCtor] at hfound
      rcases Search.yields_bind.1 hfound with ⟨types, l₁, hasked, hrows⟩
      rcases Search.yields_bind.1 hrows with ⟨specialized, l₂, hfiltered, hgapsOf⟩
      rcases Search.yields_bind.1 hgapsOf with ⟨inner, l₃, hinner, hloop⟩
      have hadded : gaps ∈ known ++ inner.map (regroup ctor column.ty types.length) →
          gaps ∈ known ∨ ∃ c ∈ ctor :: ctors, C.GapsFrom gapsOf rows column rest gaps c := by
        intro hmem
        rcases List.mem_append.1 hmem with hknown | hnew
        · exact .inl hknown
        · obtain ⟨g, hg, rfl⟩ := List.mem_map.1 hnew
          exact .inr ⟨ctor, List.mem_cons_self, types, specialized, inner, l₂, l₃,
            (Search.yields_ask.1 hasked).1, (Search.yields_ask.1 hfiltered).1, hinner,
            g, hg, rfl⟩
      by_cases hfull : C.gapLimit ≤
          (known ++ inner.map (regroup ctor column.ty types.length)).length
      · rw [if_pos hfull] at hloop
        rcases Search.yields_pure.1 hloop with ⟨rfl, -⟩
        exact hadded (List.mem_of_mem_take hgaps)
      · rw [if_neg hfull] at hloop
        rcases ih hloop with hmem | ⟨c, hc, hlater⟩
        · exact hadded hmem
        · exact .inr ⟨c, List.mem_cons_of_mem ctor hc, hlater⟩

/-- A vector of values that a row accepts is described by no gap that comes from a way of
making values of the first column, unless a row of an inner matrix accepts what an inner gap
describes. -/
theorem not_accepts_of_gapsFrom (hD : C.hierarchy.decls.ChildrenInherit)
    {gapsOf : List Row → List Column → Search (List (List Gap))} {rows : List Row}
    {column : Column} {rest : List Column} {ctors : List Ctor} {gaps : List Gap} {ctor : Ctor}
    (hsplit : (C.split column.ty (heads rows)).value? = some (some ctors))
    (hctor : ctor ∈ ctors) (hfrom : C.GapsFrom gapsOf rows column rest gaps ctor)
    (hheads : ∀ p tail, some p :: tail ∈ rows → HeadAt C.hierarchy.decls column.ty p)
    (hdecides : ∀ row ∈ rows, RowDecides C.hierarchy.decls row)
    {values : List Value} (hvalues : ∀ v ∈ values, C.hierarchy.decls.IsValue v)
    (htypes : OfColumns values (column :: rest)) (hdescribe : GapsDescribe gaps values)
    (ih : ∀ {rows : List Row} {columns : List Column} {found : List (List Gap)}
      {left left' : Nat}, (gapsOf rows columns).Yields left found left' →
      (∀ row ∈ rows, RowDecides C.hierarchy.decls row) →
      ∀ {gaps : List Gap}, gaps ∈ found → ∀ {values : List Value},
        (∀ v ∈ values, C.hierarchy.decls.IsValue v) → OfColumns values columns →
        GapsDescribe gaps values →
        ∀ row ∈ rows, ¬ C.hierarchy.decls.RowAccepts row values) :
    ∀ row ∈ rows, ¬ C.hierarchy.decls.RowAccepts row values := by
  rintro row hrow haccepts
  obtain ⟨types, specialized, inner, l, l', hfieldTypes, hspecialized, hinner, g, hg, rfl⟩ :=
    hfrom
  obtain ⟨v, fields, later, rfl, hty, hmade, hdescribed⟩ := of_describes_regroup hdescribe
  have hv := hvalues v List.mem_cons_self
  rw [← hty] at hfieldTypes
  have hfieldTy := types_of_makes hmade hv hfieldTypes
  have harity : types.length = fields.length := by
    rw [← hfieldTy, List.length_map]
  rw [harity] at hspecialized
  obtain ⟨found, hfound⟩ := Query.answered_of_value?_filterMap hspecialized row hrow
  have hhead : ∀ p tail, row = some p :: tail → HeadAt C.hierarchy.decls v.ty p := by
    rintro p tail rfl
    exact hty ▸ hheads p tail hrow
  have hshort : ∀ p tail, row = some p :: tail → ∀ n k, ctor = .atLeast n →
      fixedLength? p = some k → k < n := by
    rintro p tail rfl n k rfl hk
    exact lt_of_atLeast hsplit hctor (List.mem_filterMap.2 ⟨_, hrow, rfl⟩) hk
  obtain ⟨row', rfl, hrow'⟩ := specializeRow_complete hD hfound hhead (hdecides row hrow) hmade
    hv hshort haccepts
  have hmem := Query.mem_value?_filterMap hspecialized hrow hfound
  refine ih hinner ?_ hg ?_ ?_ hdescribed row' hmem hrow'
  · intro s hs
    obtain ⟨original, horiginal, hfrom⟩ := Query.mem_of_value?_filterMap hspecialized hs
    exact rowDecides_specializeRow hfrom (hdecides original horiginal)
  · intro u hu
    rcases List.mem_append.1 hu with hu | hu
    · exact isValue_of_makes hmade hv u hu
    · exact hvalues u (List.mem_cons_of_mem v hu)
  · exact .fields hfieldTy (List.tail_eq_of_cons_eq htypes) _

/-- No row of a matrix accepts a vector of values that one of its gaps describes. The induction
is on the nesting of matrices; what is carried inwards is that the ascriptions in the rows are
decisive. -/
theorem gapsWithin_sound (hD : C.hierarchy.decls.ChildrenInherit) {depth : Nat}
    {rows : List Row} {columns : List Column} {found : List (List Gap)} {left left' : Nat}
    (hfound : (C.gapsWithin depth rows columns).Yields left found left')
    (hdecides : ∀ row ∈ rows, RowDecides C.hierarchy.decls row) {gaps : List Gap}
    (hgaps : gaps ∈ found) {values : List Value}
    (hvalues : ∀ v ∈ values, C.hierarchy.decls.IsValue v)
    (htypes : OfColumns values columns) (hdescribe : GapsDescribe gaps values) :
    ∀ row ∈ rows, ¬ C.hierarchy.decls.RowAccepts row values := by
  induction depth generalizing rows columns found left left' gaps values with
  | zero => exact absurd hfound Search.not_yields_stop
  | succ depth ih =>
      rcases gapsStep_of_yields hfound with ⟨l, -, hstep⟩
      cases hstep with
      | matched => exact absurd hgaps List.not_mem_nil
      | unmatched => exact fun row hrow => absurd hrow List.not_mem_nil
      | @default rows normalized column rest tails _ _ hnormalized hunsplit htails =>
          rintro row hrow haccepts
          obtain ⟨v, later, rfl, hty, hlater⟩ := List.map_eq_cons_iff.1 htypes
          obtain ⟨row', hrow', haccepts'⟩ := normalize_complete hnormalized hrow haccepts
          obtain ⟨tail, htail, hrest⟩ := default_complete hnormalized hunsplit hrow'
            (hvalues v List.mem_cons_self) hty haccepts'
          obtain ⟨gaps', hgaps', rfl⟩ := List.mem_map.1 hgaps
          have htailDecides : ∀ tail ∈ defaultRows normalized,
              RowDecides C.hierarchy.decls tail := by
            intro tail htail p hp
            exact rowDecides_normalize hnormalized hdecides _ (mem_defaultRows.1 htail) p
              (List.mem_cons_of_mem _ hp)
          exact ih htails htailDecides hgaps' (fun u hu => hvalues u (List.mem_cons_of_mem v hu))
            hlater (List.forall₂_cons.1 hdescribe).2 tail htail hrest
      | @split rows normalized column rest ctors _ _ _ _ hnormalized _ hsplit _ hloop =>
          rintro row hrow haccepts
          obtain ⟨v, later, rfl, hty, hlater⟩ := List.map_eq_cons_iff.1 htypes
          obtain ⟨row', hrow', haccepts'⟩ := normalize_complete hnormalized hrow haccepts
          rcases gapsByCtor_sound hloop hgaps with hknown | ⟨ctor, hctor, hfrom⟩
          · exact absurd hknown List.not_mem_nil
          · exact not_accepts_of_gapsFrom hD hsplit hctor hfrom
              (fun p tail hp => headAt_of_normalize hnormalized hp)
              (rowDecides_normalize hnormalized hdecides) hvalues htypes hdescribe ih
              row' hrow' haccepts'

theorem length_of_gapsFrom {gapsOf : List Row → List Column → Search (List (List Gap))}
    {rows : List Row} {column : Column} {rest : List Column} {gaps : List Gap} {ctor : Ctor}
    (hfrom : C.GapsFrom gapsOf rows column rest gaps ctor)
    (ih : ∀ {rows : List Row} {columns : List Column} {found : List (List Gap)}
      {left left' : Nat}, (gapsOf rows columns).Yields left found left' →
      ∀ {gaps : List Gap}, gaps ∈ found → gaps.length = columns.length) :
    gaps.length = rest.length + 1 := by
  obtain ⟨types, specialized, inner, l, l', -, -, hinner, g, hg, rfl⟩ := hfrom
  have hlength := ih hinner hg
  rw [List.length_append, List.length_map] at hlength
  rw [regroup, List.length_cons, List.length_drop]
  omega

/-- A vector of gaps has a gap for each column. -/
theorem length_of_gapsWithin {depth : Nat} {rows : List Row} {columns : List Column}
    {found : List (List Gap)} {left left' : Nat}
    (hfound : (C.gapsWithin depth rows columns).Yields left found left') {gaps : List Gap}
    (hgaps : gaps ∈ found) : gaps.length = columns.length := by
  induction depth generalizing rows columns found left left' gaps with
  | zero => exact absurd hfound Search.not_yields_stop
  | succ depth ih =>
      rcases gapsStep_of_yields hfound with ⟨l, -, hstep⟩
      cases hstep with
      | matched => exact absurd hgaps List.not_mem_nil
      | unmatched =>
          rw [List.mem_singleton.1 hgaps, List.length_map]
      | default _ _ _ htails =>
          obtain ⟨gaps', hgaps', rfl⟩ := List.mem_map.1 hgaps
          exact congrArg (· + 1) (ih htails hgaps')
      | split _ _ _ _ _ hloop =>
          rcases gapsByCtor_sound hloop hgaps with hknown | ⟨ctor, -, hfrom⟩
          · exact absurd hknown List.not_mem_nil
          · exact length_of_gapsFrom hfrom ih

/-- Types that have values have a vector of values. -/
theorem exists_values {D : Declarations} {columns : List Column}
    (hfilled : ∀ c ∈ columns, D.Filled c.ty) :
    ∃ values, (∀ v ∈ values, D.IsValue v) ∧ OfColumns values columns := by
  induction columns with
  | nil => exact ⟨[], nofun, rfl⟩
  | cons column rest ih =>
      obtain ⟨v, hv, hty⟩ := (hfilled column List.mem_cons_self).hasValue
      obtain ⟨values, hvalues, htypes⟩ := ih fun c hc => hfilled c (List.mem_cons_of_mem _ hc)
      exact ⟨v :: values, List.forall_mem_cons.2 ⟨hv, hvalues⟩, congrArg₂ List.cons hty htypes⟩

/-- A gap that comes from a way of making values describes a vector of values if the gaps of
inner matrices do. -/
theorem describes_of_gapsFrom {gapsOf : List Row → List Column → Search (List (List Gap))}
    {rows : List Row} {column : Column} {rest : List Column} {ctors : List Ctor}
    {gaps : List Gap} {ctor : Ctor} {ps : List Pattern}
    (hsplit : (C.split column.ty ps).value? = some (some ctors)) (hctor : ctor ∈ ctors)
    (hfrom : C.GapsFrom gapsOf rows column rest gaps ctor)
    (hfilled : ∀ c ∈ column :: rest, C.hierarchy.decls.Filled c.ty)
    (ih : ∀ {rows : List Row} {columns : List Column} {found : List (List Gap)}
      {left left' : Nat}, (gapsOf rows columns).Yields left found left' →
      (∀ c ∈ columns, C.hierarchy.decls.Filled c.ty) → ∀ {gaps : List Gap}, gaps ∈ found →
      ∃ values, (∀ v ∈ values, C.hierarchy.decls.IsValue v) ∧ OfColumns values columns ∧
        GapsDescribe gaps values) :
    ∃ values, (∀ v ∈ values, C.hierarchy.decls.IsValue v) ∧
      OfColumns values (column :: rest) ∧ GapsDescribe gaps values := by
  obtain ⟨types, specialized, inner, l, l', hfieldTypes, -, hinner, g, hg, rfl⟩ := hfrom
  have hmadeBy := madeBy_of_split hsplit hctor hfieldTypes
  have hinnerFilled : ∀ c ∈ (types.map (⟨·, column.ty.constructor?.toList ++ column.enclosing⟩)
      ++ rest : List Column), C.hierarchy.decls.Filled c.ty := by
    intro c hc
    rcases List.mem_append.1 hc with hc | hc
    · obtain ⟨t, ht, rfl⟩ := List.mem_map.1 hc
      exact (hfilled column List.mem_cons_self).component (hmadeBy.components t ht)
    · exact hfilled c (List.mem_cons_of_mem _ hc)
  obtain ⟨values, hvalues, htypes, hdescribe⟩ := ih hinner hinnerFilled hg
  unfold OfColumns at htypes
  rw [List.map_append, List.map_map] at htypes
  obtain ⟨fields, later, rfl, hfields, hlater⟩ := List.map_eq_append_iff.1 htypes
  have hfieldTys : fields.map Value.ty = types := hfields.trans (List.map_id types)
  obtain ⟨v, hv, hty, hmade⟩ := hmadeBy.exists_value
    (fun f hf => hvalues f (List.mem_append_left _ hf)) hfieldTys
  have harity : types.length = fields.length := by
    rw [← hfieldTys, List.length_map]
  refine ⟨v :: later, ?_, congrArg₂ List.cons hty hlater, ?_⟩
  · exact List.forall_mem_cons.2 ⟨hv, fun u hu => hvalues u (List.mem_append_right _ hu)⟩
  · rw [harity, ← hty]
    exact describes_regroup hmade hdescribe

/-- Where the types of the columns, and of all parts of their values, have values, each gap
describes a vector of values. -/
theorem gapsWithin_describes {depth : Nat} {rows : List Row} {columns : List Column}
    {found : List (List Gap)} {left left' : Nat}
    (hfound : (C.gapsWithin depth rows columns).Yields left found left')
    (hfilled : ∀ c ∈ columns, C.hierarchy.decls.Filled c.ty) {gaps : List Gap}
    (hgaps : gaps ∈ found) :
    ∃ values, (∀ v ∈ values, C.hierarchy.decls.IsValue v) ∧ OfColumns values columns ∧
      GapsDescribe gaps values := by
  induction depth generalizing rows columns found left left' gaps with
  | zero => exact absurd hfound Search.not_yields_stop
  | succ depth ih =>
      rcases gapsStep_of_yields hfound with ⟨l, -, hstep⟩
      cases hstep with
      | matched => exact absurd hgaps List.not_mem_nil
      | unmatched =>
          obtain ⟨values, hvalues, htypes⟩ := exists_values hfilled
          rw [List.mem_singleton.1 hgaps]
          exact ⟨values, hvalues, htypes, gapsDescribe_any htypes⟩
      | default _ _ _ htails =>
          obtain ⟨gaps', hgaps', rfl⟩ := List.mem_map.1 hgaps
          obtain ⟨v, hv, hty⟩ := (hfilled _ List.mem_cons_self).hasValue
          obtain ⟨values, hvalues, htypes, hdescribe⟩ := ih htails
            (fun c hc => hfilled c (List.mem_cons_of_mem _ hc)) hgaps'
          refine ⟨v :: values, List.forall_mem_cons.2 ⟨hv, hvalues⟩,
            congrArg₂ List.cons hty htypes, ?_⟩
          rw [← hty]
          exact .cons (.any v) hdescribe
      | split _ _ _ hsplit _ hloop =>
          rcases gapsByCtor_sound hloop hgaps with hknown | ⟨ctor, hctor, hfrom⟩
          · exact absurd hknown List.not_mem_nil
          · exact describes_of_gapsFrom hsplit hctor hfrom hfilled ih

/-- No pattern accepts a value that a gap describes, and where the target is filled each gap
describes one. -/
theorem gaps_sound (hD : C.hierarchy.decls.ChildrenInherit) {target : Ty}
    {patterns : List Pattern} {found : List (List Gap)}
    (hfound : (C.gaps (patterns.map fun p => [some p]) [⟨target, []⟩]).value? =
      some (.ok found)) (hdecides : ∀ p ∈ patterns, C.hierarchy.decls.Decides p)
    {gaps : List Gap} (hgaps : gaps ∈ found) :
    ∃ gap, gaps = [gap] ∧
      (∀ v, C.hierarchy.decls.IsValue v → v.ty = target → gap.Describes v →
        ∀ p ∈ patterns, ¬ C.hierarchy.decls.Accepts p v) ∧
      (C.hierarchy.decls.Filled target →
        ∃ v, C.hierarchy.decls.IsValue v ∧ v.ty = target ∧ gap.Describes v) := by
  obtain ⟨left, hyields⟩ := gapsWithin_of_gaps hfound
  obtain ⟨gap, rfl⟩ := List.length_eq_one_iff.1 (length_of_gapsWithin hyields hgaps)
  refine ⟨gap, rfl, ?_, ?_⟩
  · intro v hv hty hdescribe p hp haccepts
    have hrows : ∀ row ∈ patterns.map fun p => ([some p] : Row),
        RowDecides C.hierarchy.decls row := by
      rintro row hrow q hq
      obtain ⟨p, hp, rfl⟩ := List.mem_map.1 hrow
      obtain rfl := Option.some.inj (List.mem_singleton.1 hq)
      exact hdecides q hp
    exact gapsWithin_sound hD hyields hrows hgaps (List.forall_mem_singleton.2 hv)
      (congrArg ([·]) hty) (.cons hdescribe .nil) [some p]
      (List.mem_map_of_mem (f := fun p => ([some p] : Row)) hp) (.cons haccepts .nil)
  · intro hfilled
    obtain ⟨values, hvalues, htypes, hdescribe⟩ :=
      gapsWithin_describes hyields (List.forall_mem_singleton.2 hfilled) hgaps
    obtain ⟨v, rest, rfl, hty, -⟩ := List.map_eq_cons_iff.1 htypes
    exact ⟨v, hvalues v List.mem_cons_self, hty, (List.forall₂_cons.1 hdescribe).1⟩

/-- What is reported as missing is missing, if all ascriptions in the patterns are decisive.
Each text shows a gap, no pattern accepts a value of the closed type that the gap describes,
and where the type, and the types of all parts of its values, have values, the gap describes
one. So some value of such a type is accepted by no pattern.

Acceptance is by structure: an extractor of a sequence accepts the sequences of its own data type
only. The search does not compare that data type, and `search_loses_no_value` speaks of what a
pattern matches, by which such an extractor matches the sequences of every data type. So an
unmatched value is never lost, while a value of another sequence that an extractor does not accept
may be missing from what is reported. -/
theorem reported_gaps_are_real (hdecls : C.hierarchy.decls.Reachable) {target : Ty}
    (hclosed : C.hierarchy.decls.isClosed target = true)
    {patterns : List (Pattern × PatternType)}
    (hdecides : ∀ p ∈ patterns, C.hierarchy.decls.Decides p.1) {texts : List String}
    {note : Option String}
    (hcheck : (C.check target patterns).value? = some (.missing texts note)) :
    (∀ text ∈ texts, ∃ gap : Gap, text = gap.render C.hierarchy.decls ∧
      (∀ v, C.hierarchy.decls.IsValue v → v.ty = target → gap.Describes v →
        ∀ p ∈ patterns, ¬ C.hierarchy.decls.Accepts p.1 v) ∧
      (C.hierarchy.decls.Filled target →
        ∃ v, C.hierarchy.decls.IsValue v ∧ v.ty = target ∧ gap.Describes v)) ∧
    (C.hierarchy.decls.Filled target →
      ∃ v, C.hierarchy.decls.IsValue v ∧ v.ty = target ∧
        ∀ p ∈ patterns, ¬ C.hierarchy.decls.Accepts p.1 v) := by
  have hD := Declarations.inherits_of_child hdecls
  have hdecidesAll : ∀ p ∈ patterns.map Prod.fst, C.hierarchy.decls.Decides p := by
    intro p hp
    obtain ⟨q, hq, rfl⟩ := List.mem_map.1 hp
    exact hdecides q hq
  unfold check at hcheck
  by_cases hcatch : (patterns.any fun p => p.2.isCatchAll) = true
  · rw [if_pos hcatch] at hcheck
    exact nomatch Option.some.inj hcheck
  rw [if_neg hcatch, if_pos hclosed] at hcheck
  obtain ⟨found, hne, hfound, rfl⟩ := gaps_of_missing hcheck
  have hsound := fun gaps (hgaps : gaps ∈ found) => gaps_sound hD hfound hdecidesAll hgaps
  constructor
  · intro text htext
    rw [List.mem_eraseDups] at htext
    obtain ⟨gaps, hgaps, rfl⟩ := List.mem_map.1 htext
    obtain ⟨gap, rfl, hunmatched, hdescribed⟩ := hsound gaps hgaps
    exact ⟨gap, rfl, fun v hv hty hdescribe p hp =>
      hunmatched v hv hty hdescribe p.1 (List.mem_map_of_mem hp), hdescribed⟩
  · intro hfilled
    obtain ⟨gaps, hgaps⟩ := List.exists_mem_of_ne_nil found hne
    obtain ⟨gap, -, hunmatched, hdescribed⟩ := hsound gaps hgaps
    obtain ⟨v, hv, hty, hdescribe⟩ := hdescribed hfilled
    exact ⟨v, hv, hty, fun p hp =>
      hunmatched v hv hty hdescribe p.1 (List.mem_map_of_mem hp)⟩

/-- The type `Some[int]`. -/
def someInt : Ty := .app ⟨1⟩ [.prim .int]

/-- The type `Option[int] | str`. -/
def optionalText : Ty := .union (.app ⟨0⟩ [.prim .int]) (.prim .str)

/-- The types of the values of `Option[int] | str` and of their parts, with their direct
subtypes. -/
def optionalTextParts : List (Ty × List Ty) :=
  [(optionalText, [.app ⟨0⟩ [.prim .int], .prim .str]),
    (.app ⟨0⟩ [.prim .int], [someInt, .app ⟨2⟩ []]), (someInt, []), (.app ⟨2⟩ [], []),
    (.prim .int, []), (.prim .str, [])]

theorem directSubtypes_optionalTextParts : ∀ q ∈ optionalTextParts,
    initialChecker.hierarchy.decls.DirectSubtypes q.1 q.2 := by
  have hcomputed : ∀ q ∈ optionalTextParts,
      (initialChecker.hierarchy.directSubtypes q.1).value? = some q.2 := by decide
  exact fun q hq => Declarations.directSubtypes_of_value? (hcomputed q hq)

/-- A value of `Some[int]`. -/
def someNumber : Value := .tuple someInt [.atom (.prim .int)]

theorem hasValue_optionalTextParts : ∀ q ∈ optionalTextParts,
    initialChecker.hierarchy.decls.HasValue q.1 := by
  have hint : initialChecker.hierarchy.decls.IsValue (.atom (.prim .int)) := .atom rfl
  have hstr : initialChecker.hierarchy.decls.IsValue (.atom (.prim .str)) := .atom rfl
  have hsome : initialChecker.hierarchy.decls.IsValue someNumber :=
    .tuple rfl rfl (List.forall_mem_singleton.2 hint)
  have hnone : initialChecker.hierarchy.decls.IsValue (.single (.app ⟨2⟩ [])) := .single rfl
  have hsubtypes := directSubtypes_optionalTextParts
  simp only [optionalTextParts, List.forall_mem_cons] at hsubtypes ⊢
  obtain ⟨htext, hoption, -⟩ := hsubtypes
  refine ⟨⟨.viewed optionalText (.atom (.prim .str)), .viewed htext ?_ hstr, rfl⟩,
    ⟨.viewed _ someNumber, .viewed hoption ?_ hsome, rfl⟩, ⟨_, hsome, rfl⟩, ⟨_, hnone, rfl⟩,
    ⟨_, hint, rfl⟩, ⟨_, hstr, rfl⟩, nofun⟩
  · decide
  · decide

theorem component_optionalTextParts {t s : Ty} (ht : t ∈ optionalTextParts.map Prod.fst)
    (hs : initialChecker.hierarchy.decls.Component t s) :
    s ∈ optionalTextParts.map Prod.fst := by
  have happ : ∀ {d : DataId} {args : List Ty}, .app d args ∈ optionalTextParts.map Prod.fst →
      (d = ⟨0⟩ ∧ args = [.prim .int]) ∨ (d = ⟨1⟩ ∧ args = [.prim .int]) ∨
        (d = ⟨2⟩ ∧ args = []) := by
    intro d args h
    simpa [optionalTextParts, optionalText, someInt] using h
  cases hs with
  | subtype hsubtypes hmem =>
      obtain ⟨q, hq, rfl⟩ := List.mem_map.1 ht
      rw [hsubtypes.unique (directSubtypes_optionalTextParts q hq)] at hmem
      have hclosed : ∀ q ∈ optionalTextParts, ∀ s ∈ q.2,
          s ∈ optionalTextParts.map Prod.fst := by decide
      exact hclosed q hq s hmem
  | field hkind hmem =>
      rcases happ ht with ⟨rfl, rfl⟩ | ⟨rfl, rfl⟩ | ⟨rfl, rfl⟩
      · exact nomatch hkind
      · rw [List.mem_singleton.1 (show s ∈ [Ty.prim .int] from hmem)]
        decide
      · exact nomatch hkind
  | element hkind =>
      rcases happ ht with ⟨rfl, rfl⟩ | ⟨rfl, rfl⟩ | ⟨rfl, rfl⟩
      all_goals exact nomatch hkind

theorem filled_optionalText : initialChecker.hierarchy.decls.Filled optionalText := by
  intro s hs
  have hmem : s ∈ optionalTextParts.map Prod.fst := by
    induction hs with
    | refl => decide
    | tail _ hstep ih => exact component_optionalTextParts ih hstep
  obtain ⟨q, hq, rfl⟩ := List.mem_map.1 hmem
  exact hasValue_optionalTextParts q hq

/-- The pattern `_: t`, with its pattern type. -/
def ascribed (t : Ty) : Pattern × PatternType :=
  (.typed default (.wildcard default) t, .ascription t)

/-- The ascription of `Some[int]` is decisive, as nothing inherits from `Some`. -/
theorem decides_someInt : initialChecker.hierarchy.decls.Decides (ascribed someInt).1 := by
  intro t ht
  have hchildless : ∀ c, ¬ initialChecker.hierarchy.decls.Inherits c ⟨1⟩ := by
    rintro c ⟨p, hp, hparent⟩
    have hall : ∀ i < 8, ∀ p ∈ (initialChecker.hierarchy.decls.get ⟨i⟩).parents,
        p.constructor? ≠ some ⟨1⟩ := by decide
    exact hall c.index (Declarations.lt_size_of_mem_parents hp) p hp hparent
  have hscoped : initialChecker.hierarchy.decls.ParentsScoped :=
    Declarations.parentsScoped_of_forall (by decide)
  have hdecisive := Declarations.decisive_of_childless
    (Declarations.inherits_of_child .initial) hscoped hchildless [.prim .int]
  cases ht with
  | here => exact hdecisive
  | typed h => exact nomatch h

/-- Beside `_: Some[int]`, the value `None` of `Option[int] | str` is missing, and so are the
values of `str`: what is reported is so. -/
theorem reported_gaps_are_real_some_int :
    (initialChecker.check optionalText [ascribed someInt]).value? =
        some (.missing ["None", "_: str"] none) ∧
      (∀ text ∈ ["None", "_: str"], ∃ (gap : Gap) (v : Value),
        text = gap.render initialChecker.hierarchy.decls ∧ gap.Describes v ∧
          initialChecker.hierarchy.decls.IsValue v ∧ v.ty = optionalText ∧
          ¬ initialChecker.hierarchy.decls.Accepts (ascribed someInt).1 v) ∧
      ∃ v, initialChecker.hierarchy.decls.IsValue v ∧ v.ty = optionalText ∧
        ¬ initialChecker.hierarchy.decls.Accepts (ascribed someInt).1 v := by
  have hcheck : (initialChecker.check optionalText [ascribed someInt]).value? =
      some (.missing ["None", "_: str"] none) := by decide
  obtain ⟨htexts, hvalue⟩ := reported_gaps_are_real (C := initialChecker) .initial rfl
    (List.forall_mem_singleton.2 decides_someInt) hcheck
  refine ⟨hcheck, fun text htext => ?_, ?_⟩
  · obtain ⟨gap, hrender, hunmatched, hdescribed⟩ := htexts text htext
    obtain ⟨v, hv, hty, hdescribe⟩ := hdescribed filled_optionalText
    exact ⟨gap, v, hrender, hdescribe, hv, hty,
      hunmatched v hv hty hdescribe _ (List.mem_singleton_self _)⟩
  · obtain ⟨v, hv, hty, hunmatched⟩ := hvalue filled_optionalText
    exact ⟨v, hv, hty, hunmatched _ (List.mem_singleton_self _)⟩

/-- The type `Some[int] | None | str`. -/
def optionalTextMembers : Ty := .union (.union someInt (.app ⟨2⟩ [])) (.prim .str)

theorem extracts_optionalTextMembers : initialChecker.hierarchy.decls.Extracts
    (ascribed optionalTextMembers).1 (ascribed optionalTextMembers).2 := by
  refine ⟨⟨initialChecker.hierarchy, 64⟩, {}, {}, [(ascribed optionalTextMembers).2], rfl, ?_,
    List.mem_singleton_self _⟩
  rw [Extractor.answer_extract]
  rfl

/-- Every value of `Option[int] | str` is a `Some[int]`, a `None` or a `str`. -/
theorem accepts_optionalTextMembers {v : Value}
    (hv : initialChecker.hierarchy.decls.IsValue v) (hty : v.ty = optionalText) :
    initialChecker.hierarchy.decls.Accepts (ascribed optionalTextMembers).1 v := by
  have hbelow : ∀ t ∈ [someInt, .app ⟨2⟩ [], .prim .str],
      initialChecker.hierarchy.decls.Below t optionalTextMembers := by
    have hcomputed : ∀ t ∈ [someInt, .app ⟨2⟩ [], .prim .str],
        (initialChecker.hierarchy.isSubtype t optionalTextMembers).value? = some true := by
      decide
    exact fun t ht => Declarations.below_of_isSubtype (hcomputed t ht)
  have hsubtypes := directSubtypes_optionalTextParts
  simp only [optionalTextParts, List.forall_mem_cons] at hsubtypes
  obtain ⟨htext, hoption, -⟩ := hsubtypes
  obtain ⟨inner, rfl, hinner, hmem⟩ := Declarations.eq_viewed hv htext (List.cons_ne_nil _ _) hty
  rcases List.mem_cons.1 hmem with hmem | hmem
  · obtain ⟨next, rfl, -, hmem⟩ :=
      Declarations.eq_viewed hinner hoption (List.cons_ne_nil _ _) hmem
    refine .typed (Value.mem_views_viewed (Value.mem_views_viewed next.self_mem_views))
      (hbelow _ ?_) (.wildcard _ next)
    exact List.mem_append_left [.prim .str] hmem
  · refine .typed (Value.mem_views_viewed inner.self_mem_views) (hbelow _ ?_)
      (.wildcard _ inner)
    exact List.mem_append_right [someInt, .app ⟨2⟩ []] hmem

/-- Gaps may be reported where there are none: `_: Some[int] | None | str` accepts all values of
`Option[int] | str`, yet `_: Option[int]` is reported as missing. -/
theorem exists_unreal_gap :
    ¬ ∀ (C : Checker) (target : Ty) (patterns : List (Pattern × PatternType)) texts note,
      C.hierarchy.decls.Reachable → C.hierarchy.decls.isClosed target = true →
      (∀ p ∈ patterns, C.hierarchy.decls.Extracts p.1 p.2) →
      (C.check target patterns).value? = some (.missing texts note) →
      ∃ v, C.hierarchy.decls.IsValue v ∧ v.ty = target ∧
        ∀ p ∈ patterns, ¬ C.hierarchy.decls.Accepts p.1 v := by
  intro hall
  have hcheck : (initialChecker.check optionalText [ascribed optionalTextMembers]).value? =
      some (.missing ["_: Option[int]"] none) := by decide
  obtain ⟨v, hv, hty, hunmatched⟩ := hall initialChecker optionalText _ _ _ .initial rfl
    (List.forall_mem_singleton.2 extracts_optionalTextMembers) hcheck
  exact hunmatched _ (List.mem_singleton_self _) (accepts_optionalTextMembers hv hty)

theorem not_isValue_never {D : Declarations} {v : Value} (hv : D.IsValue v) :
    v.ty ≠ .never := by
  rintro hty
  cases hv with
  | viewed hsubtypes hmem =>
      subst hty
      rw [hsubtypes.eq_nil nofun nofun nofun] at hmem
      exact List.not_mem_nil hmem
  | tuple | sequence => exact nomatch hty
  | single ht | atom ht =>
      subst hty
      exact nomatch ht

/-- `Some[never]` has no value, as its field would be a value of `never`. -/
theorem not_isValue_someNever {v : Value}
    (hv : initialChecker.hierarchy.decls.IsValue v) : v.ty ≠ .app ⟨1⟩ [.never] := by
  intro hty
  have hsplit : (initialChecker.split (.app ⟨1⟩ [.never]) []).value? =
      some (some [.product (.app ⟨1⟩ [.never])]) := by decide
  obtain ⟨_, hctor, fields, -, hfields, htypes⟩ := exists_ctor_of_split hsplit hv hty
  obtain rfl := List.mem_singleton.1 hctor
  obtain ⟨part, _, rfl, hpart, -⟩ := List.map_eq_cons_iff.1 (htypes [.never] rfl)
  exact not_isValue_never (hfields part List.mem_cons_self) hpart

theorem eq_single_none {v : Value} (hv : initialChecker.hierarchy.decls.IsValue v)
    (hty : v.ty = .app ⟨2⟩ []) : v = .single (.app ⟨2⟩ []) := by
  have hsplit : (initialChecker.split (.app ⟨2⟩ []) []).value? =
      some (some [.singleton (.app ⟨2⟩ [])]) := by decide
  obtain ⟨_, hctor, _, hmade, -, -⟩ := exists_ctor_of_split hsplit hv hty
  obtain rfl := List.mem_singleton.1 hctor
  cases hmade with
  | singleton => rfl

/-- Gaps may also be reported that describe no value: `Some(_)` is reported as missing beside
`None`, which is the only value of `Option[never]`. -/
theorem exists_gap_without_value :
    (initialChecker.check (.app ⟨0⟩ [.never])
        [(.variant default ⟨2⟩ [], .singleton (.app ⟨2⟩ []))]).value? =
      some (.missing ["Some(_)"] none) ∧
    ∀ v, initialChecker.hierarchy.decls.IsValue v → v.ty = .app ⟨0⟩ [.never] →
      initialChecker.hierarchy.decls.Accepts (.variant default ⟨2⟩ []) v := by
  refine ⟨by decide, fun v hv hty => ?_⟩
  have hsubtypes : initialChecker.hierarchy.decls.DirectSubtypes (.app ⟨0⟩ [.never])
      [.app ⟨1⟩ [.never], .app ⟨2⟩ []] :=
    Declarations.directSubtypes_of_value? (H := initialChecker.hierarchy) (by decide)
  obtain ⟨inner, rfl, hinner, hmem⟩ :=
    Declarations.eq_viewed hv hsubtypes (List.cons_ne_nil _ _) hty
  rcases List.mem_cons.1 hmem with hsome | hmem
  · exact absurd hsome (not_isValue_someNever hinner)
  · rw [eq_single_none hinner (List.mem_singleton.1 hmem)]
    exact .singleton rfl

end Checker

end CaseCover
