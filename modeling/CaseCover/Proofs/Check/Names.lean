import CaseCover.Proofs.Check.Simulation
import CaseCover.Proofs.Pattern.Names

/-!
Names in patterns carry no information. A search drops the names at the head of a column when it
normalizes its rows, and all that it looks at after that is the same without the names deeper
inside (`simulates_unnamed`). So patterns without their names have the same pattern types and a
check of them has the same answer (`check_without_names`).
-/

namespace CaseCover

/-- A pattern is a name for what its part matches. -/
def Pattern.isNamed : Pattern → Bool
  | .named _ _ _ => true
  | _ => false

namespace Checker

/-- The second row is the first without names. -/
def RowUnnamed (row row' : Row) : Prop := row' = row.map (Option.map Pattern.unnamed)

/-- The second cell is the first without names, which has none at its head. -/
inductive HeadUnnamed : Cell → Cell → Prop
  | none : HeadUnnamed none none
  | some {p : Pattern} (hp : p.isNamed = false) : HeadUnnamed (some p) (some p.unnamed)

/-- The second row is the first without names, which has none at the head of its first cell. -/
inductive NormalRowUnnamed : Row → Row → Prop
  | nil : NormalRowUnnamed [] []
  | cons {cell cell' : Cell} {tail tail' : Row} (hcell : HeadUnnamed cell cell')
      (htail : RowUnnamed tail tail') : NormalRowUnnamed (cell :: tail) (cell' :: tail')

theorem RowUnnamed.append {row row' tail tail' : Row} (hrow : RowUnnamed row row')
    (htail : RowUnnamed tail tail') : RowUnnamed (row ++ tail) (row' ++ tail') := by
  rw [RowUnnamed, hrow, htail, List.map_append]

theorem rowUnnamed_patterns (ps : List Pattern) :
    RowUnnamed (ps.map some) ((ps.map Pattern.unnamed).map some) := by
  rw [RowUnnamed, List.map_map, List.map_map]
  rfl

theorem rowUnnamed_free (n : Nat) :
    RowUnnamed (List.replicate n none) (List.replicate n none) := by
  rw [RowUnnamed, List.map_replicate, Option.map_none]

variable {C : Checker}

/-- A pattern amounts to the same cells without names, none of which is named at its head. -/
theorem normalizeHead_unnamed (t : Ty) (p : Pattern) :
    (C.normalizeHead t p).Alike (List.Forall₂ HeadUnnamed) (C.normalizeHead t p.unnamed) := by
  induction p with
  | wildcard _ | binding _ _ | rest _ => exact Query.alike_pure (.cons .none .nil)
  | literal n v => exact Query.alike_pure (.cons (.some rfl) .nil)
  | variant n d ps _ => exact Query.alike_pure (.cons (.some rfl) .nil)
  | extractor n d ps _ => exact Query.alike_pure (.cons (.some rfl) .nil)
  | named n x p ih =>
      rw [normalizeHead, Pattern.unnamed]
      exact ih
  | typed n p ascribed ih =>
      rw [Pattern.unnamed, normalizeHead, normalizeHead]
      refine Query.alike_bind_self _ fun below => ?_
      split
      · exact ih
      · exact Query.alike_pure (.cons (.some rfl) .nil)
  | alternation n ps ih =>
      rw [Pattern.unnamed, Pattern.unnamedAll_eq_map, normalizeHead, normalizeHead]
      apply alike_normalizeBranches
      rw [List.forall₂_map_right_iff, List.forall₂_same]
      exact ih

theorem normalize_unnamed {t : Ty} {rows rows' : List Row}
    (hrows : List.Forall₂ RowUnnamed rows rows') :
    (C.normalize t rows).Alike (List.Forall₂ NormalRowUnnamed) (C.normalize t rows') := by
  induction hrows with
  | nil => exact Query.alike_pure .nil
  | @cons row _ rows rows' hrow _ ih =>
      obtain rfl := hrow
      cases row with
      | nil => exact ih.bind fun _ _ h => Query.alike_pure (.cons .nil h)
      | cons cell tail =>
          cases cell with
          | none => exact ih.bind fun _ _ h => Query.alike_pure (.cons (.cons .none rfl) h)
          | some p =>
              refine (normalizeHead_unnamed t p).bind fun cells cells' hcells => ?_
              refine ih.bind fun later later' hlater => Query.alike_pure ?_
              apply List.rel_append _ hlater
              rw [List.forall₂_map_left_iff, List.forall₂_map_right_iff]
              exact hcells.imp fun _ _ hcell => .cons hcell rfl

/-- The fixed elements of a sequence pattern without names. -/
theorem fixedElements_unnamed (ps : List Pattern) :
    fixedElements (ps.map Pattern.unnamed) =
      ((fixedElements ps).1.map Pattern.unnamed, (fixedElements ps).2) := by
  unfold fixedElements
  rw [List.getLast?_map]
  cases ps.getLast? with
  | none => rfl
  | some last =>
      simp only [Option.map_some, Pattern.isRest_unnamed]
      split
      · rw [List.map_dropLast]
      · rfl

theorem fixedLength?_unnamed {p : Pattern} (hp : p.isNamed = false) :
    fixedLength? p = fixedLength? p.unnamed := by
  cases p with
  | extractor n d ps =>
      rw [Pattern.unnamed, Pattern.unnamedAll_eq_map, fixedLength?, fixedLength?,
        fixedElements_unnamed, List.length_map]
  | named n x p => exact absurd hp.symm Bool.false_ne_true
  | wildcard _ | binding _ _ | literal _ _ | rest _ => rfl
  | typed _ _ _ | variant _ _ _ | alternation _ _ => rfl

/-- The heads of normalized rows and those without names. -/
theorem heads_unnamed {rows rows' : List Row} (hrows : List.Forall₂ NormalRowUnnamed rows rows') :
    List.Forall₂ (fun p p' => p.isNamed = false ∧ p' = p.unnamed) (heads rows) (heads rows') := by
  apply List.rel_filterMap _ hrows
  intro row row' hrow
  cases hrow with
  | nil => exact .none
  | cons hcell _ =>
      cases hcell with
      | none => exact .none
      | some hp => exact .some ⟨hp, rfl⟩

theorem defaultRows_unnamed {rows rows' : List Row}
    (hrows : List.Forall₂ NormalRowUnnamed rows rows') :
    List.Forall₂ RowUnnamed (defaultRows rows) (defaultRows rows') := by
  apply List.rel_filterMap _ hrows
  intro row row' hrow
  cases hrow with
  | nil => exact .none
  | cons hcell htail =>
      cases hcell with
      | none => exact .some htail
      | some _ => exact .none

theorem rowUnnamed_padded (ps : List Pattern) (n : Nat) :
    RowUnnamed (padded ps n) (padded (ps.map Pattern.unnamed) n) := by
  unfold padded
  rw [List.length_map]
  exact (rowUnnamed_patterns ps).append (rowUnnamed_free _)

theorem alike_ite (c : Prop) [Decidable c] {row row' : Row} (hrow : RowUnnamed row row') :
    (pure (if c then some row else none) : Query (Option Row)).Alike (Option.Rel RowUnnamed)
      (pure (if c then some row' else none)) := by
  apply Query.alike_pure
  split
  · exact .some hrow
  · exact .none

/-- A head without names asks the same of the fields of a value, without names. -/
theorem specialize_unnamed {p : Pattern} (hp : p.isNamed = false) (ctor : Ctor) (arity : Nat) :
    (C.specialize p ctor arity).Alike (Option.Rel RowUnnamed)
      (C.specialize p.unnamed ctor arity) := by
  cases p with
  | named n x p => exact absurd hp.symm Bool.false_ne_true
  | wildcard _ | binding _ _ | rest _ | alternation _ _ =>
      cases ctor <;> exact Query.alike_pure .none
  | literal n v =>
      cases ctor with
      | subtype sub =>
          refine Query.alike_bind_self _ fun t => Query.alike_bind_self _ fun below => ?_
          split
          · exact Query.alike_pure (.some rfl)
          · exact Query.alike_pure .none
      | singleton single => exact Query.alike_bind_self _ fun t => alike_ite _ rfl
      | product _ | exactly _ | atLeast _ => exact Query.alike_pure .none
  | typed n p t =>
      cases ctor with
      | subtype sub =>
          refine Query.alike_bind_self _ fun below => ?_
          split
          · exact Query.alike_pure (.some rfl)
          refine Query.alike_bind_self _ fun overlaps => ?_
          split
          · exact Query.alike_pure (.some rfl)
          · exact Query.alike_pure .none
      | product _ | singleton _ | exactly _ | atLeast _ => exact Query.alike_pure .none
  | variant n d ps =>
      cases ctor with
      | subtype sub =>
          cases sub with
          | app e args => exact alike_ite _ rfl
          | prim _ | lit _ | param _ _ | union _ _ => exact Query.alike_pure .none
      | product t =>
          simp only [Pattern.unnamed, Pattern.unnamedAll_eq_map, specialize, List.length_map]
          exact alike_ite _ (rowUnnamed_patterns ps)
      | singleton t => exact alike_ite _ rfl
      | exactly _ | atLeast _ => exact Query.alike_pure .none
  | extractor n d ps =>
      cases ctor with
      | subtype sub =>
          cases sub with
          | app e args => exact alike_ite _ rfl
          | prim _ | lit _ | param _ _ | union _ _ => exact Query.alike_pure .none
      | product t =>
          simp only [Pattern.unnamed, Pattern.unnamedAll_eq_map, specialize, List.length_map]
          exact alike_ite _ (rowUnnamed_patterns ps)
      | singleton _ => exact Query.alike_pure .none
      | exactly m | atLeast m =>
          simp only [Pattern.unnamed, Pattern.unnamedAll_eq_map, specialize,
            fixedElements_unnamed, List.length_map]
          exact alike_ite _ (rowUnnamed_padded _ m)

theorem specializeRow_unnamed {row row' : Row} (hrow : NormalRowUnnamed row row') (ctor : Ctor)
    (arity : Nat) :
    (C.specializeRow ctor arity row).Alike (Option.Rel RowUnnamed)
      (C.specializeRow ctor arity row') := by
  cases hrow with
  | nil => exact Query.alike_pure .none
  | cons hcell htail =>
      cases hcell with
      | none => exact Query.alike_pure (.some ((rowUnnamed_free arity).append htail))
      | some hp =>
          refine (specialize_unnamed hp ctor arity).bind fun fields fields' hfields => ?_
          apply Query.alike_pure
          cases hfields with
          | none => exact .none
          | some hfields => exact .some (hfields.append htail)

theorem split_unnamed {t : Ty} {rows rows' : List Row}
    (hrows : List.Forall₂ NormalRowUnnamed rows rows') :
    C.split t (heads rows) = C.split t (heads rows') := by
  apply split_eq_of_fixedLength?
  apply filterMap_fixedLength?_eq _ (heads_unnamed hrows)
  rintro p _ ⟨hp, rfl⟩
  exact fixedLength?_unnamed hp

/-- A search cannot tell rows from those without names. -/
theorem simulates_unnamed (C : Checker) :
    C.SimulatesBy (fun _ => List.Forall₂ RowUnnamed) (fun _ => List.Forall₂ NormalRowUnnamed) where
  isEmpty := isEmpty_eq_of_forall₂
  normalize := normalize_unnamed
  heads h := isEmpty_eq_of_forall₂ (heads_unnamed h)
  split h := congrArg Query.value? (split_unnamed h)
  defaults := defaultRows_unnamed
  specialize := by
    intro t types rows rows' ctors ctor fields h _ _ _
    refine Query.alike_filterMap (fun row row' hrow => ?_) h
    exact specializeRow_unnamed hrow ctor fields.length

/-- Patterns cover a closed type as they do without their names. -/
theorem checkClosed_unnamed (target : Ty) (ps : List Pattern) :
    (C.checkClosed target (ps.map Pattern.unnamed)).value? = (C.checkClosed target ps).value? := by
  refine ((simulates_unnamed C).checkClosed_eq ?_).symm
  rw [List.map_map, List.forall₂_map_left_iff, List.forall₂_map_right_iff, List.forall₂_same]
  exact fun p _ => rfl

/-- Patterns, each with a pattern type of it, cover a type as they do without their names. -/
theorem check_unnamed (target : Ty) (patterns : List (Pattern × PatternType)) :
    (C.check target (patterns.map Extractor.withoutNames)).value? =
      (C.check target patterns).value? := by
  have htypes : (patterns.map Extractor.withoutNames).map Prod.snd = patterns.map Prod.snd := by
    rw [List.map_map]
    rfl
  have hpatterns : (patterns.map Extractor.withoutNames).map Prod.fst =
      (patterns.map Prod.fst).map Pattern.unnamed := by
    rw [List.map_map, List.map_map]
    rfl
  have hcatch : ((patterns.map Extractor.withoutNames).any fun q => q.2.isCatchAll) =
      patterns.any fun q => q.2.isCatchAll := by
    rw [List.any_map]
    rfl
  unfold check
  rw [hcatch, htypes, hpatterns]
  simp only [Query.value?_ite, checkClosed_unnamed]

/-- Names in patterns carry no information. A pattern without its names has the same pattern
types as with them, and has them exactly when it does; so have the alternatives that a case puts
up. And a check of patterns comes to the same without their names, counterexamples, remarks and
limits included. -/
theorem check_without_names (C : Checker) (E : Extractor) :
    (∀ p fields types later,
      (E.extract p.unnamed).answer fields = some (.ok types, later) ↔
        (E.extract p).answer fields = some (.ok types, later)) ∧
    (∀ p fields pairs later,
      (E.extractAlternatives p.unnamed).answer fields = some (.ok pairs, later) ↔
        ∃ named, (E.extractAlternatives p).answer fields = some (.ok named, later) ∧
          pairs = named.map Extractor.withoutNames) ∧
    ∀ target patterns,
      (C.check target (patterns.map Extractor.withoutNames)).value? =
        (C.check target patterns).value? := by
  refine ⟨fun p fields types later => ⟨fun h => ?_, fun h => ?_⟩,
    fun p fields pairs later => ⟨fun h => ?_, ?_⟩, check_unnamed⟩
  · obtain ⟨_, hnamed, rfl⟩ := (E.extract_unnamed p).exists_left h
    exact hnamed
  · obtain ⟨_, hunnamed, rfl⟩ := (E.extract_unnamed p).exists_right h
    exact hunnamed
  · exact (E.extractAlternatives_unnamed p).exists_left h
  · rintro ⟨named, h, rfl⟩
    obtain ⟨_, h, rfl⟩ := (E.extractAlternatives_unnamed p).exists_right h
    exact h

end Checker

end CaseCover
