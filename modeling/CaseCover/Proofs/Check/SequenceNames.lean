import CaseCover.Proofs.Check.Completeness
import CaseCover.Proofs.Check.Simulation
import CaseCover.Proofs.Decl.Reachable

/-!
Which data types the extractors of a sequence name. The search for gaps looks at the
elements of an extractor and, at a sequence, not at the data type that it names; so
extractors of a foreign data type cover a sequence as if they named it
(`check_eq_of_sameElements`), also where the sequence is an element of another or a field of
a product. Only where a sealed parent of sequences is split into its children are
data types compared. Extractors do not cover a sequence as long as some list of elements fits
none of them.
-/

namespace CaseCover

/-- Two patterns for a value of a type that differ in the data types named by extractors of
sequences only. The extractors stand at the top or in elements of sequences and fields of products,
also under names, alternations and ascriptions. -/
inductive Pattern.SameElements (D : Declarations) : Ty → Pattern → Pattern → Prop
  | refl (t : Ty) (p : Pattern) : SameElements D t p p
  | named {t : Ty} (n n' : PatternNode) (x : String) {p p' : Pattern}
      (h : SameElements D t p p') : SameElements D t (.named n x p) (.named n' x p')
  | alternation {t : Ty} (n n' : PatternNode) {ps ps' : List Pattern}
      (hlength : ps.length = ps'.length)
      (hparts : ∀ (i : Nat) p p', ps[i]? = some p → ps'[i]? = some p' → SameElements D t p p') :
      SameElements D t (.alternation n ps) (.alternation n' ps')
  | typed {d : DataId} {args : List Ty}
      (hd : (D.get d).isSequence = true ∨ (D.get d).isProduct = true) (n n' : PatternNode) (s : Ty)
      {p p' : Pattern} (h : SameElements D (.app d args) p p') :
      SameElements D (.app d args) (.typed n p s) (.typed n' p' s)
  | elements {s : DataId} (hs : (D.get s).isSequence = true) (args : List Ty)
      (n n' : PatternNode) (d d' : DataId) {ps ps' : List Pattern}
      (hlength : ps.length = ps'.length)
      (hparts : ∀ (i : Nat) p p', ps[i]? = some p → ps'[i]? = some p' →
        SameElements D (args.headD .any) p p') :
      SameElements D (.app s args) (.extractor n d ps) (.extractor n' d' ps')
  | fields {q : DataId} (hq : (D.get q).isProduct = true) (args : List Ty)
      (n n' : PatternNode) (d : DataId) {ps ps' : List Pattern}
      (hlength : ps.length = ps'.length)
      (hparts : ∀ (i : Nat) p p', ps[i]? = some p → ps'[i]? = some p' →
        SameElements D (((D.fieldsOf (.app q args)).value.map Field.ty)[i]?.getD .any) p p') :
      SameElements D (.app q args) (.variant n d ps) (.variant n' d ps')
  | extractedFields {q : DataId} (hq : (D.get q).isProduct = true) (args : List Ty)
      (n n' : PatternNode) (d : DataId) {ps ps' : List Pattern}
      (hlength : ps.length = ps'.length)
      (hparts : ∀ (i : Nat) p p', ps[i]? = some p → ps'[i]? = some p' →
        SameElements D (((D.fieldsOf (.app q args)).value.map Field.ty)[i]?.getD .any) p p') :
      SameElements D (.app q args) (.extractor n d ps) (.extractor n' d ps')

theorem Pattern.SameElements.isRest_eq {D : Declarations} {t : Ty} {p p' : Pattern}
    (h : SameElements D t p p') : p.isRest = p'.isRest := by
  induction h with
  | named _ _ _ _ ih => exact ih
  | refl | alternation | typed | elements | fields | extractedFields => rfl

theorem getElem?_of_dropLast {α : Type} {as : List α} {i : Nat} {a : α}
    (h : as.dropLast[i]? = some a) : as[i]? = some a := by
  rw [List.getElem?_dropLast] at h
  split at h
  · exact h
  · cases h

namespace Checker

open Pattern (SameElements)

variable {C : Checker}

/-- Rows for values of some types whose cells differ in the names of extractors only. -/
inductive RowAlike (D : Declarations) : List Ty → Row → Row → Prop
  | nil : RowAlike D [] [] []
  | cons {t : Ty} {types : List Ty} {cell cell' : Cell} {row row' : Row}
      (hcell : Option.Rel (SameElements D t) cell cell') (hrow : RowAlike D types row row') :
      RowAlike D (t :: types) (cell :: row) (cell' :: row')

theorem sameElements_cell {D : Declarations} (t : Ty) (cell : Cell) :
    Option.Rel (SameElements D t) cell cell := by
  cases cell with
  | none => exact .none
  | some p => exact .some (.refl t p)

theorem RowAlike.refl {D : Declarations} {types : List Ty} {row : Row}
    (hlength : row.length = types.length) : RowAlike D types row row := by
  induction types generalizing row with
  | nil =>
      obtain rfl := List.eq_nil_of_length_eq_zero hlength
      exact .nil
  | cons t types ih =>
      obtain ⟨cell, row, rfl⟩ := List.exists_cons_of_length_eq_add_one hlength
      exact .cons (sameElements_cell t cell) (ih (Nat.succ.inj hlength))

theorem RowAlike.append {D : Declarations} {types types' : List Ty} {row row' tail tail' : Row}
    (hrow : RowAlike D types row row') (htail : RowAlike D types' tail tail') :
    RowAlike D (types ++ types') (row ++ tail) (row' ++ tail') := by
  induction hrow with
  | nil => exact htail
  | cons hcell _ ih => exact .cons hcell ih

theorem rowAlike_parts {D : Declarations} {types : List Ty} {ps ps' : List Pattern}
    (hlength : ps.length = types.length) (hlength' : ps'.length = types.length)
    (hparts : ∀ (i : Nat) t p p', types[i]? = some t → ps[i]? = some p → ps'[i]? = some p' →
      SameElements D t p p') : RowAlike D types (ps.map some) (ps'.map some) := by
  induction types generalizing ps ps' with
  | nil =>
      obtain rfl := List.eq_nil_of_length_eq_zero hlength
      obtain rfl := List.eq_nil_of_length_eq_zero hlength'
      exact .nil
  | cons t types ih =>
      obtain ⟨p, ps, rfl⟩ := List.exists_cons_of_length_eq_add_one hlength
      obtain ⟨p', ps', rfl⟩ := List.exists_cons_of_length_eq_add_one hlength'
      refine .cons (.some (hparts 0 t p p' rfl rfl rfl)) ?_
      apply ih (Nat.succ.inj hlength) (Nat.succ.inj hlength')
      intro i u q q' hu hq hq'
      exact hparts (i + 1) u q q' hu hq hq'

/-- Cells for elements that differ in names only, filled up to a length. -/
theorem rowAlike_padded {D : Declarations} {t : Ty} {ps ps' : List Pattern}
    (hlength : ps.length = ps'.length)
    (hparts : ∀ (i : Nat) p p', ps[i]? = some p → ps'[i]? = some p' → SameElements D t p p')
    {n : Nat} (hn : ps.length ≤ n) :
    RowAlike D (List.replicate n t) (padded ps n) (padded ps' n) := by
  have hsplit : List.replicate n t =
      List.replicate ps.length t ++ List.replicate (n - ps.length) t := by
    rw [List.replicate_append_replicate, Nat.add_sub_cancel' hn]
  rw [hsplit, padded, padded, hlength]
  refine .append (rowAlike_parts (by simp [hlength]) (by simp) fun i u p p' hu => ?_)
    (.refl (by simp))
  obtain ⟨-, rfl⟩ := List.mem_replicate.1 (List.mem_of_getElem? hu)
  exact hparts i p p'

/-- Of parts that are related one by one the fixed elements are, and a rest follows after both or
after none. -/
theorem fixedElements_related {R : Nat → Pattern → Pattern → Prop} {ps ps' : List Pattern}
    (hrests : ∀ {i p p'}, R i p p' → p.isRest = p'.isRest) (hlength : ps.length = ps'.length)
    (hparts : ∀ (i : Nat) p p', ps[i]? = some p → ps'[i]? = some p' → R i p p') :
    (fixedElements ps).2 = (fixedElements ps').2 ∧
      (fixedElements ps).1.length = (fixedElements ps').1.length ∧
      ∀ (i : Nat) p p', (fixedElements ps).1[i]? = some p → (fixedElements ps').1[i]? = some p' →
        R i p p' := by
  unfold fixedElements
  rw [List.getLast?_eq_getElem?, List.getLast?_eq_getElem?, ← hlength]
  cases hlast : ps[ps.length - 1]? with
  | none =>
      have hlast' : ps'[ps.length - 1]? = none := by
        rw [List.getElem?_eq_none_iff] at hlast ⊢
        rwa [← hlength]
      rw [hlast']
      exact ⟨rfl, hlength, hparts⟩
  | some last =>
      obtain ⟨hlt, -⟩ := List.getElem?_eq_some_iff.1 hlast
      have hlt' : ps.length - 1 < ps'.length := hlength ▸ hlt
      have hlast' : ps'[ps.length - 1]? = some ps'[ps.length - 1] :=
        List.getElem?_eq_getElem hlt'
      rw [hlast']
      have hrest := hrests (hparts _ _ _ hlast hlast')
      dsimp only
      rw [← hrest]
      split
      · refine ⟨rfl, by simp [hlength], fun i p p' hp hp' => ?_⟩
        exact hparts i p p' (getElem?_of_dropLast hp) (getElem?_of_dropLast hp')
      · exact ⟨rfl, hlength, hparts⟩

theorem alike_normalizeHead {t : Ty} {p p' : Pattern}
    (hp : SameElements C.hierarchy.decls t p p') :
    (C.normalizeHead t p).Alike
      (List.Forall₂ (Option.Rel (SameElements C.hierarchy.decls t))) (C.normalizeHead t p') := by
  induction hp with
  | refl t =>
      apply Query.alike_of_value?_eq rfl
      intro cells _
      exact List.forall₂_same.2 fun cell _ => sameElements_cell t cell
  | named n n' x _ ih => exact ih
  | alternation n n' hlength _ ih =>
      apply alike_normalizeBranches
      rw [List.forall₂_iff_get]
      refine ⟨hlength, fun i h h' => ih i _ _ ?_ ?_⟩
      · exact List.getElem?_eq_getElem h
      · exact List.getElem?_eq_getElem h'
  | typed hd n n' s h ih =>
      refine Query.alike_bind_self _ fun below => ?_
      split
      · exact ih
      · exact Query.alike_pure (.cons (.some (.typed hd n n' s h)) .nil)
  | elements hs args n n' d d' hlength hparts =>
      exact .some (.cons (.some (.elements hs args n n' d d' hlength hparts)) .nil)
  | fields hq args n n' d hlength hparts =>
      exact .some (.cons (.some (.fields hq args n n' d hlength hparts)) .nil)
  | extractedFields hq args n n' d hlength hparts =>
      exact .some (.cons (.some (.extractedFields hq args n n' d hlength hparts)) .nil)

/-- Matrices whose rows differ in the names of extractors only. -/
abbrev RowsAlike (D : Declarations) (types : List Ty) : List Row → List Row → Prop :=
  List.Forall₂ (RowAlike D types)

theorem alike_normalize {t : Ty} {types : List Ty} {rows rows' : List Row}
    (hrows : RowsAlike C.hierarchy.decls (t :: types) rows rows') :
    (C.normalize t rows).Alike (RowsAlike C.hierarchy.decls (t :: types))
      (C.normalize t rows') := by
  induction hrows with
  | nil => exact Query.alike_pure .nil
  | cons hrow _ ih =>
      cases hrow with
      | cons hcell htail =>
          cases hcell with
          | none => exact ih.bind fun _ _ h => Query.alike_pure (.cons (.cons .none htail) h)
          | some hp =>
              refine (alike_normalizeHead hp).bind fun cells cells' hcells => ?_
              refine ih.bind fun later later' hlater => Query.alike_pure ?_
              apply List.rel_append _ hlater
              rw [List.forall₂_map_left_iff, List.forall₂_map_right_iff]
              exact hcells.imp fun _ _ hcell => .cons hcell htail

theorem heads_alike {D : Declarations} {t : Ty} {types : List Ty} {rows rows' : List Row}
    (hrows : RowsAlike D (t :: types) rows rows') :
    List.Forall₂ (SameElements D t) (heads rows) (heads rows') := by
  apply List.rel_filterMap _ hrows
  intro row row' hrow
  cases hrow with
  | cons hcell _ => exact hcell

theorem defaultRows_alike {D : Declarations} {t : Ty} {types : List Ty}
    {rows rows' : List Row} (hrows : RowsAlike D (t :: types) rows rows') :
    RowsAlike D types (defaultRows rows) (defaultRows rows') := by
  apply List.rel_filterMap _ hrows
  intro row row' hrow
  cases hrow with
  | cons hcell htail =>
      cases hcell with
      | none => exact .some htail
      | some _ => exact .none

theorem fixedLength?_eq {D : Declarations} {t : Ty} {p p' : Pattern}
    (hp : SameElements D t p p') : fixedLength? p = fixedLength? p' := by
  cases hp with
  | refl => rfl
  | elements hs args n n' d d' hlength hparts =>
      rw [fixedLength?, fixedLength?,
        (fixedElements_related (·.isRest_eq) hlength hparts).2.1]
  | extractedFields hq args n n' d hlength hparts =>
      rw [fixedLength?, fixedLength?,
        (fixedElements_related (·.isRest_eq) hlength hparts).2.1]
  | named | alternation | typed | fields => rfl

theorem split_alike {t : Ty} {types : List Ty} {rows rows' : List Row}
    (hrows : RowsAlike C.hierarchy.decls (t :: types) rows rows') :
    C.split t (heads rows) = C.split t (heads rows') :=
  split_eq_of_fixedLength? (filterMap_fixedLength?_eq fixedLength?_eq (heads_alike hrows))

theorem ctor_of_sequence {s : DataId} {args : List Ty} {ps : List Pattern}
    {ctors : List Ctor} {ctor : Ctor} (hs : (C.hierarchy.decls.get s).isSequence = true)
    (hsplit : (C.split (.app s args) ps).value? = some (some ctors)) (hctor : ctor ∈ ctors) :
    ∃ n, ctor = .exactly n ∨ ctor = .atLeast n := by
  have hkind : (C.hierarchy.decls.get s).kind = .sequence := eq_of_beq hs
  obtain ⟨-, subtypes, hsubtypes, hleaf, -⟩ := split_cases hsplit
  have hempty := subtypes_eq_nil_of_kind hsubtypes (by simp [DataType.isSealed, hkind])
  have hctors : sequenceCtors ps = ctors := by
    have hsome := hleaf hempty
    rw [leafCtors, hkind] at hsome
    exact Option.some.inj hsome
  rw [← hctors, sequenceCtors] at hctor
  split at hctor
  · exact ⟨0, .inr (List.mem_singleton.1 hctor)⟩
  · rename_i longest _
    rcases List.mem_append.1 hctor with hexact | hopen
    · obtain ⟨n, -, rfl⟩ := List.mem_map.1 hexact
      exact ⟨n, .inl rfl⟩
    · exact ⟨longest + 1, .inr (List.mem_singleton.1 hopen)⟩

theorem ctor_of_product {q : DataId} {args : List Ty} {ps : List Pattern}
    {ctors : List Ctor} {ctor : Ctor} (hq : (C.hierarchy.decls.get q).isProduct = true)
    (hsplit : (C.split (.app q args) ps).value? = some (some ctors)) (hctor : ctor ∈ ctors) :
    ctor = .product (.app q args) := by
  obtain ⟨fields, hkind⟩ := kind_of_isProduct hq
  obtain ⟨-, subtypes, hsubtypes, hleaf, -⟩ := split_cases hsplit
  have hempty := subtypes_eq_nil_of_kind hsubtypes (by simp [DataType.isSealed, hkind])
  have hsome := hleaf hempty
  rw [leafCtors, hkind] at hsome
  obtain rfl := Option.some.inj hsome
  exact List.mem_singleton.1 hctor

theorem alike_specialize_self (p : Pattern) {t : Ty} {ctor : Ctor} {fields : List Ty}
    (hfields : (C.fieldTypes t ctor).value? = some fields) :
    (C.specialize p ctor fields.length).Alike
      (Option.Rel (RowAlike C.hierarchy.decls fields)) (C.specialize p ctor fields.length) := by
  apply Query.alike_of_value?_eq rfl
  intro found hfound
  cases found with
  | none => exact .none
  | some cells =>
      have hlength := (specializes_of_value? hfound).length_eq (fits_of_fieldTypes hfields)
      exact .some (.refl hlength)

theorem specialize_exactly (n : PatternNode) (d : DataId) (ps : List Pattern) (m arity : Nat) :
    C.specialize (.extractor n d ps) (.exactly m) arity =
      pure (if (if (fixedElements ps).2 = true then (fixedElements ps).1.length ≤ m
          else (fixedElements ps).1.length = m)
        then some (padded (fixedElements ps).1 m) else none) := rfl

theorem specialize_atLeast (n : PatternNode) (d : DataId) (ps : List Pattern) (m arity : Nat) :
    C.specialize (.extractor n d ps) (.atLeast m) arity =
      pure (if (fixedElements ps).2 = true ∧ (fixedElements ps).1.length ≤ m
        then some (padded (fixedElements ps).1 m) else none) := rfl

/-- Cells for the parts of a product, where there is one for each of its fields. -/
theorem rowAlike_fields {D : Declarations} {types : List Ty} {ps ps' : List Pattern} {c : Prop}
    [Decidable c] (hlength : ps.length = ps'.length)
    (hparts : ∀ (i : Nat) p p', ps[i]? = some p → ps'[i]? = some p' →
      SameElements D (types[i]?.getD .any) p p') :
    Option.Rel (RowAlike D types)
      (if c ∧ ps.length = types.length then some (ps.map some) else none)
      (if c ∧ ps'.length = types.length then some (ps'.map some) else none) := by
  rw [← hlength]
  split
  · rename_i hfits
    refine .some (rowAlike_parts hfits.2 (hlength ▸ hfits.2) fun i t p p' ht hp hp' => ?_)
    have hpart := hparts i p p' hp hp'
    rwa [ht] at hpart
  · exact .none

/-- Patterns that differ in the names of extractors only are specialized alike. At a
sequence the data type of an extractor is not looked at. -/
theorem alike_specialize {t : Ty} {p p' : Pattern} {ps : List Pattern} {ctors : List Ctor}
    {ctor : Ctor} {fields : List Ty} (hp : SameElements C.hierarchy.decls t p p')
    (hsplit : (C.split t ps).value? = some (some ctors)) (hctor : ctor ∈ ctors)
    (hfields : (C.fieldTypes t ctor).value? = some fields) :
    (C.specialize p ctor fields.length).Alike
      (Option.Rel (RowAlike C.hierarchy.decls fields)) (C.specialize p' ctor fields.length) := by
  cases hp with
  | refl => exact alike_specialize_self p hfields
  | @elements s hs args n n' d d' parts parts' hlength hparts =>
      obtain ⟨hopen, hfixed, hsame⟩ := fixedElements_related (·.isRest_eq) hlength hparts
      obtain ⟨m, rfl | rfl⟩ := ctor_of_sequence hs hsplit hctor
      · obtain rfl := Option.some.inj hfields
        rw [specialize_exactly, specialize_exactly, ← hopen, ← hfixed]
        apply Query.alike_pure
        by_cases hfits : if (fixedElements parts).2 = true
          then (fixedElements parts).1.length ≤ m else (fixedElements parts).1.length = m
        · rw [if_pos hfits, if_pos hfits]
          refine .some (rowAlike_padded hfixed hsame ?_)
          split at hfits
          · exact hfits
          · exact Nat.le_of_eq hfits
        · rw [if_neg hfits, if_neg hfits]
          exact .none
      · obtain rfl := Option.some.inj hfields
        rw [specialize_atLeast, specialize_atLeast, ← hopen, ← hfixed]
        apply Query.alike_pure
        split
        · rename_i hfits
          exact .some (rowAlike_padded hfixed hsame hfits.2)
        · exact .none
  | named | alternation => cases ctor <;> exact Query.alike_pure .none
  | typed hd =>
      -- An ascription stands only before the ways of making a value of a type with subtypes.
      rcases hd with hs | hq
      · obtain ⟨m, rfl | rfl⟩ := ctor_of_sequence hs hsplit hctor
        · exact Query.alike_pure .none
        · exact Query.alike_pure .none
      · obtain rfl := ctor_of_product hq hsplit hctor
        exact Query.alike_pure .none
  | fields hq args n n' d hlength hparts =>
      obtain rfl := ctor_of_product hq hsplit hctor
      obtain rfl := Option.some.inj hfields
      apply Query.alike_pure
      exact rowAlike_fields hlength hparts
  | extractedFields hq args n n' d hlength hparts =>
      obtain rfl := ctor_of_product hq hsplit hctor
      obtain rfl := Option.some.inj hfields
      apply Query.alike_pure
      exact rowAlike_fields hlength hparts

theorem alike_specializeRow {t : Ty} {types : List Ty} {row row' : Row} {ps : List Pattern}
    {ctors : List Ctor} {ctor : Ctor} {fields : List Ty}
    (hrow : RowAlike C.hierarchy.decls (t :: types) row row')
    (hsplit : (C.split t ps).value? = some (some ctors)) (hctor : ctor ∈ ctors)
    (hfields : (C.fieldTypes t ctor).value? = some fields) :
    (C.specializeRow ctor fields.length row).Alike
      (Option.Rel (RowAlike C.hierarchy.decls (fields ++ types)))
      (C.specializeRow ctor fields.length row') := by
  cases hrow with
  | cons hcell htail =>
      cases hcell with
      | none =>
          have hfree : RowAlike C.hierarchy.decls fields (List.replicate fields.length none)
              (List.replicate fields.length none) := .refl List.length_replicate
          exact Query.alike_pure (.some (hfree.append htail))
      | some hp =>
          refine (alike_specialize hp hsplit hctor hfields).bind fun cells cells' hcells => ?_
          apply Query.alike_pure
          cases hcells with
          | none => exact .none
          | some hcells => exact .some (hcells.append htail)

/-- A search does not look at which sequence data types extractors name. -/
theorem simulates_rowsAlike (C : Checker) : C.Simulates (RowsAlike C.hierarchy.decls) where
  isEmpty := by
    intro types rows rows' hrows
    exact isEmpty_eq_of_forall₂ hrows
  normalize := alike_normalize
  heads := by
    intro t types rows rows' hrows
    exact isEmpty_eq_of_forall₂ (heads_alike hrows)
  split := fun hrows => congrArg Query.value? (split_alike hrows)
  defaults := defaultRows_alike
  specialize := fun hrows hsplit hctor hfields =>
    Query.alike_filterMap
      (fun _ _ hrow => alike_specializeRow hrow hsplit hctor hfields) hrows

/-- Patterns that differ in the names of extractors only cover a closed type alike. -/
theorem checkClosed_eq_of_sameElements {target : Ty} {ps ps' : List Pattern}
    (hps : List.Forall₂ (SameElements C.hierarchy.decls target) ps ps') :
    (C.checkClosed target ps).value? = (C.checkClosed target ps').value? := by
  apply (simulates_rowsAlike C).checkClosed_eq
  unfold RowsAlike
  rw [List.forall₂_map_left_iff, List.forall₂_map_right_iff]
  exact hps.imp fun _ _ hp => .cons (.some hp) .nil

/-- Patterns that differ in the names of extractors only, and agree in which pattern types are
unconstrained, cover a closed type alike. -/
theorem check_eq_of_sameElements {target : Ty} {ps ps' : List (Pattern × PatternType)}
    (hclosed : C.hierarchy.decls.isClosed target = true)
    (hps : List.Forall₂ (fun p p' => SameElements C.hierarchy.decls target p.1 p'.1 ∧
      p.2.isCatchAll = p'.2.isCatchAll) ps ps') :
    (C.check target ps).value? = (C.check target ps').value? := by
  have hcatch : (ps.any fun p => p.2.isCatchAll) = ps'.any fun p => p.2.isCatchAll := by
    induction hps with
    | nil => rfl
    | cons hp _ ih => rw [List.any_cons, List.any_cons, hp.2, ih]
  have hsearch : (C.checkClosed target (ps.map Prod.fst)).value? =
      (C.checkClosed target (ps'.map Prod.fst)).value? := by
    apply checkClosed_eq_of_sameElements
    rw [List.forall₂_map_left_iff, List.forall₂_map_right_iff]
    exact hps.imp fun _ _ hp => hp.1
  unfold check
  simp only [hcatch, if_pos hclosed, Query.value?_ite, hsearch]

/-- A check without unconstrained pattern types is a search. -/
theorem check_eq_checkClosed {target : Ty} {ps : List (Pattern × PatternType)}
    (hclosed : C.hierarchy.decls.isClosed target = true)
    (hps : ∀ p ∈ ps, p.2.isCatchAll = false) :
    C.check target ps = C.checkClosed target (ps.map Prod.fst) := by
  have hnone : (ps.any fun p => p.2.isCatchAll) = false := by
    rw [List.any_eq_false]
    intro p hp
    rw [hps p hp]
    exact Bool.false_ne_true
  rw [check, hnone, if_neg Bool.false_ne_true, if_pos hclosed]

end Checker

/-- A list of values fits a pattern for the elements of a sequence, by its length and
element by element. -/
def Pattern.FitsElements (D : Declarations) (p : Pattern) (elements : List Value) : Prop :=
  ∃ n d ps, p = .extractor n d ps ∧
    (if (Checker.fixedElements ps).2 = true
      then (Checker.fixedElements ps).1.length ≤ elements.length
      else (Checker.fixedElements ps).1.length = elements.length) ∧
    ∀ q ∈ (Checker.fixedElements ps).1.zip elements, D.Matches q.1 q.2

namespace Declarations

theorem Matches.fitsElements {D : Declarations} {n : PatternNode} {d : DataId} {t : Ty}
    {ps : List Pattern} {elements : List Value}
    (h : D.Matches (.extractor n d ps) (.sequence t elements)) :
    (Pattern.extractor n d ps).FitsElements D elements := by
  cases h with
  | elements hcore hlength helements =>
      obtain ⟨-, rfl⟩ := Value.sequence.inj hcore
      exact ⟨n, d, ps, rfl, hlength, helements⟩
  | fields hcore => exact nomatch hcore

end Declarations

namespace Checker

open Pattern (SameElements)

variable {C : Checker}

theorem isClosed_of_isSequence {D : Declarations} {s : DataId} (args : List Ty)
    (hs : (D.get s).isSequence = true) : D.isClosed (.app s args) = true := by
  have hkind : (D.get s).kind = .sequence := eq_of_beq hs
  simp [Declarations.isClosed, hkind]

theorem isClosed_of_isProduct {D : Declarations} {q : DataId} (args : List Ty)
    (hq : (D.get q).isProduct = true) : D.isClosed (.app q args) = true := by
  obtain ⟨fields, hkind⟩ := kind_of_isProduct hq
  simp [Declarations.isClosed, hkind]

/-- Extractors do not cover a sequence as long as a list of elements fits none of them. -/
theorem not_covered_of_elements {s : DataId} {args : List Ty}
    (hs : (C.hierarchy.decls.get s).isSequence = true) {ps : List (Pattern × PatternType)}
    (hps : ∀ p ∈ ps, (∃ n d parts, p.1 = .extractor n d parts) ∧
      C.hierarchy.decls.Extracts p.1 p.2) {elements : List Value}
    (helements : ∀ v ∈ elements, C.hierarchy.decls.IsValue v ∧ v.ty = args.headD .any)
    (hfits : ∀ p ∈ ps, ¬ p.1.FitsElements C.hierarchy.decls elements) :
    (C.check (.app s args) ps).value? ≠ some .covered := by
  intro hcovered
  have hconstrained : ∀ p ∈ ps, p.2.isCatchAll = false := by
    intro p hp
    obtain ⟨⟨n, d, parts, hshape⟩, hextracts⟩ := hps p hp
    exact Bool.not_eq_true _ ▸ (hextracts.constrained (.inr hshape)).not_isCatchAll
  rw [check_eq_checkClosed (isClosed_of_isSequence args hs) hconstrained] at hcovered
  have hvalue : C.hierarchy.decls.IsValue (.sequence (.app s args) elements) :=
    .sequence hs (fun v hv => (helements v hv).2) fun v hv => (helements v hv).1
  obtain ⟨p, hp, hmatch⟩ := matches_of_covered hcovered hvalue rfl
  obtain ⟨r, hr, rfl⟩ := List.mem_map.1 hp
  obtain ⟨⟨n, d, parts, hshape⟩, -⟩ := hps r hr
  rw [hshape] at hmatch
  exact hfits r hr (hshape ▸ hmatch.fitsElements)

/-- Deconstructions of a product with an extractor for a field do not cover the product as
long as a value of it has elements in the field that fit none of the extractors. -/
theorem not_covered_of_field {q : DataId} {args : List Ty}
    (hq : (C.hierarchy.decls.get q).isProduct = true) {i : Nat}
    {ps : List (Pattern × PatternType)}
    (hps : ∀ p ∈ ps, (∃ n parts, p.1 = .variant n q parts ∧
        ∃ n' d ps', parts[i]? = some (.extractor n' d ps')) ∧
      C.hierarchy.decls.Extracts p.1 p.2) {parts elements : List Value} {t : Ty}
    (hvalue : C.hierarchy.decls.IsValue (.tuple (.app q args) parts))
    (hfield : parts[i]? = some (.sequence t elements))
    (hfits : ∀ p ∈ ps, ∀ e ∈ p.1.parts[i]?, ¬ e.FitsElements C.hierarchy.decls elements) :
    (C.check (.app q args) ps).value? ≠ some .covered := by
  intro hcovered
  have hconstrained : ∀ p ∈ ps, p.2.isCatchAll = false := by
    intro p hp
    obtain ⟨⟨n, parts, hshape, -⟩, hextracts⟩ := hps p hp
    exact Bool.not_eq_true _ ▸ (hextracts.constrained (.inl hshape)).not_isCatchAll
  rw [check_eq_checkClosed (isClosed_of_isProduct args hq) hconstrained] at hcovered
  obtain ⟨p, hp, hmatch⟩ := matches_of_covered hcovered hvalue rfl
  obtain ⟨r, hr, rfl⟩ := List.mem_map.1 hp
  obtain ⟨⟨n, ps', hshape, n', d, es, he⟩, -⟩ := hps r hr
  rw [hshape] at hmatch
  cases hmatch with
  | variant hcore hlength hparts =>
      obtain ⟨-, rfl⟩ := Value.tuple.inj hcore
      have hzip : (Pattern.extractor n' d es, Value.sequence t elements) ∈ ps'.zip parts := by
        apply List.mem_of_getElem? (i := i)
        rw [List.getElem?_zip_eq_some]
        exact ⟨he, hfield⟩
      apply hfits r hr (.extractor n' d es) _ (hparts _ hzip).fitsElements
      rw [hshape]
      exact he
  | singleton hcore => exact nomatch hcore

/-- Which data types extractors name does not change what a check answers where they stand at
sequences: at the target itself, and through elements of sequences and fields of products at
any depth, under names, alternations and ascriptions too. (Where a parent of a sequence is split
into its children the data type does count.) Extractors are never found to cover a sequence of
which some list of elements fits none of them, and likewise at a field of a product. -/
theorem coverage_of_foreign_extractors (C : Checker) :
    (∀ target (ps ps' : List (Pattern × PatternType)),
      C.hierarchy.decls.isClosed target = true →
      List.Forall₂ (fun p p' => SameElements C.hierarchy.decls target p.1 p'.1 ∧
        p.2.isCatchAll = p'.2.isCatchAll) ps ps' →
      (C.check target ps).value? = (C.check target ps').value?) ∧
    (∀ s args (ps : List (Pattern × PatternType)) elements,
      (C.hierarchy.decls.get s).isSequence = true →
      (∀ p ∈ ps, (∃ n d parts, p.1 = .extractor n d parts) ∧
        C.hierarchy.decls.Extracts p.1 p.2) →
      (∀ v ∈ elements, C.hierarchy.decls.IsValue v ∧ v.ty = args.headD .any) →
      (∀ p ∈ ps, ¬ p.1.FitsElements C.hierarchy.decls elements) →
      (C.check (.app s args) ps).value? ≠ some .covered) ∧
    ∀ q args (i : Nat) (ps : List (Pattern × PatternType)) parts t elements,
      (C.hierarchy.decls.get q).isProduct = true →
      (∀ p ∈ ps, (∃ n parts, p.1 = .variant n q parts ∧
          ∃ n' d ps', parts[i]? = some (.extractor n' d ps')) ∧
        C.hierarchy.decls.Extracts p.1 p.2) →
      C.hierarchy.decls.IsValue (.tuple (.app q args) parts) →
      parts[i]? = some (.sequence t elements) →
      (∀ p ∈ ps, ∀ e ∈ p.1.parts[i]?, ¬ e.FitsElements C.hierarchy.decls elements) →
      (C.check (.app q args) ps).value? ≠ some .covered := by
  refine ⟨fun target ps ps' hclosed hsame => check_eq_of_sameElements hclosed hsame, ?_, ?_⟩
  · intro s args ps elements hs hps helements hfits
    exact not_covered_of_elements hs hps helements hfits
  · intro q args i ps parts t elements hq hps hvalue hfield hfits
    exact not_covered_of_field hq hps hvalue hfield hfits

/-- A checker for the initial data types and a second type of sequences, `Vec`. -/
def twoSequences : Checker :=
  ⟨(Workspace.initial.decls.declare "Vec" [⟨"A", .covariant⟩] .sequence).2.within 8, {}⟩

/-- The pattern `Vec(_*)`, with its pattern type. -/
def allOfVec : Pattern × PatternType :=
  (.extractor default ⟨8⟩ [.rest default], .singleton (.app ⟨8⟩ [.noType]))

theorem extracts_allOfVec :
    twoSequences.hierarchy.decls.Extracts allOfVec.1 allOfVec.2 := by
  refine ⟨⟨twoSequences.hierarchy, 64⟩, {}, {}, [allOfVec.2], rfl, ?_, List.mem_singleton_self _⟩
  rw [Extractor.answer_extract]
  rfl

/-- Extractors of another data type may be found to cover a sequence: `Vec(_*)` is found to
cover `List[int]`. -/
theorem exists_covering_foreign_extractor :
    ¬ ∀ (C : Checker) (s : DataId) (t : Ty) (ps : List (Pattern × PatternType)),
      C.hierarchy.decls.Reachable → (C.hierarchy.decls.get s).isSequence = true →
      (∀ p ∈ ps, (∃ n d parts, p.1 = .extractor n d parts ∧ d ≠ s) ∧
        C.hierarchy.decls.Extracts p.1 p.2) →
      (C.check (.app s [t]) ps).value? ≠ some .covered := by
  intro hall
  have hreachable : twoSequences.hierarchy.decls.Reachable := .declare .initial "Vec" (.sequence _)
  have hps : ∀ p ∈ [allOfVec], (∃ n d parts, p.1 = .extractor n d parts ∧ d ≠ ⟨7⟩) ∧
      twoSequences.hierarchy.decls.Extracts p.1 p.2 := by
    intro p hp
    rw [List.mem_singleton.1 hp]
    exact ⟨⟨_, _, _, rfl, by decide⟩, extracts_allOfVec⟩
  exact hall twoSequences ⟨7⟩ (.prim .int) [allOfVec] hreachable rfl hps (by decide)

/-- The pattern `List(_*)`, with its pattern type. -/
def allOfList : Pattern × PatternType :=
  (.extractor default ⟨7⟩ [.rest default], .singleton (.app ⟨7⟩ [.noType]))

/-- The pattern `Vec()`, with its pattern type. -/
def emptyVec : Pattern × PatternType :=
  (.extractor default ⟨8⟩ [], .singleton (.app ⟨8⟩ [.never]))

/-- The pattern `Some(Vec())`, with its pattern type. -/
def someEmptyVec : Pattern × PatternType :=
  (.variant default ⟨1⟩ [emptyVec.1], .singleton (.app ⟨1⟩ [.app ⟨8⟩ [.never]]))

theorem extracts_emptyVec :
    twoSequences.hierarchy.decls.Extracts emptyVec.1 emptyVec.2 := by
  refine ⟨⟨twoSequences.hierarchy, 64⟩, {}, {}, [emptyVec.2], rfl, ?_, List.mem_singleton_self _⟩
  rw [Extractor.answer_extract]
  rfl

theorem extracts_someEmptyVec :
    twoSequences.hierarchy.decls.Extracts someEmptyVec.1 someEmptyVec.2 := by
  refine ⟨⟨twoSequences.hierarchy, 64⟩, {}, ⟨[(⟨1⟩, [[⟨0, 0, []⟩]])]⟩, [someEmptyVec.2], rfl, ?_,
    List.mem_singleton_self _⟩
  rw [Extractor.answer_extract]
  rfl

theorem not_fitsElements_emptyVec (v : Value) :
    ¬ emptyVec.1.FitsElements twoSequences.hierarchy.decls [v] := by
  rintro ⟨n, d, ps, hshape, hlength, -⟩
  obtain ⟨-, -, rfl⟩ := Pattern.extractor.inj hshape
  simp [fixedElements] at hlength

/-- `Vec(_*)` covers `List[int]` as `List(_*)` does, and `Vec()` covers neither `List[int]`
nor, as a field, `Some[List[int]]`. -/
theorem coverage_of_foreign_extractors_vec :
    (twoSequences.check (.app ⟨7⟩ [.prim .int]) [allOfVec]).value? =
        (twoSequences.check (.app ⟨7⟩ [.prim .int]) [allOfList]).value? ∧
      (twoSequences.check (.app ⟨7⟩ [.prim .int]) [emptyVec]).value? ≠ some .covered ∧
      (twoSequences.check (.app ⟨1⟩ [.app ⟨7⟩ [.prim .int]]) [someEmptyVec]).value? ≠
        some .covered := by
  obtain ⟨hnames, helements, hfields⟩ := coverage_of_foreign_extractors twoSequences
  have hint : ∀ v ∈ [Value.atom (.prim .int)],
      twoSequences.hierarchy.decls.IsValue v ∧ v.ty = .prim .int := by
    intro v hv
    rw [List.mem_singleton.1 hv]
    exact ⟨.atom rfl, rfl⟩
  have hvalue : twoSequences.hierarchy.decls.IsValue (.tuple (.app ⟨1⟩ [.app ⟨7⟩ [.prim .int]])
      [.sequence (.app ⟨7⟩ [.prim .int]) [.atom (.prim .int)]]) := by
    apply Declarations.IsValue.tuple rfl rfl
    intro v hv
    rw [List.mem_singleton.1 hv]
    exact .sequence rfl (fun v hv => (hint v hv).2) fun v hv => (hint v hv).1
  refine ⟨?_, ?_, ?_⟩
  · apply hnames _ [allOfVec] [allOfList] rfl
    refine .cons ⟨.elements rfl _ _ _ _ _ rfl fun i p p' hp hp' => ?_, rfl⟩ .nil
    obtain rfl := Option.some.inj (hp.symm.trans hp')
    exact .refl _ p
  · apply helements ⟨7⟩ [.prim .int] [emptyVec] _ rfl _ hint
    · intro p hp
      rw [List.mem_singleton.1 hp]
      exact not_fitsElements_emptyVec _
    · intro p hp
      rw [List.mem_singleton.1 hp]
      exact ⟨⟨_, _, _, rfl⟩, extracts_emptyVec⟩
  · apply hfields ⟨1⟩ [.app ⟨7⟩ [.prim .int]] 0 [someEmptyVec] _ _ _ rfl _ hvalue rfl
    · intro p hp e he
      rw [List.mem_singleton.1 hp] at he
      obtain rfl := Option.some.inj he
      exact not_fitsElements_emptyVec _
    · intro p hp
      rw [List.mem_singleton.1 hp]
      exact ⟨⟨_, _, rfl, _, _, _, rfl⟩, extracts_someEmptyVec⟩

end Checker

end CaseCover
