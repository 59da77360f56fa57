import CaseCover.Proofs.Check.RowOrder
import CaseCover.Proofs.Check.SequenceNames
import CaseCover.Proofs.Check.Soundness
import CaseCover.Proofs.Check.Termination

/-!
More rows. Rows that are added to a matrix change the search itself: a column without heads is
split once it has some, and sequences are split into more lengths, so that the matrices of the
wider search have columns that those of the narrower one lack. A layout says which ones
(`Layout`). What is kept from matrix to matrix is that the rows of the narrower one, with cells
that match anything in the inserted columns, are among the rows of the wider one (`Embeds`);
then the wider search finds no gap where the narrower one finds none (`staysCovered`).
-/

namespace CaseCover

namespace Checker

open Query (Settles)
open Search (Yields)

/-- A column of the wider of two matrices. -/
inductive Slot
  /-- A column that the narrower matrix has too. -/
  | kept (t : Ty)
  /-- A column that the narrower matrix does not have. -/
  | inserted (t : Ty)

namespace Slot

def ty : Slot → Ty
  | .kept t | .inserted t => t

def kept? : Slot → Option Ty
  | .kept t => some t
  | .inserted _ => none

end Slot

/-- The columns of the wider of two matrices. -/
abbrev Layout := List Slot

namespace Layout

/-- The types of the columns of the wider matrix. -/
def wide (l : Layout) : List Ty := l.map Slot.ty

/-- The types of the columns of the narrower matrix. -/
def narrow (l : Layout) : List Ty := l.filterMap Slot.kept?

/-- A row of the narrower matrix with cells that match anything in the inserted columns. -/
def fill : Layout → Row → Row
  | [], row => row
  | .kept _ :: l, cell :: row => cell :: fill l row
  | .kept _ :: _, [] => []
  | .inserted _ :: l, row => none :: fill l row

theorem wide_append (l l' : Layout) : wide (l ++ l') = wide l ++ wide l' := List.map_append

theorem narrow_append (l l' : Layout) : narrow (l ++ l') = narrow l ++ narrow l' :=
  List.filterMap_append

theorem wide_kept (ts : List Ty) : wide (ts.map .kept) = ts := by
  rw [wide, List.map_map]
  exact List.map_id ts

theorem narrow_kept (ts : List Ty) : narrow (ts.map .kept) = ts := by
  rw [narrow, List.filterMap_map]
  exact List.filterMap_some

theorem wide_inserted (ts : List Ty) : wide (ts.map .inserted) = ts := by
  rw [wide, List.map_map]
  exact List.map_id ts

theorem narrow_inserted (ts : List Ty) : narrow (ts.map .inserted) = [] := by
  rw [narrow, List.filterMap_map]
  exact List.filterMap_eq_nil_iff.2 fun _ _ => rfl

theorem fill_kept (ts : List Ty) (row : Row) : fill (ts.map .kept) row = row := by
  induction ts generalizing row with
  | nil => rfl
  | cons t ts ih =>
      cases row with
      | nil => rfl
      | cons cell row => exact congrArg (cell :: ·) (ih row)

theorem fill_inserted (ts : List Ty) (l : Layout) (row : Row) :
    fill (ts.map .inserted ++ l) row = List.replicate ts.length none ++ fill l row := by
  induction ts with
  | nil => rfl
  | cons t ts ih => exact congrArg (none :: ·) ih

/-- The cells for the first columns are filled up on their own. -/
theorem fill_append {l : Layout} {cells : Row} (hcells : cells.length = (narrow l).length)
    (l' : Layout) (tail : Row) : fill (l ++ l') (cells ++ tail) = fill l cells ++ fill l' tail := by
  induction l generalizing cells with
  | nil =>
      obtain rfl := List.eq_nil_of_length_eq_zero hcells
      rfl
  | cons slot l ih =>
      cases slot with
      | kept t =>
          cases cells with
          | nil => exact nomatch hcells
          | cons cell cells => exact congrArg (cell :: ·) (ih (Nat.succ_inj.1 hcells))
      | inserted t => exact congrArg (none :: ·) (ih hcells)

theorem fill_replicate (l : Layout) :
    fill l (List.replicate (narrow l).length none) = List.replicate (wide l).length none := by
  induction l with
  | nil => rfl
  | cons slot l ih =>
      cases slot with
      | kept t => exact congrArg (none :: ·) ih
      | inserted t => exact congrArg (none :: ·) ih

end Layout

open Layout (fill narrow wide)

/-- The rows of the narrower matrix, filled up, are rows of the wider one. -/
def Embeds (l : Layout) (rows rows' : List Row) : Prop := ∀ row ∈ rows, fill l row ∈ rows'

variable {C : Checker} {t : Ty} {l : Layout} {rows rows' : List Row}

/-- A row amounts to the same with columns inserted behind its first cell. -/
theorem value?_normalizeRow_fill (t : Ty) (l : Layout) (row : Row) :
    (C.normalizeRow t (fill (.kept t :: l) row)).value? =
      (C.normalizeRow t row).value?.map (List.map (fill (.kept t :: l))) := by
  match row with
  | [] => rfl
  | none :: tail => rfl
  | some p :: tail =>
      change (do return (← C.normalizeHead t p).map (· :: fill l tail) : Query _).value? =
        (do return (← C.normalizeHead t p).map (· :: tail) : Query _).value?.map _
      rw [Query.value?_bind, Query.value?_bind]
      cases (C.normalizeHead t p).value? with
      | none => rfl
      | some cells => simp [fill]

theorem mem_value?_normalize {normalized : List Row}
    (hrows : (C.normalize t rows).value? = some normalized) {row : Row} :
    row ∈ normalized ↔
      ∃ original ∈ rows, ∃ found, (C.normalizeRow t original).value? = some found ∧
        row ∈ found := by
  rw [value?_normalize] at hrows
  exact Query.mem_collect hrows

theorem Embeds.normalize {normalized normalized' : List Row}
    (h : Embeds (.kept t :: l) rows rows')
    (hrows : (C.normalize t rows).value? = some normalized)
    (hrows' : (C.normalize t rows').value? = some normalized') :
    Embeds (.kept t :: l) normalized normalized' := by
  intro row hrow
  obtain ⟨original, horiginal, found, hfound, hmem⟩ := (mem_value?_normalize hrows).1 hrow
  refine (mem_value?_normalize hrows').2 ⟨_, h original horiginal, _, ?_, List.mem_map_of_mem hmem⟩
  rw [value?_normalizeRow_fill, hfound]
  rfl

/-- Rows that match anything first are not touched. -/
theorem Embeds.normalize_inserted {normalized' : List Row}
    (h : Embeds (.inserted t :: l) rows rows')
    (hrows' : (C.normalize t rows').value? = some normalized') :
    Embeds (.inserted t :: l) rows normalized' := by
  intro row hrow
  exact (mem_value?_normalize hrows').2 ⟨_, h row hrow, _, rfl, List.mem_singleton_self _⟩

theorem Embeds.heads (h : Embeds (.kept t :: l) rows rows') :
    ∀ p ∈ heads rows, p ∈ Checker.heads rows' := by
  intro p hp
  obtain ⟨row, hrow, hhead⟩ := List.mem_filterMap.1 hp
  refine List.mem_filterMap.2 ⟨_, h row hrow, ?_⟩
  cases row with
  | nil => exact hhead
  | cons cell tail => exact hhead

/-- In the rows that match anything first, the first column may as well be inserted. -/
theorem Embeds.defaults (h : Embeds (.kept t :: l) rows rows') :
    Embeds (.inserted t :: l) (defaultRows rows) rows' :=
  fun tail htail => h (none :: tail) (mem_defaultRows.1 htail)

theorem Embeds.defaultRows (h : Embeds (.inserted t :: l) rows rows') :
    Embeds l rows (Checker.defaultRows rows') :=
  fun row hrow => mem_defaultRows.2 (h row hrow)

/-- A column that was inserted is traded for the fields of its values, all of them
inserted. -/
theorem Embeds.specialize_inserted (h : Embeds (.inserted t :: l) rows rows') {ctor : Ctor}
    {fields : List Ty} {specialized' : List Row}
    (hspecialized' : (Query.filterMap (C.specializeRow ctor fields.length) rows').value? =
      some specialized') : Embeds (fields.map .inserted ++ l) rows specialized' := by
  intro row hrow
  rw [Layout.fill_inserted]
  exact Query.mem_value?_filterMap hspecialized' (h row hrow) rfl

/-- A way of making values is the same as another, or makes part of the sequences that the
other makes. -/
inductive Finer : Ctor → Ctor → Prop
  | refl (ctor : Ctor) : Finer ctor ctor
  | exactly {n m : Nat} (hnm : n ≤ m) : Finer (.exactly m) (.atLeast n)
  | atLeast {n m : Nat} (hnm : n ≤ m) : Finer (.atLeast m) (.atLeast n)

/-- More heads split sequences into more lengths. -/
theorem exists_coarser_sequenceCtor {ps ps' : List Pattern} (hps : ∀ p ∈ ps, p ∈ ps')
    {ctor' : Ctor} (hctor' : ctor' ∈ sequenceCtors ps') :
    ∃ ctor ∈ sequenceCtors ps, Finer ctor' ctor := by
  have hlonger : ∀ longest, (ps.filterMap fixedLength?).max? = some longest →
      ∃ longest', (ps'.filterMap fixedLength?).max? = some longest' ∧ longest ≤ longest' := by
    intro longest hlongest
    obtain ⟨p, hp, hlength⟩ := List.mem_filterMap.1 (List.max?_eq_some_iff.1 hlongest).1
    have hmem : longest ∈ ps'.filterMap fixedLength? :=
      List.mem_filterMap.2 ⟨p, hps p hp, hlength⟩
    cases hmax : (ps'.filterMap fixedLength?).max? with
    | none =>
        rw [List.max?_eq_none_iff.1 hmax] at hmem
        exact absurd hmem List.not_mem_nil
    | some longest' => exact ⟨longest', rfl, (List.max?_eq_some_iff.1 hmax).2 _ hmem⟩
  unfold sequenceCtors
  cases hmax : (ps.filterMap fixedLength?).max? with
  | none =>
      -- Without fixed lengths there is one way, and it makes all sequences.
      refine ⟨_, List.mem_singleton_self _, ?_⟩
      obtain ⟨n, rfl | rfl⟩ := sequenceCtor_cases hctor'
      · exact .exactly (Nat.zero_le n)
      · exact .atLeast (Nat.zero_le n)
  | some longest =>
      obtain ⟨longest', hmax', hle⟩ := hlonger longest hmax
      have hopen : Ctor.atLeast (longest + 1) ∈
          (List.range (longest + 1)).map Ctor.exactly ++ [.atLeast (longest + 1)] :=
        List.mem_append_right _ (List.mem_singleton_self _)
      rw [sequenceCtors, hmax'] at hctor'
      rcases List.mem_append.1 hctor' with hexact | hrest
      · obtain ⟨n, -, rfl⟩ := List.mem_map.1 hexact
        by_cases hn : n ≤ longest
        · have hmem : Ctor.exactly n ∈ (List.range (longest + 1)).map Ctor.exactly :=
            List.mem_map_of_mem (List.mem_range.2 (by omega))
          exact ⟨_, List.mem_append_left _ hmem, .refl _⟩
        · exact ⟨_, hopen, .exactly (by omega)⟩
      · rw [List.mem_singleton.1 hrest]
        exact ⟨_, hopen, .atLeast (by omega)⟩

/-- The ways of making the values of a type without direct subtypes depend on the heads for
sequences only. -/
theorem leafCtors_cases (D : Declarations) (t : Ty) :
    (∀ ps, leafCtors D ps t = some (sequenceCtors ps)) ∨
      ∀ ps ps', leafCtors D ps t = leafCtors D ps' t := by
  cases t with
  | app d args =>
      cases hkind : (D.get d).kind with
      | sequence => exact .inl fun ps => by rw [leafCtors, hkind]
      | abstractType _ | product _ | singleton =>
          exact .inr fun ps ps' => by rw [leafCtors, leafCtors, hkind]
  | prim p => cases p <;> exact .inr fun _ _ => rfl
  | lit _ | union _ _ | param _ _ => exact .inr fun _ _ => rfl

/-- With more heads, a type is split at least as finely. -/
theorem exists_coarser {ps ps' : List Pattern} (hps : ∀ p ∈ ps, p ∈ ps') {ctors ctors' : List Ctor}
    (hsplit : (C.split t ps).value? = some (some ctors))
    (hsplit' : (C.split t ps').value? = some (some ctors')) {ctor' : Ctor}
    (hctor' : ctor' ∈ ctors') : ∃ ctor ∈ ctors, Finer ctor' ctor := by
  obtain ⟨-, subtypes, hsubtypes, hleaf, hnode⟩ := split_cases hsplit
  obtain ⟨-, subtypes', hsubtypes', hleaf', hnode'⟩ := split_cases hsplit'
  obtain rfl := hsubtypes.unique hsubtypes'
  by_cases hempty : subtypes = []
  · have hctors := hleaf hempty
    have hctors' := hleaf' hempty
    rcases leafCtors_cases C.hierarchy.decls t with hsequence | hsame
    · rw [hsequence] at hctors hctors'
      obtain rfl := Option.some.inj hctors
      obtain rfl := Option.some.inj hctors'
      exact exists_coarser_sequenceCtor hps hctor'
    · rw [hsame ps ps'] at hctors
      obtain rfl := Option.some.inj (hctors.symm.trans hctors')
      exact ⟨ctor', hctor', .refl ctor'⟩
  · rw [hnode' hempty] at hctor'
    rw [hnode hempty]
    exact ⟨ctor', hctor', .refl ctor'⟩

/-- Whether a type is split at all does not depend on the heads. -/
theorem split_none_of_split_none {ps : List Pattern} (hsplit : (C.split t ps).value? = some none)
    (ps' : List Pattern) : (C.split t ps').value? = some none := by
  unfold split at hsplit ⊢
  by_cases hclosed : C.hierarchy.decls.isClosed t = true
  · rw [if_pos hclosed, Query.value?_bind_eq_some] at hsplit ⊢
    obtain ⟨subtypes, hsubtypes, hctors⟩ := hsplit
    refine ⟨subtypes, hsubtypes, ?_⟩
    by_cases hempty : subtypes.isEmpty = true
    · rw [if_pos hempty] at hctors ⊢
      cases t with
      | app d args =>
          cases hkind : (C.hierarchy.decls.get d).kind with
          | _ =>
              simp only [hkind] at hctors
              exact nomatch Option.some.inj hctors
      | prim p => cases p <;> exact hctors
      | lit v => exact hctors
      | union a b => exact hctors
      | param o i => exact hctors
    · rw [if_neg hempty] at hctors
      exact nomatch Option.some.inj hctors
  · rw [if_neg hclosed]
    rfl

/-- How the fields of the values made in one of two ways lie among those of the other, and
how patterns are specialized to both. -/
structure FieldLayout (C : Checker) (ctor ctor' : Ctor) (fields fields' : List Ty) (l : Layout) :
    Prop where
  narrow_eq : narrow l = fields
  wide_eq : wide l = fields'
  specialize : ∀ {p cells}, (C.specialize p ctor fields.length).value? = some (some cells) →
    cells.length = fields.length ∧
      (C.specialize p ctor' fields'.length).value? = some (some (fill l cells))

/-- The elements that a longer sequence has besides match anything. -/
theorem fill_padded {fixed : List Pattern} {n m : Nat} (hfixed : fixed.length ≤ n) (hnm : n ≤ m)
    (e : Ty) : fill ((List.replicate n e).map .kept ++ (List.replicate (m - n) e).map .inserted)
      (padded fixed n) = padded fixed m := by
  have hlength : (padded fixed n).length = (narrow ((List.replicate n e).map .kept)).length := by
    rw [Layout.narrow_kept, padded, List.length_append, List.length_map, List.length_replicate,
      List.length_replicate]
    omega
  have hsum : m - fixed.length = (n - fixed.length) + (m - n) := by omega
  calc fill ((List.replicate n e).map .kept ++ (List.replicate (m - n) e).map .inserted)
        (padded fixed n)
      = fill ((List.replicate n e).map .kept) (padded fixed n) ++
          fill ((List.replicate (m - n) e).map .inserted ++ []) [] := by
        rw [List.append_nil, ← Layout.fill_append hlength, List.append_nil]
    _ = padded fixed n ++ List.replicate (m - n) none := by
        rw [Layout.fill_kept, Layout.fill_inserted, List.length_replicate, fill, List.append_nil]
    _ = padded fixed m := by
        rw [padded, padded, hsum, List.append_assoc, List.replicate_add]

/-- A pattern that is specialized to the sequences of at least some length lists elements, and
any rest. -/
theorem open_of_specialize_atLeast {p : Pattern} {n arity : Nat} {cells : Row}
    (hcells : (C.specialize p (.atLeast n) arity).value? = some (some cells)) :
    ∃ node d elements, p = .extractor node d elements ∧ (fixedElements elements).2 = true ∧
      (fixedElements elements).1.length ≤ n ∧ cells = padded (fixedElements elements).1 n := by
  cases specializes_of_value? hcells with
  | atLeast hopen hlength => exact ⟨_, _, _, rfl, hopen, hlength, rfl⟩

/-- The first elements of longer sequences are the fields of sequences of at least some
length. -/
theorem fieldLayout_atLeast {n m : Nat} (hnm : n ≤ m) {ctor' : Ctor}
    (hctor' : ctor' = .exactly m ∨ ctor' = .atLeast m) (e : Ty) :
    FieldLayout C (.atLeast n) ctor' (List.replicate n e) (List.replicate m e)
      ((List.replicate n e).map .kept ++ (List.replicate (m - n) e).map .inserted) := by
  constructor
  case narrow_eq =>
    rw [Layout.narrow_append, Layout.narrow_kept, Layout.narrow_inserted, List.append_nil]
  case wide_eq =>
    rw [Layout.wide_append, Layout.wide_kept, Layout.wide_inserted, ← List.replicate_add,
      Nat.add_sub_cancel' hnm]
  case specialize =>
    intro p cells hcells
    have hfits := (specializes_of_value? hcells).length_eq List.length_replicate
    obtain ⟨node, d, elements, rfl, hopen, hlength, rfl⟩ := open_of_specialize_atLeast hcells
    refine ⟨hfits, ?_⟩
    rw [fill_padded hlength hnm]
    have hle : (fixedElements elements).1.length ≤ m := Nat.le_trans hlength hnm
    rcases hctor' with rfl | rfl <;> simp [specialize, hopen, hle]

/-- The fields of the values made in a way lie in order among those of the values made in a
finer way. -/
theorem Finer.exists_layout {ctor ctor' : Ctor} (h : Finer ctor' ctor) {fields fields' : List Ty}
    (hfields : (C.fieldTypes t ctor).value? = some fields)
    (hfields' : (C.fieldTypes t ctor').value? = some fields') :
    ∃ l, FieldLayout C ctor ctor' fields fields' l := by
  cases h with
  | refl =>
      obtain rfl := Option.some.inj (hfields.symm.trans hfields')
      refine ⟨fields.map .kept, Layout.narrow_kept fields, Layout.wide_kept fields, ?_⟩
      intro p cells hcells
      rw [Layout.fill_kept]
      exact ⟨(specializes_of_value? hcells).length_eq (fits_of_fieldTypes hfields), hcells⟩
  | exactly hnm =>
      obtain rfl := Option.some.inj hfields
      obtain rfl := Option.some.inj hfields'
      exact ⟨_, fieldLayout_atLeast hnm (.inl rfl) _⟩
  | atLeast hnm =>
      obtain rfl := Option.some.inj hfields
      obtain rfl := Option.some.inj hfields'
      exact ⟨_, fieldLayout_atLeast hnm (.inr rfl) _⟩

/-- A row specialized to a way of making values is, filled up, the row specialized to a finer
way. -/
theorem FieldLayout.specializeRow {ctor ctor' : Ctor} {fields fields' : List Ty} {inner : Layout}
    (h : FieldLayout C ctor ctor' fields fields' inner) {row specialized : Row}
    (hrow : (C.specializeRow ctor fields.length row).value? = some (some specialized)) :
    (C.specializeRow ctor' fields'.length (fill (.kept t :: l) row)).value? =
      some (some (fill (inner ++ l) specialized)) := by
  cases row with
  | nil => cases Option.some.inj hrow
  | cons cell tail =>
      cases cell with
      | none =>
          obtain rfl := Option.some.inj (Option.some.inj hrow)
          have hlength : (List.replicate fields.length (none : Cell)).length =
              (narrow inner).length := by rw [List.length_replicate, h.narrow_eq]
          rw [Layout.fill_append hlength, ← h.narrow_eq, Layout.fill_replicate, h.wide_eq]
          rfl
      | some p =>
          rw [Checker.specializeRow, Query.value?_bind_eq_some] at hrow
          obtain ⟨found, hfound, hrow⟩ := hrow
          cases found with
          | none => cases Option.some.inj hrow
          | some cells =>
              obtain rfl := Option.some.inj (Option.some.inj hrow)
              obtain ⟨hlength, hcells⟩ := h.specialize hfound
              rw [Layout.fill_append (hlength.trans (congrArg _ h.narrow_eq.symm))]
              exact Query.value?_bind_eq_some.2 ⟨_, hcells, rfl⟩

/-- A column that both matrices have is traded for the fields of its values. -/
theorem Embeds.specialize_kept (h : Embeds (.kept t :: l) rows rows') {ctor ctor' : Ctor}
    {fields fields' : List Ty} {inner : Layout}
    (hinner : FieldLayout C ctor ctor' fields fields' inner) {specialized specialized' : List Row}
    (hspecialized : (Query.filterMap (C.specializeRow ctor fields.length) rows).value? =
      some specialized)
    (hspecialized' : (Query.filterMap (C.specializeRow ctor' fields'.length) rows').value? =
      some specialized') : Embeds (inner ++ l) specialized specialized' := by
  intro row hrow
  obtain ⟨original, horiginal, hfound⟩ := Query.mem_of_value?_filterMap hspecialized hrow
  exact Query.mem_value?_filterMap hspecialized' (h original horiginal)
    (hinner.specializeRow hfound)

/-- A search, of matrices nested at most `depth` deep, finds no gap where a search of a matrix
that it embeds finds none. -/
def StaysCovered (C : Checker) (depth : Nat) : Prop :=
  ∀ {l : Layout} {rows rows' : List Row} {columns columns' : List Column},
    columns.map Column.ty = narrow l → columns'.map Column.ty = wide l → Embeds l rows rows' →
    ∀ {depth₀ left₀ left₁ : Nat}, (C.gapsWithin depth₀ rows columns).Yields left₀ [] left₁ →
    ∀ {found : List (List Gap)} {left left' : Nat},
      (C.gapsWithin depth rows' columns').Yields left found left' → found = []

/-- A matrix without rows has a gap. -/
theorem ne_nil_of_yields_nil {depth left left' : Nat} {columns : List Column}
    (h : (C.gapsWithin depth rows columns).Yields left [] left') : rows ≠ [] := by
  rintro rfl
  cases depth with
  | zero => exact Search.not_yields_stop h
  | succ depth =>
      obtain ⟨_, -, hstep⟩ := gapsStep_of_yields h
      generalize hfound : ([] : List (List Gap)) = found at hstep
      cases hstep with
      | unmatched => exact nomatch hfound
      | matched hrows | default hrows | split hrows => exact hrows rfl

theorem map_ty_fields {fields types types' : List Ty} {rest : List Column}
    (hfields : types = fields) (hrest : rest.map Column.ty = types') (enclosing : List DataId) :
    (fields.map (⟨·, enclosing⟩) ++ rest : List Column).map Column.ty = types ++ types' := by
  rw [List.map_append, List.map_map, hrest, hfields]
  exact congrArg (· ++ _) (List.map_id fields)

theorem Embeds.ne_nil (h : Embeds l rows rows') (hrows : rows ≠ []) : rows' ≠ [] := by
  obtain ⟨row, hrow⟩ := List.exists_mem_of_ne_nil rows hrows
  exact List.ne_nil_of_mem (h row hrow)

/-- One matrix of the wider search with a first column that the narrower one does not have, or
does not split. -/
theorem StaysCovered.inserted {depth : Nat} (ih : C.StaysCovered depth)
    {columns rest : List Column} {column : Column} (hcolumns : columns.map Column.ty = narrow l)
    (hrest : rest.map Column.ty = wide l) (hrows' : rows' ≠ [])
    (h : ∀ {normalized}, (C.normalize column.ty rows').value? = some normalized →
      Embeds (.inserted column.ty :: l) rows normalized) {depth₀ left₀ left₁ : Nat}
    (hnone : (C.gapsWithin depth₀ rows columns).Yields left₀ [] left₁)
    {found : List (List Gap)} {left left' : Nat}
    (hstep : C.GapsStep depth left rows' (column :: rest) found left') : found = [] := by
  cases hstep with
  | unmatched => exact absurd rfl hrows'
  | default _ hnormalized _ htails =>
      obtain rfl := ih hcolumns hrest (h hnormalized).defaultRows hnone htails
      rfl
  | split _ hnormalized _ _ _ hloop =>
      rw [List.eq_nil_iff_forall_not_mem]
      intro gaps hgaps
      rcases gapsByCtor_sound hloop hgaps with hknown | ⟨ctor, -, hfrom⟩
      · exact absurd hknown List.not_mem_nil
      · obtain ⟨fields, specialized, inner, _, _, -, hspecialized, hinner, g, hg, -⟩ := hfrom
        have hembeds := (h hnormalized).specialize_inserted hspecialized
        have hnarrow : columns.map Column.ty = narrow (fields.map .inserted ++ l) := by
          rw [hcolumns, Layout.narrow_append, Layout.narrow_inserted, List.nil_append]
        have hwide := map_ty_fields (Layout.wide_inserted fields) hrest
          (column.ty.constructor?.toList ++ column.enclosing)
        rw [← Layout.wide_append] at hwide
        obtain rfl := ih hnarrow hwide hembeds hnone hinner
        exact absurd hg List.not_mem_nil

/-- One matrix of the wider search with a first column that is split in both. -/
theorem StaysCovered.split {depth depth₀ : Nat} (ih : C.StaysCovered depth)
    {rest₀ rest : List Column} {column₀ column : Column}
    (hty : column₀.ty = column.ty)
    (hrest₀ : rest₀.map Column.ty = narrow l) (hrest : rest.map Column.ty = wide l)
    (h : Embeds (.kept column.ty :: l) rows rows') {ctors₀ ctors : List Ctor}
    (hsplit₀ : (C.split column.ty (heads rows)).value? = some (some ctors₀))
    (hsplit : (C.split column.ty (heads rows')).value? = some (some ctors))
    {left₀ left₁ : Nat} (hnone : (C.gapsByCtor (C.gapsWithin depth₀) rows column₀ rest₀ ctors₀
      []).Yields left₀ [] left₁) {found : List (List Gap)} {left left' : Nat}
    (hloop : (C.gapsByCtor (C.gapsWithin depth) rows' column rest ctors []).Yields left found
      left') : found = [] := by
  rw [List.eq_nil_iff_forall_not_mem]
  intro gaps hgaps
  rcases gapsByCtor_sound hloop hgaps with hknown | ⟨ctor, hctor, hfrom⟩
  · exact absurd hknown List.not_mem_nil
  · obtain ⟨fields, specialized, inner, _, _, hfields, hspecialized, hinner, g, hg, -⟩ := hfrom
    obtain ⟨ctor₀, hctor₀, hfiner⟩ := exists_coarser h.heads hsplit₀ hsplit hctor
    have hroom : ([] : List (List Gap)).length < C.gapLimit :=
      Nat.lt_of_lt_of_le Nat.zero_lt_one (Nat.le_max_left 1 _)
    obtain ⟨fields₀, specialized₀, inner₀, _, _, hfields₀, hspecialized₀, hinner₀, -, hall⟩ :=
      (gapsByCtor_complete hnone hroom).2 ctor₀ hctor₀
    obtain rfl : inner₀ = [] :=
      List.eq_nil_iff_forall_not_mem.2 fun g hg => absurd (hall g hg) List.not_mem_nil
    rw [hty] at hfields₀
    obtain ⟨layout, hlayout⟩ := hfiner.exists_layout hfields₀ hfields
    have hcolumns₀ := map_ty_fields hlayout.narrow_eq hrest₀
      (column₀.ty.constructor?.toList ++ column₀.enclosing)
    have hcolumns := map_ty_fields hlayout.wide_eq hrest
      (column.ty.constructor?.toList ++ column.enclosing)
    rw [← Layout.narrow_append] at hcolumns₀
    rw [← Layout.wide_append] at hcolumns
    obtain rfl := ih hcolumns₀ hcolumns (h.specialize_kept hlayout hspecialized₀ hspecialized)
      hinner₀ hinner
    exact absurd hg List.not_mem_nil

/-- One matrix of the wider search with a first column that both have. -/
theorem StaysCovered.kept {depth : Nat} (ih : C.StaysCovered depth)
    {rest₀ rest : List Column} {column₀ column : Column} (hty : column₀.ty = column.ty)
    (hrest₀ : rest₀.map Column.ty = narrow l) (hrest : rest.map Column.ty = wide l)
    (h : Embeds (.kept column.ty :: l) rows rows') {depth₀ left₀ left₁ : Nat}
    (hnone : (C.gapsWithin depth₀ rows (column₀ :: rest₀)).Yields left₀ [] left₁)
    {found : List (List Gap)} {left left' : Nat}
    (hstep : C.GapsStep depth left rows' (column :: rest) found left') : found = [] := by
  have hrows := ne_nil_of_yields_nil hnone
  cases depth₀ with
  | zero => exact absurd hnone Search.not_yields_stop
  | succ depth₀ =>
      obtain ⟨_, -, hstep₀⟩ := gapsStep_of_yields hnone
      generalize hfound₀ : ([] : List (List Gap)) = found₀ at hstep₀
      cases hstep₀ with
      | unmatched => exact absurd rfl hrows
      | default _ hnormalized₀ _ htails₀ =>
          -- The narrower search drops the column here, so from now on it counts as inserted.
          obtain rfl := List.map_eq_nil_iff.1 hfound₀.symm
          rw [hty] at hnormalized₀
          exact ih.inserted hrest₀ hrest (h.ne_nil hrows)
            (fun hnormalized => (h.normalize hnormalized₀ hnormalized).defaults) htails₀ hstep
      | split _ hnormalized₀ hheads₀ hsplit₀ _ hloop₀ =>
          subst hfound₀
          rw [hty] at hnormalized₀ hsplit₀
          cases hstep with
          | unmatched => exact absurd rfl (h.ne_nil hrows)
          | default _ hnormalized hunsplit _ =>
              -- More rows keep the heads, so a column that was split cannot be dropped.
              have hheads := (h.normalize hnormalized₀ hnormalized).heads
              rcases hunsplit with hnil | hunsplit
              · obtain ⟨p, hp⟩ := List.exists_mem_of_ne_nil _ hheads₀
                exact absurd (hnil ▸ hheads p hp) List.not_mem_nil
              · rw [split_none_of_split_none hunsplit] at hsplit₀
                exact nomatch Option.some.inj hsplit₀
          | split _ hnormalized _ hsplit _ hloop =>
              exact ih.split hty hrest₀ hrest (h.normalize hnormalized₀ hnormalized) hsplit₀ hsplit
                hloop₀ hloop

/-- Where a search finds no gap, a search with more rows finds none, however differently it
splits. The induction is on the nesting of matrices in the wider search; the narrower one does
not move where a column was inserted. -/
theorem staysCovered (C : Checker) (depth : Nat) : C.StaysCovered depth := by
  induction depth with
  | zero =>
      intro l rows rows' columns columns' _ _ _ _ _ _ _ found left left' hfound
      exact absurd hfound Search.not_yields_stop
  | succ depth ih =>
      intro l rows rows' columns columns' hcolumns hcolumns' h depth₀ left₀ left₁ hnone found
        left left' hfound
      obtain ⟨_, -, hstep⟩ := gapsStep_of_yields hfound
      cases l with
      | nil =>
          obtain rfl := List.map_eq_nil_iff.1 hcolumns'
          cases hstep with
          | matched => rfl
          | unmatched => exact absurd rfl (h.ne_nil (ne_nil_of_yields_nil hnone))
      | cons slot l =>
          obtain ⟨column, rest, rfl, hty, hrest⟩ := List.map_eq_cons_iff.1 hcolumns'
          cases slot with
          | inserted t =>
              obtain rfl : column.ty = t := hty
              exact ih.inserted (l := l) hcolumns hrest (h.ne_nil (ne_nil_of_yields_nil hnone))
                h.normalize_inserted hnone hstep
          | kept t =>
              obtain rfl : column.ty = t := hty
              obtain ⟨column₀, rest₀, rfl, hty₀, hrest₀⟩ := List.map_eq_cons_iff.1 hcolumns
              exact ih.kept hty₀ hrest₀ hrest h hnone hstep

/-- A closed type that patterns cover is not missing values with more patterns. -/
theorem checkClosed_with_more {target : Ty} {ps ps' : List Pattern} (hps : ∀ p ∈ ps, p ∈ ps')
    (hcovered : (C.checkClosed target ps).value? = some .covered) {answer : Coverage}
    (hanswer : (C.checkClosed target ps').value? = some answer) :
    answer = .covered ∨ ∃ limit, answer = .inconclusive limit := by
  obtain ⟨left, hnone⟩ := gapsWithin_of_gaps (gaps_of_covered hcovered)
  obtain ⟨outcome, houtcome, hanswer⟩ := Query.value?_bind_eq_some.1 hanswer
  cases outcome with
  | error limit => exact .inr ⟨limit, (Option.some.inj hanswer).symm⟩
  | ok found =>
      obtain ⟨left', hfound⟩ := gapsWithin_of_gaps houtcome
      have hembeds : Embeds [.kept target] (ps.map fun p => [some p])
          (ps'.map fun p => [some p]) := by
        intro row hrow
        obtain ⟨p, hp, rfl⟩ := List.mem_map.1 hrow
        exact List.mem_map_of_mem (hps p hp)
      obtain rfl := C.staysCovered C.config.stepBudget rfl rfl hembeds hnone hfound
      exact .inl (Option.some.inj hanswer).symm

/-- An open type that pattern types cover is covered with more pattern types. -/
theorem checkOpen_with_more {target : Ty} {types types' : List PatternType}
    (htypes : ∀ p ∈ types, p ∈ types')
    (hcovered : (C.checkOpen target types).value? = some .covered) {answer : Coverage}
    (hanswer : (C.checkOpen target types').value? = some answer) : answer = .covered := by
  obtain ⟨whole, hwhole, hcovered⟩ := Query.value?_bind_eq_some.1 hcovered
  obtain ⟨whole', hwhole', hanswer⟩ := Query.value?_bind_eq_some.1 hanswer
  cases whole with
  | false => exact nomatch Option.some.inj hcovered
  | true =>
      obtain ⟨p, hp, hmatches⟩ := (Query.value?_any_eq_some hwhole).1 rfl
      cases whole' with
      | true => exact (Option.some.inj hanswer).symm
      | false =>
          have hfails := (Query.value?_any_eq_some hwhole').2 rfl p (htypes p hp)
          exact nomatch Option.some.inj (hmatches.symm.trans hfails)

/-- Cases that are found to cover a target are not found to miss a value with more cases. -/
theorem check_of_covered {target : Ty} {ps ps' : List (Pattern × PatternType)}
    (hps : ∀ p ∈ ps, p ∈ ps') (hcovered : (C.check target ps).value? = some .covered)
    {answer : Coverage} (hanswer : (C.check target ps').value? = some answer) :
    answer = .covered ∨ ∃ limit, answer = .inconclusive limit := by
  have hmap {α : Type} (f : Pattern × PatternType → α) : ∀ a ∈ ps.map f, a ∈ ps'.map f := by
    intro a ha
    obtain ⟨p, hp, rfl⟩ := List.mem_map.1 ha
    exact List.mem_map_of_mem (hps p hp)
  unfold check at hcovered hanswer
  by_cases hcatch' : (ps'.any fun p => p.2.isCatchAll) = true
  · rw [if_pos hcatch'] at hanswer
    exact .inl (Option.some.inj hanswer).symm
  · have hcatch : ¬ (ps.any fun p => p.2.isCatchAll) = true := by
      intro hany
      obtain ⟨p, hp, hwhole⟩ := List.any_eq_true.1 hany
      exact hcatch' (List.any_eq_true.2 ⟨p, hps p hp, hwhole⟩)
    rw [if_neg hcatch'] at hanswer
    rw [if_neg hcatch] at hcovered
    by_cases hclosed : C.hierarchy.decls.isClosed target = true
    · rw [if_pos hclosed] at hanswer hcovered
      exact checkClosed_with_more (hmap Prod.fst) hcovered hanswer
    · rw [if_neg hclosed] at hanswer hcovered
      exact .inl (checkOpen_with_more (hmap Prod.snd) hcovered hanswer)

/-- Adding cases never uncovers a target: where some cases are found to cover it, no list of
cases that has them all, in any places and among any others, is found to miss a value. It is
covered again or a limit of the search is reached, and one of the two comes out as long as
questions about types have answers. -/
theorem check_with_more_cases (C : Checker) (target : Ty) (ps ps' : List (Pattern × PatternType))
    (hps : ∀ p ∈ ps, p ∈ ps') :
    ((C.check target ps).value? = some .covered →
      ∀ answer, (C.check target ps').value? = some answer →
        answer = .covered ∨ ∃ limit, answer = .inconclusive limit) ∧
    (C.hierarchy.decls.Settled →
      Settles (fun n => (C.within n).check target ps) .covered →
      ∃ answer, Settles (fun n => (C.within n).check target ps') answer ∧
        (answer = .covered ∨ ∃ limit, answer = .inconclusive limit)) := by
  refine ⟨fun hcovered answer hanswer => check_of_covered hps hcovered hanswer, ?_⟩
  rintro hsettled ⟨enough, hcovered⟩
  obtain ⟨answer, hanswer⟩ := check_ends hsettled target ps'
  obtain ⟨enough', hanswers⟩ := id hanswer
  refine ⟨answer, hanswer, ?_⟩
  exact check_of_covered hps (hcovered (max enough enough') (Nat.le_max_left ..))
    (hanswers (max enough enough') (Nat.le_max_right ..))

/-- The pattern `List(true, _*)`, with its pattern type. -/
def trueFirst : Pattern × PatternType :=
  (.extractor default ⟨7⟩ [truth.1, .rest default], .singleton (.app ⟨7⟩ [.lit (.bool true)]))

/-- `List(_*)` covers `List[bool]`, and still does after `List(true, _*)`, for which the search
tells empty lists from others and looks at the first element. -/
theorem check_with_more_cases_list :
    (∀ texts note, (initialChecker.check (.app ⟨7⟩ [.prim .bool])
        [trueFirst, allOfList]).value? ≠ some (.missing texts note)) ∧
      ∃ answer, Settles (fun n => (initialChecker.within n).check (.app ⟨7⟩ [.prim .bool])
          [trueFirst, allOfList]) answer ∧
        (answer = .covered ∨ ∃ limit, answer = .inconclusive limit) := by
  have hall : ∀ p ∈ [allOfList], p ∈ [trueFirst, allOfList] :=
    fun p hp => List.mem_cons_of_mem trueFirst hp
  obtain ⟨hanswers, hsettles⟩ :=
    check_with_more_cases initialChecker (.app ⟨7⟩ [.prim .bool]) _ _ hall
  constructor
  · intro texts note hmissing
    rcases hanswers (by decide) _ hmissing with hcovered | ⟨limit, hlimit⟩
    · exact nomatch hcovered
    · exact nomatch hlimit
  · exact hsettles (Declarations.settled_of_ordered (by decide))
      (Query.settles_of_value? fun n => rfl)

end Checker

end CaseCover
