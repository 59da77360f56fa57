import CaseCover.Proofs.Check.Splitting
import CaseCover.Proofs.Value.Accepting

/-!
No row is lost that accepts a vector of values. Where a row does, so does one of the
normalized rows (`normalize_complete`), and what it is specialized to accepts the fields
from which the first value is made (`specializeRow_complete`). That a way of making values is
not dropped in spite of an ascription is where the ascribed types have to be decisive.
-/

namespace CaseCover

namespace Checker

variable {C : Checker}

theorem exists_of_mem_normalizeBranches {ty : Ty} {branches : List Pattern} {cells : List Cell}
    (hcells : (C.normalizeBranches ty branches).value? = some cells) {p : Pattern}
    (hp : p ∈ branches) :
    ∃ found, (C.normalizeHead ty p).value? = some found ∧ ∀ cell ∈ found, cell ∈ cells := by
  induction branches generalizing cells with
  | nil => exact absurd hp List.not_mem_nil
  | cons q branches ih =>
      obtain ⟨first, later, hfirst, hlater, rfl⟩ := normalizeBranches_cons_eq_some.1 hcells
      rcases List.mem_cons.1 hp with rfl | hp
      · exact ⟨first, hfirst, fun cell => List.mem_append_left later⟩
      · obtain ⟨found, hfound, hmem⟩ := ih hlater hp
        exact ⟨found, hfound, fun cell hcell => List.mem_append_right first (hmem cell hcell)⟩

/-- A value that a pattern accepts is accepted by a cell to which the pattern amounts. -/
theorem normalizeHead_complete {ty : Ty} {p : Pattern} {cells : List Cell}
    (hcells : (C.normalizeHead ty p).value? = some cells) {v : Value}
    (h : C.hierarchy.decls.Accepts p v) :
    ∃ cell ∈ cells, C.hierarchy.decls.CellAccepts cell v := by
  have whatever : ∀ {cells : List Cell}, some [none] = some cells →
      ∃ cell ∈ cells, C.hierarchy.decls.CellAccepts cell v := by
    intro cells hcells
    obtain rfl := Option.some.inj hcells
    exact ⟨none, List.mem_singleton_self _, trivial⟩
  have itself : ∀ {p : Pattern} {cells : List Cell}, C.hierarchy.decls.Accepts p v →
      some [some p] = some cells → ∃ cell ∈ cells, C.hierarchy.decls.CellAccepts cell v := by
    intro p cells h hcells
    obtain rfl := Option.some.inj hcells
    exact ⟨some p, List.mem_singleton_self _, h⟩
  induction p generalizing cells with
  | wildcard n => exact whatever hcells
  | binding n x => exact whatever hcells
  | rest n => exact whatever hcells
  | literal n l => exact itself h hcells
  | variant n d ps _ => exact itself h hcells
  | extractor n d ps _ => exact itself h hcells
  | named n x p ih =>
      rw [normalizeHead] at hcells
      cases h with
      | named h => exact ih hcells h
  | typed n p ascribed ih =>
      rw [normalizeHead, Query.value?_bind_eq_some] at hcells
      obtain ⟨below, -, hcells⟩ := hcells
      cases below with
      | false => exact itself h hcells
      | true =>
          cases h with
          | typed hu _ hpart => exact ih hcells (hpart.of_view hu)
  | alternation n branches ih =>
      rw [normalizeHead] at hcells
      cases h with
      | @branch _ _ p _ hp h =>
          obtain ⟨found, hfound, hmem⟩ := exists_of_mem_normalizeBranches hcells hp
          obtain ⟨cell, hcell, haccepts⟩ := ih p hp hfound h
          exact ⟨cell, hmem cell hcell, haccepts⟩

/-- The patterns that are left as heads at a type: those that may fail. -/
inductive HeadAt (D : Declarations) (ty : Ty) : Pattern → Prop
  | typed (n : PatternNode) (p : Pattern) {t : Ty} (ht : ¬ D.Below ty t) :
      HeadAt D ty (.typed n p t)
  | literal (n : PatternNode) (l : Literal) : HeadAt D ty (.literal n l)
  | variant (n : PatternNode) (d : DataId) (ps : List Pattern) :
      HeadAt D ty (.variant n d ps)
  | extractor (n : PatternNode) (d : DataId) (ps : List Pattern) :
      HeadAt D ty (.extractor n d ps)

/-- A pattern amounts to heads at the type, which ascribe nothing that it does not. -/
theorem headAt_of_normalizeHead {ty : Ty} {p : Pattern} {cells : List Cell}
    (hcells : (C.normalizeHead ty p).value? = some cells) {q : Pattern}
    (hq : some q ∈ cells) :
    HeadAt C.hierarchy.decls ty q ∧ ∀ t, q.Mentions t → p.Mentions t := by
  have whatever : ∀ {cells : List Cell}, some [none] = some cells → some q ∉ cells := by
    intro cells hcells hq
    obtain rfl := Option.some.inj hcells
    exact nomatch List.mem_singleton.1 hq
  have itself : ∀ {p : Pattern} {cells : List Cell}, HeadAt C.hierarchy.decls ty p →
      some [some p] = some cells → some q ∈ cells →
      HeadAt C.hierarchy.decls ty q ∧ ∀ t, q.Mentions t → p.Mentions t := by
    intro p cells hp hcells hq
    obtain rfl := Option.some.inj hcells
    obtain rfl := Option.some.inj (List.mem_singleton.1 hq)
    exact ⟨hp, fun _ => id⟩
  induction p generalizing cells with
  | wildcard n => exact absurd hq (whatever hcells)
  | binding n x => exact absurd hq (whatever hcells)
  | rest n => exact absurd hq (whatever hcells)
  | literal n l => exact itself (.literal n l) hcells hq
  | variant n d ps _ => exact itself (.variant n d ps) hcells hq
  | extractor n d ps _ => exact itself (.extractor n d ps) hcells hq
  | named n x p ih =>
      rw [normalizeHead] at hcells
      obtain ⟨hhead, hmentions⟩ := ih hcells hq
      exact ⟨hhead, fun t ht => .named (hmentions t ht)⟩
  | typed n p ascribed ih =>
      rw [normalizeHead, Query.value?_bind_eq_some] at hcells
      obtain ⟨below, hbelow, hcells⟩ := hcells
      cases below with
      | false =>
          have hnot : ¬ C.hierarchy.decls.Below ty ascribed := fun h =>
            Bool.false_ne_true ((Declarations.below_iff_of_isSubtype hbelow).1 h)
          exact itself (.typed n p hnot) hcells hq
      | true =>
          obtain ⟨hhead, hmentions⟩ := ih hcells hq
          exact ⟨hhead, fun t ht => .typed (hmentions t ht)⟩
  | alternation n branches ih =>
      rw [normalizeHead] at hcells
      obtain ⟨p, hp, found, hfound, hmem⟩ := mem_normalizeBranches hcells hq
      obtain ⟨hhead, hmentions⟩ := ih p hp hfound hmem
      exact ⟨hhead, fun t ht => .branch hp (hmentions t ht)⟩

/-- The ascriptions in a row are decisive. -/
def RowDecides (D : Declarations) (row : Row) : Prop := ∀ p, some p ∈ row → D.Decides p

/-- The first patterns of normalized rows are heads at the type, and ascriptions stay
decisive. -/
theorem headAt_of_normalize {ty : Ty} {rows normalized : List Row}
    (hrows : (C.normalize ty rows).value? = some normalized) {q : Pattern} {tail : Row}
    (hmem : some q :: tail ∈ normalized) : HeadAt C.hierarchy.decls ty q := by
  rcases mem_normalize hrows hmem with ⟨-, hhead⟩ | ⟨p, _, cells, cell, -, hcells, hcell, heq⟩
  · exact absurd rfl (hhead q tail)
  · obtain ⟨rfl, -⟩ := List.cons.inj heq
    exact (headAt_of_normalizeHead hcells hcell).1

theorem rowDecides_normalize {ty : Ty} {rows normalized : List Row}
    (hrows : (C.normalize ty rows).value? = some normalized)
    (hdecides : ∀ row ∈ rows, RowDecides C.hierarchy.decls row) :
    ∀ row ∈ normalized, RowDecides C.hierarchy.decls row := by
  intro row hmem
  rcases mem_normalize hrows hmem with ⟨hkept, -⟩ | ⟨p, tail, cells, cell, hp, hcells, hcell, rfl⟩
  · exact hdecides row hkept
  · intro q hq
    rcases List.mem_cons.1 hq with rfl | hq
    · exact (hdecides _ hp p List.mem_cons_self).mono (headAt_of_normalizeHead hcells hcell).2
    · exact hdecides _ hp q (List.mem_cons_of_mem _ hq)

/-- A row stays, or is replaced by one for each cell to which its first pattern amounts. -/
theorem exists_of_mem_rows {ty : Ty} {rows normalized : List Row}
    (hrows : (C.normalize ty rows).value? = some normalized) {row : Row} (hmem : row ∈ rows) :
    row ∈ normalized ∨ ∃ p tail cells, row = some p :: tail ∧
      (C.normalizeHead ty p).value? = some cells ∧
      ∀ cell ∈ cells, cell :: tail ∈ normalized := by
  induction rows generalizing normalized with
  | nil => exact absurd hmem List.not_mem_nil
  | cons first rows ih =>
      have later : ∀ {front rest : List Row}, (C.normalize ty rows).value? = some rest →
          front ++ rest = normalized → row ∈ rows →
          row ∈ normalized ∨ ∃ p tail cells, row = some p :: tail ∧
            (C.normalizeHead ty p).value? = some cells ∧
            ∀ cell ∈ cells, cell :: tail ∈ normalized := by
        rintro front rest hrest rfl hmem
        rcases ih hrest hmem with hkept | ⟨p, tail, cells, heq, hcells, hall⟩
        · exact .inl (List.mem_append_right front hkept)
        · exact .inr ⟨p, tail, cells, heq, hcells,
            fun cell hcell => List.mem_append_right front (hall cell hcell)⟩
      have unchanged : (C.normalize ty (first :: rows)).value? =
            (C.normalize ty rows).value?.map (first :: ·) →
          row ∈ normalized ∨ ∃ p tail cells, row = some p :: tail ∧
            (C.normalizeHead ty p).value? = some cells ∧
            ∀ cell ∈ cells, cell :: tail ∈ normalized := by
        intro heq
        rw [heq, Option.map_eq_some_iff] at hrows
        obtain ⟨rest, hrest, hcons⟩ := hrows
        rcases List.mem_cons.1 hmem with rfl | hmem
        · exact .inl (hcons ▸ List.mem_cons_self)
        · exact later hrest (show [first] ++ rest = normalized from hcons) hmem
      cases first with
      | nil => exact unchanged (Query.value?_map _ _)
      | cons cell tail =>
          cases cell with
          | none => exact unchanged (Query.value?_map _ _)
          | some p =>
              obtain ⟨cells, rest, hcells, hrest, happend⟩ := normalize_cons_eq_some.1 hrows
              rcases List.mem_cons.1 hmem with rfl | hmem
              · refine .inr ⟨p, tail, cells, rfl, hcells, fun cell hcell => ?_⟩
                rw [← happend]
                exact List.mem_append_left rest (List.mem_map_of_mem hcell)
              · exact later hrest happend hmem

/-- A vector of values that a row accepts is accepted by a normalized row. -/
theorem normalize_complete {ty : Ty} {rows normalized : List Row}
    (hrows : (C.normalize ty rows).value? = some normalized) {row : Row} (hmem : row ∈ rows)
    {v : Value} {values : List Value}
    (hrow : C.hierarchy.decls.RowAccepts row (v :: values)) :
    ∃ row ∈ normalized, C.hierarchy.decls.RowAccepts row (v :: values) := by
  rcases exists_of_mem_rows hrows hmem with hkept | ⟨p, tail, cells, rfl, hcells, hall⟩
  · exact ⟨row, hkept, hrow⟩
  · cases hrow with
    | cons hhead htail =>
        obtain ⟨cell, hcell, haccepts⟩ := normalizeHead_complete hcells hhead
        exact ⟨cell :: tail, hall cell hcell, .cons haccepts htail⟩

/-- No head at a type that is not closed accepts a value. -/
theorem HeadAt.closed {D : Declarations} {p : Pattern} {v : Value} (hp : HeadAt D v.ty p)
    (hv : D.IsValue v) (h : D.Accepts p v) : D.isClosed v.ty = true := by
  cases hclosed : D.isClosed v.ty with
  | true => rfl
  | false =>
      obtain ⟨t, rfl⟩ : ∃ t, v = .atom t := ⟨v.ty, Declarations.eq_atom_of_not_closed hv hclosed⟩
      cases h with
      | wildcard | binding | rest | named | branch => exact nomatch hp
      | typed hu hbelow =>
          obtain rfl := List.mem_singleton.1 hu
          cases hp with
          | typed n p ht => exact absurd hbelow ht
      | literal hcore => exact nomatch hcore
      | variant hcore => exact nomatch hcore
      | singleton hcore => exact nomatch hcore
      | fields hcore => exact nomatch hcore
      | elements hcore => exact nomatch hcore

theorem leaves_ne_nil (t : Ty) : t.leaves ≠ [] := by
  induction t with
  | union a b iha _ => exact fun h => iha (List.append_eq_nil_iff.1 h).1
  | prim p => exact List.cons_ne_nil _ _
  | lit v => exact List.cons_ne_nil _ _
  | app d args _ => exact List.cons_ne_nil _ _
  | param o i => exact List.cons_ne_nil _ _

/-- A type that is closed is split. -/
theorem not_closed_of_split {ty : Ty} {ps : List Pattern}
    (hsplit : (C.split ty ps).value? = some none) : C.hierarchy.decls.isClosed ty = false := by
  cases hclosed : C.hierarchy.decls.isClosed ty with
  | false => rfl
  | true =>
      unfold split at hsplit
      rw [if_pos hclosed, Query.value?_bind_eq_some] at hsplit
      obtain ⟨subtypes, hsubtypes, hsplit⟩ := hsplit
      cases subtypes with
      | cons s subtypes => exact nomatch Option.some.inj hsplit
      | nil =>
          rw [List.isEmpty_nil, if_pos rfl] at hsplit
          cases ty with
          | app d args =>
              dsimp only at hsplit
              split at hsplit
              all_goals exact nomatch Option.some.inj hsplit
          | prim p =>
              cases p with
              | bool => exact nomatch Option.some.inj hsubtypes
              | never | unit => exact nomatch Option.some.inj hsplit
              | _ => exact nomatch hclosed
          | lit l => exact nomatch Option.some.inj hsplit
          | union a b =>
              have hmembers : (Ty.union a b).leaves.eraseDups = [] := Option.some.inj hsubtypes
              obtain ⟨s, hs⟩ := List.exists_mem_of_ne_nil _ (leaves_ne_nil (.union a b))
              rw [← List.mem_eraseDups, hmembers] at hs
              exact absurd hs List.not_mem_nil
          | param o i => exact nomatch hclosed

/-- Where a column is not split, only rows that match anything in it accept a value. -/
theorem default_complete {ty : Ty} {rows normalized : List Row}
    (hnormalized : (C.normalize ty rows).value? = some normalized)
    (hunsplit : heads normalized = [] ∨
      (C.split ty (heads normalized)).value? = some none) {row : Row}
    (hmem : row ∈ normalized) {v : Value} (hv : C.hierarchy.decls.IsValue v) (hty : v.ty = ty)
    {values : List Value} (hrow : C.hierarchy.decls.RowAccepts row (v :: values)) :
    ∃ tail ∈ defaultRows normalized, C.hierarchy.decls.RowAccepts tail values := by
  subst hty
  cases hrow with
  | @cons cell _ tail _ hhead htail =>
      cases cell with
      | none => exact ⟨tail, mem_defaultRows.2 hmem, htail⟩
      | some p =>
          exfalso
          rcases hunsplit with hheads | hopen
          · have hp : p ∈ heads normalized := List.mem_filterMap.2 ⟨_, hmem, rfl⟩
            rw [hheads] at hp
            exact List.not_mem_nil hp
          · have hclosed := (headAt_of_normalize hnormalized hmem).closed hv hhead
            rw [not_closed_of_split hopen] at hclosed
            exact Bool.false_ne_true hclosed

theorem accepts_of_cells {D : Declarations} {ps : List Pattern} {fields : List Value}
    (hlength : ps.length = fields.length) (h : ∀ q ∈ ps.zip fields, D.Accepts q.1 q.2) :
    D.RowAccepts (ps.map some) fields := by
  rw [Declarations.RowAccepts, List.forall₂_map_left_iff, List.forall₂_iff_zip]
  exact ⟨hlength, fun hq => h _ hq⟩

theorem accepts_replicate {D : Declarations} {n : Nat} {fields : List Value}
    (hlength : n = fields.length) : D.RowAccepts (List.replicate n none) fields := by
  induction fields generalizing n with
  | nil =>
      obtain rfl := hlength
      exact .nil
  | cons v fields ih =>
      obtain rfl := hlength
      exact .cons trivial (ih rfl)

theorem accepts_padded {D : Declarations} {ps : List Pattern} {n : Nat} {fields : List Value}
    (hps : ps.length ≤ n) (hlength : n = fields.length)
    (h : ∀ q ∈ ps.zip fields, D.Accepts q.1 q.2) : D.RowAccepts (padded ps n) fields := by
  rw [← List.take_append_drop ps.length fields]
  apply List.rel_append
  · apply accepts_of_cells
    · rw [List.length_take]
      omega
    · rwa [zip_take_of_length_le (Nat.le_refl _)]
  · apply accepts_replicate
    rw [List.length_drop]
    omega

theorem overlaps_iff {ascribed sub : Ty} {r : Bool}
    (hr : (C.overlaps ascribed sub).value? = some r) :
    C.hierarchy.decls.Overlaps ascribed sub ↔ r = true := by
  unfold overlaps at hr
  obtain ⟨below, hasked, hr⟩ := Query.value?_bind_eq_some.1 hr
  have hiff := Declarations.below_iff_of_isSubtype hasked
  cases below with
  | true =>
      obtain rfl : true = r := Option.some.inj hr
      exact iff_of_true (.inl (hiff.2 rfl)) rfl
  | false =>
      have hnot : ¬ C.hierarchy.decls.Below ascribed sub := fun h =>
        Bool.false_ne_true (hiff.1 h)
      rw [if_neg Bool.false_ne_true] at hr
      unfold Declarations.Overlaps
      split at hr
      · obtain rfl := Option.some.inj hr
        constructor
        · rintro (h | ⟨_, _, _, _, ha, hs, hdescends⟩)
          · exact absurd h hnot
          · obtain ⟨rfl, -⟩ := Ty.app.inj ha
            obtain ⟨rfl, -⟩ := Ty.app.inj hs
            exact hdescends
        · exact fun hdescends => .inr ⟨_, _, _, _, rfl, rfl, hdescends⟩
      · rename_i hshape
        obtain rfl : false = r := Option.some.inj hr
        refine iff_of_false ?_ Bool.false_ne_true
        rintro (h | ⟨a, as, s, ss, rfl, rfl, -⟩)
        · exact hnot h
        · exact hshape a as s ss rfl rfl

/-- An ascription that accepts a value of a direct subtype is kept, or its part is. -/
theorem ascription_complete {n : PatternNode} {part : Pattern} {t outer : Ty} {inner : Value}
    {arity : Nat} {found : Option Row}
    (hfound : (C.specialize (.typed n part t) (.subtype inner.ty) arity).value? = some found)
    (ht : C.hierarchy.decls.Decisive t) (hv : C.hierarchy.decls.IsValue (.viewed outer inner))
    {u : Value} (hu : u ∈ inner.views) (hbelow : C.hierarchy.decls.Below u.ty t)
    (hpart : C.hierarchy.decls.Accepts part u) :
    ∃ cells, found = some cells ∧ C.hierarchy.decls.RowAccepts cells [inner] := by
  unfold specialize at hfound
  obtain ⟨below, hasked, hfound⟩ := Query.value?_bind_eq_some.1 hfound
  have hiff := Declarations.below_iff_of_isSubtype hasked
  cases below with
  | true =>
      obtain rfl : some [some part] = found := Option.some.inj hfound
      exact ⟨_, rfl, .cons (hpart.of_view hu) .nil⟩
  | false =>
      rw [if_neg Bool.false_ne_true] at hfound
      obtain ⟨overlap, hoverlap, hfound⟩ := Query.value?_bind_eq_some.1 hfound
      -- only here could a way of making values be dropped that the ascription accepts
      have hmeets : C.hierarchy.decls.Overlaps t inner.ty := by
        rcases ht outer inner hv u hu hbelow with h | h
        · exact absurd (hiff.1 h) Bool.false_ne_true
        · exact h
      rw [overlaps_iff hoverlap] at hmeets
      subst hmeets
      obtain rfl : some [some (.typed n part t)] = found := Option.some.inj hfound
      exact ⟨_, rfl, .cons (.typed hu hbelow hpart) .nil⟩

/-- A deconstruction of a value of a direct subtype is kept. -/
theorem deconstruction_complete (hD : C.hierarchy.decls.ChildrenInherit) {p : Pattern}
    {inner : Value} {e : DataId} {es : List Ty} {found : Option Row}
    (hfound : (match inner.ty with
      | .app d _ =>
        pure (if C.hierarchy.decls.isDescendant e d then some [some p] else none)
      | _ => pure none : Query (Option Row)).value? = some found)
    (hinner : C.hierarchy.decls.IsValue inner) (hunion : ∀ a b, inner.ty ≠ .union a b)
    (hcore : inner.core.ty = .app e es) (h : C.hierarchy.decls.Accepts p inner) :
    ∃ cells, found = some cells ∧ C.hierarchy.decls.RowAccepts cells [inner] := by
  obtain ⟨d, args, hd, hreach⟩ := Declarations.app_of_core hD hinner hunion hcore
  rw [hd] at hfound
  dsimp only at hfound
  rw [if_pos (Declarations.isDescendant_iff.2 hreach)] at hfound
  obtain rfl := Option.some.inj hfound
  exact ⟨_, rfl, .cons h .nil⟩

/-- A head that accepts a value of a direct subtype is kept, or its part is. -/
theorem specialize_subtype_complete (hD : C.hierarchy.decls.ChildrenInherit) {p : Pattern}
    {outer : Ty} {inner : Value} {arity : Nat} {found : Option Row}
    (hfound : (C.specialize p (.subtype inner.ty) arity).value? = some found)
    (hhead : HeadAt C.hierarchy.decls outer p) (hdecides : C.hierarchy.decls.Decides p)
    (hv : C.hierarchy.decls.IsValue (.viewed outer inner))
    (h : C.hierarchy.decls.Accepts p (.viewed outer inner)) :
    ∃ cells, found = some cells ∧ C.hierarchy.decls.RowAccepts cells [inner] := by
  obtain ⟨hinner, hunion⟩ := hv.inner
  cases hhead with
  | typed n part ht =>
      cases h with
      | typed hu hbelow hpart =>
          rcases List.mem_cons.1 hu with rfl | hu
          · exact absurd hbelow ht
          · exact ascription_complete hfound hdecides.decisive hv hu hbelow hpart
  | literal n l =>
      cases h with
      | literal hcore =>
          unfold specialize at hfound
          obtain ⟨t, ht, hfound⟩ := Query.value?_bind_eq_some.1 hfound
          obtain rfl : Ty.ofLiteral l = t := Option.some.inj ht
          obtain ⟨below, hasked, hfound⟩ := Query.value?_bind_eq_some.1 hfound
          have hbelow := Declarations.below_of_core_literal hD hinner hunion hcore
          obtain rfl := (Declarations.below_iff_of_isSubtype hasked).1 hbelow
          obtain rfl : some [some (.literal n l)] = found := Option.some.inj hfound
          exact ⟨_, rfl, .cons (.literal hcore) .nil⟩
  | variant n d ps =>
      unfold specialize at hfound
      cases h with
      | variant hcore hlength hparts =>
          exact deconstruction_complete hD hfound hinner hunion (congrArg Value.ty hcore)
            (.variant hcore hlength hparts)
      | singleton hcore =>
          exact deconstruction_complete hD hfound hinner hunion (congrArg Value.ty hcore)
            (.singleton hcore)
  | extractor n d ps =>
      unfold specialize at hfound
      cases h with
      | fields hcore hlength hparts =>
          exact deconstruction_complete hD hfound hinner hunion (congrArg Value.ty hcore)
            (.fields hcore hlength hparts)
      | elements hcore hlength hparts =>
          exact deconstruction_complete hD hfound hinner hunion (congrArg Value.ty hcore)
            (.elements hcore hlength hparts)

theorem found_of_holds {c : Prop} [Decidable c] {cells : Row} {found : Option Row}
    (hfound : (pure (if c then some cells else none) : Query (Option Row)).value? = some found)
    (hc : c) : found = some cells := by
  rw [if_pos hc] at hfound
  exact (Option.some.inj hfound).symm

/-- The head of an ascription accepts no value that is viewed at its type only. -/
theorem HeadAt.not_below {D : Declarations} {n : PatternNode} {p : Pattern} {t : Ty}
    {u v : Value} (hhead : HeadAt D v.ty (.typed n p t)) (hu : u ∈ [v]) : ¬ D.Below u.ty t := by
  rw [List.mem_singleton.1 hu]
  cases hhead with
  | typed _ _ ht => exact ht

/-- A value that a head at its type accepts is made from fields that the cells accept to which
the head is specialized. An open sequence is longer than what the head fixes. -/
theorem specialize_complete (hD : C.hierarchy.decls.ChildrenInherit) {p : Pattern}
    {ctor : Ctor} {v : Value} {fields : List Value} {found : Option Row}
    (hfound : (C.specialize p ctor fields.length).value? = some found)
    (hhead : HeadAt C.hierarchy.decls v.ty p) (hdecides : C.hierarchy.decls.Decides p)
    (hmade : ctor.Makes v fields) (hv : C.hierarchy.decls.IsValue v)
    (hshort : ∀ n k, ctor = .atLeast n → fixedLength? p = some k → k < n)
    (h : C.hierarchy.decls.Accepts p v) :
    ∃ cells, found = some cells ∧ C.hierarchy.decls.RowAccepts cells fields := by
  cases hmade with
  | subtype outer inner => exact specialize_subtype_complete hD hfound hhead hdecides hv h
  | product t parts =>
      cases h with
      | wildcard | binding | rest | named | branch => exact nomatch hhead
      | typed hu hbelow => exact absurd hbelow (hhead.not_below hu)
      | literal hcore | singleton hcore | elements hcore => exact nomatch hcore
      | variant hcore hlength hparts | fields hcore hlength hparts =>
          obtain ⟨rfl, rfl⟩ := Value.tuple.inj hcore
          exact ⟨_, found_of_holds hfound ⟨rfl, hlength⟩, accepts_of_cells hlength hparts⟩
  | singleton t =>
      cases h with
      | wildcard | binding | rest | named | branch => exact nomatch hhead
      | typed hu hbelow => exact absurd hbelow (hhead.not_below hu)
      | variant hcore | fields hcore | elements hcore => exact nomatch hcore
      | literal hcore =>
          obtain rfl := Value.single.inj hcore
          obtain ⟨t, ht, hfound⟩ := Query.value?_bind_eq_some.1 hfound
          exact ⟨[], found_of_holds hfound (Option.some.inj ht).symm, .nil⟩
      | singleton hcore =>
          obtain rfl := Value.single.inj hcore
          exact ⟨[], found_of_holds hfound rfl, .nil⟩
  | exactly t elements =>
      cases h with
      | wildcard | binding | rest | named | branch => exact nomatch hhead
      | typed hu hbelow => exact absurd hbelow (hhead.not_below hu)
      | literal hcore | variant hcore | singleton hcore | fields hcore => exact nomatch hcore
      | elements hcore hlength hparts =>
          obtain ⟨-, rfl⟩ := Value.sequence.inj hcore
          refine ⟨_, found_of_holds hfound hlength, accepts_padded ?_ rfl hparts⟩
          split at hlength
          · exact hlength
          · exact Nat.le_of_eq hlength
  | @atLeast t n elements hn =>
      cases h with
      | wildcard | binding | rest | named | branch => exact nomatch hhead
      | typed hu hbelow => exact absurd hbelow (hhead.not_below hu)
      | literal hcore | variant hcore | singleton hcore | fields hcore => exact nomatch hcore
      | @elements _ _ _ ps _ _ hcore hlength hparts =>
          obtain ⟨-, rfl⟩ := Value.sequence.inj hcore
          have hlt := hshort n _ rfl rfl
          -- a head without a rest accepts one length only, which is split off on its own
          have hopen : (fixedElements ps).2 = true := by
            refine Classical.byContradiction fun hfixed => ?_
            rw [if_neg hfixed] at hlength
            omega
          have hkept : found = some (padded (fixedElements ps).1 n) :=
            found_of_holds hfound ⟨hopen, Nat.le_of_lt hlt⟩
          refine ⟨_, hkept, ?_⟩
          refine accepts_padded (Nat.le_of_lt hlt) (List.length_take_of_le hn).symm ?_
          rwa [zip_take_of_length_le (Nat.le_of_lt hlt)]

theorem eq_sequenceCtors_of_atLeast {D : Declarations} {ps : List Pattern} {t : Ty}
    {ctors : List Ctor} (hctors : leafCtors D ps t = some ctors) {n : Nat}
    (hn : Ctor.atLeast n ∈ ctors) : ctors = sequenceCtors ps := by
  unfold leafCtors at hctors
  split at hctors
  case h_1 d args =>
    split at hctors
    case h_4 => exact (Option.some.inj hctors).symm
    all_goals
      obtain rfl := Option.some.inj hctors
      simp at hn
  case h_5 => exact nomatch hctors
  all_goals
    obtain rfl := Option.some.inj hctors
    simp at hn

/-- The open sequences into which a column is split are longer than what a head fixes. -/
theorem lt_of_atLeast {ty : Ty} {ps : List Pattern} {ctors : List Ctor}
    (hsplit : (C.split ty ps).value? = some (some ctors)) {n : Nat}
    (hn : Ctor.atLeast n ∈ ctors) {p : Pattern} (hp : p ∈ ps) {k : Nat}
    (hk : fixedLength? p = some k) : k < n := by
  have hsequences : Ctor.atLeast n ∈ sequenceCtors ps := by
    obtain ⟨-, subtypes, -, hleaf, hnode⟩ := split_cases hsplit
    by_cases hempty : subtypes = []
    · rwa [eq_sequenceCtors_of_atLeast (hleaf hempty) hn] at hn
    · rw [hnode hempty] at hn
      obtain ⟨s, -, hs⟩ := List.mem_map.1 hn
      exact nomatch hs
  have hmem : k ∈ ps.filterMap fixedLength? := List.mem_filterMap.2 ⟨p, hp, hk⟩
  unfold sequenceCtors at hsequences
  split at hsequences
  · rename_i hnone
    rw [List.max?_eq_none_iff.1 hnone] at hmem
    exact absurd hmem List.not_mem_nil
  · rename_i longest hlongest
    have hle : k ≤ longest := (List.max?_eq_some_iff.1 hlongest).2 k hmem
    have hn : n = longest + 1 := by simpa using hsequences
    omega

/-- A vector of values that a row accepts is, taken apart, accepted by the row that it is
specialized to. -/
theorem specializeRow_complete (hD : C.hierarchy.decls.ChildrenInherit) {ctor : Ctor}
    {v : Value} {fields values : List Value} {row : Row} {found : Option Row}
    (hfound : (C.specializeRow ctor fields.length row).value? = some found)
    (hhead : ∀ p tail, row = some p :: tail → HeadAt C.hierarchy.decls v.ty p)
    (hdecides : RowDecides C.hierarchy.decls row) (hmade : ctor.Makes v fields)
    (hv : C.hierarchy.decls.IsValue v)
    (hshort : ∀ p tail, row = some p :: tail → ∀ n k, ctor = .atLeast n →
      fixedLength? p = some k → k < n)
    (h : C.hierarchy.decls.RowAccepts row (v :: values)) :
    ∃ specialized, found = some specialized ∧
      C.hierarchy.decls.RowAccepts specialized (fields ++ values) := by
  cases h with
  | @cons cell _ tail _ hcell htail =>
      cases cell with
      | none =>
          obtain rfl := Option.some.inj hfound
          exact ⟨_, rfl, List.rel_append (accepts_replicate rfl) htail⟩
      | some p =>
          rw [specializeRow, Query.value?_bind_eq_some] at hfound
          obtain ⟨cells?, hcells, hfound⟩ := hfound
          obtain ⟨cells, rfl, haccepts⟩ := specialize_complete hD hcells (hhead p tail rfl)
            (hdecides p List.mem_cons_self) hmade hv (hshort p tail rfl) hcell
          obtain rfl := Option.some.inj hfound
          exact ⟨_, rfl, List.rel_append haccepts htail⟩

theorem mem_of_mem_fixedElements {ps : List Pattern} {p : Pattern}
    (hp : p ∈ (fixedElements ps).1) : p ∈ ps := by
  unfold fixedElements at hp
  split at hp
  · split at hp
    · exact List.dropLast_subset ps hp
    · exact hp
  · exact hp

theorem mem_of_some_mem_padded {ps : List Pattern} {n : Nat} {p : Pattern}
    (hp : some p ∈ padded ps n) : p ∈ ps := by
  rcases List.mem_append.1 hp with hp | hp
  · obtain ⟨q, hq, heq⟩ := List.mem_map.1 hp
    exact Option.some.inj heq ▸ hq
  · exact nomatch List.eq_of_mem_replicate hp

/-- The ascriptions in the cells to which a pattern is specialized are decisive. -/
theorem Specializes.decides {p : Pattern} {ctor : Ctor} {arity : Nat} {cells : Row}
    (hcells : C.Specializes p ctor arity cells) (h : C.hierarchy.decls.Decides p) :
    RowDecides C.hierarchy.decls cells := by
  intro q hq
  cases hcells with
  | part =>
      obtain rfl := Option.some.inj (List.mem_singleton.1 hq)
      exact h.part
  | kept =>
      obtain rfl := Option.some.inj (List.mem_singleton.1 hq)
      exact h
  | literal | singleton => exact absurd hq List.not_mem_nil
  | variant n d args ps =>
      obtain ⟨q', hq', heq⟩ := List.mem_map.1 hq
      obtain rfl := Option.some.inj heq
      exact h.mono fun _ => .variant hq'
  | fields n d args ps =>
      obtain ⟨q', hq', heq⟩ := List.mem_map.1 hq
      obtain rfl := Option.some.inj heq
      exact h.mono fun _ => .extractor hq'
  | exactly | atLeast =>
      exact h.mono fun _ => .extractor (mem_of_mem_fixedElements (mem_of_some_mem_padded hq))

theorem rowDecides_specializeRow {ctor : Ctor} {arity : Nat} {row specialized : Row}
    (hrow : (C.specializeRow ctor arity row).value? = some (some specialized))
    (hdecides : RowDecides C.hierarchy.decls row) :
    RowDecides C.hierarchy.decls specialized := by
  intro q hq
  rcases specializeRow_cases hrow with ⟨tail, rfl, rfl⟩ | ⟨p, tail, cells, rfl, hcells, rfl⟩
  · rcases List.mem_append.1 hq with hq | hq
    · exact nomatch List.eq_of_mem_replicate hq
    · exact hdecides q (List.mem_cons_of_mem _ hq)
  · rcases List.mem_append.1 hq with hq | hq
    · exact hcells.decides (hdecides p List.mem_cons_self) q hq
    · exact hdecides q (List.mem_cons_of_mem _ hq)

end Checker

end CaseCover
