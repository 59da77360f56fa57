import CaseCover.Proofs.Check.AcceptingRows
import CaseCover.Proofs.Check.Limits
import CaseCover.Proofs.Check.SequenceNames
import CaseCover.Proofs.Hierarchy.Descent

/-!
Nesting. A column remembers the data types through which it was reached, those of the values of
which it is a field as well as those that it was viewed at; a search stops where one of them
occurs too often. Where no data type inherits from itself, a value is viewed at each data type at
most once before its fields are entered (`Entered`), and each pattern for the fields is lower than
the pattern that it is a part of (`Specializes.height_le`). So the depth to which a search unfolds
types is bounded by the height of its patterns.
-/

namespace CaseCover

namespace Pattern

mutual

/-- How many values inside each other a pattern has to look at before it can fail to match. -/
def refutableHeight : Pattern → Nat
  | .wildcard _ | .binding _ _ | .rest _ => 0
  | .named _ _ p => p.refutableHeight
  | .typed _ p _ => max 1 p.refutableHeight
  | .literal _ _ => 1
  | .variant _ _ ps | .extractor _ _ ps => 1 + greatestHeight ps
  | .alternation _ ps => greatestHeight ps

/-- The greatest height of a list of patterns. -/
def greatestHeight : List Pattern → Nat
  | [] => 0
  | p :: ps => max p.refutableHeight (greatestHeight ps)

end

theorem le_greatestHeight {p : Pattern} {ps : List Pattern} (hp : p ∈ ps) :
    p.refutableHeight ≤ greatestHeight ps := by
  induction ps with
  | nil => exact absurd hp List.not_mem_nil
  | cons q ps ih =>
      rw [greatestHeight]
      rcases List.mem_cons.1 hp with rfl | hp
      · exact Nat.le_max_left ..
      · exact Nat.le_trans (ih hp) (Nat.le_max_right ..)

end Pattern

namespace Search

variable {α β : Type}

/-- The search never stops because a type is nested too often. -/
def Shallow (m : Search α) : Prop :=
  ∀ left t, m.outcome left ≠ some (.error (.unfoldDepth t))

theorem shallow_pure (a : α) : Shallow (pure a) := by
  intro left t h
  exact nomatch Option.some.inj h

theorem shallow_ask (q : Query α) : Shallow (ask q) := by
  intro left t h
  rw [outcome_ask] at h
  obtain ⟨a, -, ha⟩ := Option.map_eq_some_iff.1 h
  exact nomatch ha

theorem shallow_step : Shallow step := by
  intro left t h
  cases left with
  | zero => exact nomatch Except.error.inj (Option.some.inj h)
  | succ left => exact nomatch Option.some.inj h

theorem Shallow.bind {m : Search α} {f : α → Search β} (hm : m.Shallow)
    (hf : ∀ left a left', m.Yields left a left' → (f a).Shallow) : (m >>= f).Shallow := by
  intro left t h
  rw [outcome_bind] at h
  obtain ⟨found, hfound, hnext⟩ := Option.bind_eq_some_iff.1 h
  cases found with
  | error limit =>
      obtain rfl := Except.error.inj (Option.some.inj hnext)
      exact hm left t hfound
  | ok result => exact hf left result.1 result.2 hfound result.2 t hnext

theorem shallow_ask_bind {q : Query α} {f : α → Search β}
    (hf : ∀ a, q.value? = some a → (f a).Shallow) : (ask q >>= f).Shallow :=
  (shallow_ask q).bind fun _ a _ ha => hf a (yields_ask.1 ha).1

end Search

namespace Checker

open Relation (TransGen)

variable {D : Declarations}

/-- A column whose values are enclosed by as many values as its level says: each data type that it
remembers was entered once a level at most, but for those at which its value was viewed last. Its
data type inherits from these, and each of them is remembered once. -/
inductive Entered (D : Declarations) : Column → Nat → Prop
  | mk {t : Ty} {viewed outer : List DataId} {level : Nat} (hviewed : viewed.Nodup)
      (habove : ∀ d ∈ viewed, ∃ a args, t = .app a args ∧ TransGen D.Inherits a d)
      (houter : ∀ d, outer.count d ≤ level) : Entered D ⟨t, viewed ++ outer⟩ level

/-- A column that is entered by way of a field. -/
theorem entered_field {enclosing : List DataId} {level : Nat}
    (h : ∀ d, enclosing.count d ≤ level) (t : Ty) : Entered D ⟨t, enclosing⟩ level :=
  @Entered.mk D t [] enclosing level List.nodup_nil (fun _ hd => absurd hd List.not_mem_nil) h

/-- A column's own data type is not one of those at which its value was viewed. -/
theorem not_viewed (hD : D.Acyclic) {a : DataId} {args : List Ty} {viewed : List DataId}
    (habove : ∀ d ∈ viewed, ∃ b args', Ty.app a args = .app b args' ∧ TransGen D.Inherits b d) :
    a ∉ viewed := by
  intro ha
  obtain ⟨b, args', hb, hinherits⟩ := habove a ha
  obtain ⟨rfl, -⟩ := Ty.app.inj hb
  exact hD a hinherits

/-- A column's own data type encloses it once a level at most. -/
theorem Entered.count_le (hD : D.Acyclic) {a : DataId} {args : List Ty} {enclosing : List DataId}
    {level : Nat} (h : Entered D ⟨.app a args, enclosing⟩ level) :
    enclosing.count a ≤ level := by
  cases h with
  | @mk _ viewed outer _ hviewed habove houter =>
      rw [List.count_append, List.count_eq_zero_of_not_mem (not_viewed hD habove), Nat.zero_add]
      exact houter a

/-- Types are nested one level more once a value's own data type encloses them. -/
theorem Entered.count_cons_le (hD : D.Acyclic) {a : DataId} {args : List Ty}
    {enclosing : List DataId} {level : Nat} (h : Entered D ⟨.app a args, enclosing⟩ level)
    (d : DataId) : (a :: enclosing).count d ≤ level + 1 := by
  have hself := h.count_le hD
  cases h with
  | @mk _ viewed outer _ hviewed habove houter =>
      by_cases hd : a = d
      · subst hd
        rw [List.count_cons_self]
        exact Nat.succ_le_succ hself
      · rw [List.count_cons_of_ne hd, List.count_append]
        have hone := List.nodup_iff_count.1 hviewed d
        have hmany := houter d
        omega

/-- A column of a direct subtype is on the level of the column that is viewed at it. -/
theorem Entered.subtype (hD : D.Acyclic) (hchildren : D.ChildrenInherit) {t s : Ty}
    {subtypes : List Ty} {enclosing : List DataId} {level : Nat}
    (h : Entered D ⟨t, enclosing⟩ level) (hsubtypes : D.DirectSubtypes t subtypes)
    (hs : s ∈ subtypes) : Entered D ⟨s, t.constructor?.toList ++ enclosing⟩ level := by
  cases h with
  | @mk _ viewed outer _ hviewed habove houter =>
      have hoff : ¬ (∃ a args, t = .app a args) → viewed = [] := by
        intro hnot
        refine List.eq_nil_iff_forall_not_mem.2 fun d hd => ?_
        obtain ⟨a, args, ht, -⟩ := habove d hd
        exact hnot ⟨a, args, ht⟩
      cases t with
      | app a args =>
          obtain ⟨c, cs, rfl, hc⟩ := Declarations.child_of_directSubtype hsubtypes hs
          have hinherits : D.Inherits c a := hchildren a c hc
          have hfresh : (a :: viewed).Nodup :=
            List.nodup_cons.2 ⟨not_viewed hD habove, hviewed⟩
          refine @Entered.mk D _ (a :: viewed) outer level hfresh ?_ houter
          intro d hd
          refine ⟨c, cs, rfl, ?_⟩
          rcases List.mem_cons.1 hd with rfl | hd
          · exact .single hinherits
          · obtain ⟨b, args', hb, habove⟩ := habove d hd
            obtain ⟨rfl, -⟩ := Ty.app.inj hb
            exact .head hinherits habove
      | prim _ | lit _ | union _ _ | param _ _ =>
          rw [hoff (by simp)]
          exact entered_field houter s

end Checker

/-- The number of levels that are entered with the fields of values made in a way. -/
def Ctor.levels : Ctor → Nat
  | .subtype _ => 0
  | .product _ | .singleton _ | .exactly _ | .atLeast _ => 1

namespace Checker

open Search (Shallow shallow_pure shallow_ask_bind shallow_step)

variable {C : Checker} {D : Declarations}

/-- The columns for the fields of a column's values are entered as many levels further as their
way of being made says. -/
theorem Entered.fields (hD : D.Acyclic) (hchildren : D.ChildrenInherit) {ty : Ty} {ctor : Ctor}
    {types : List Ty} (hmade : MadeBy D ty ctor types) {enclosing : List DataId} {level : Nat}
    (h : Entered D ⟨ty, enclosing⟩ level) :
    ∀ t ∈ types, Entered D ⟨t, ty.constructor?.toList ++ enclosing⟩ (level + ctor.levels) := by
  intro t ht
  cases hmade with
  | subtype hsubtypes hs =>
      rw [List.mem_singleton.1 ht]
      exact h.subtype hD hchildren hsubtypes hs
  | singleton => exact absurd ht List.not_mem_nil
  | product | exactly | atLeast => exact entered_field (h.count_cons_le hD) t

/-- The patterns for the fields are lower than the pattern that they are parts of, by the levels
that are entered. -/
theorem Specializes.height_le {p : Pattern} {ctor : Ctor} {arity : Nat} {cells : Row}
    (h : C.Specializes p ctor arity cells) {q : Pattern} (hq : some q ∈ cells) :
    q.refutableHeight + ctor.levels ≤ p.refutableHeight := by
  have hpart {ps : List Pattern} (hq : q ∈ ps) :
      q.refutableHeight + 1 ≤ 1 + Pattern.greatestHeight ps := by
    have := Pattern.le_greatestHeight hq
    omega
  have hfield {ps : List Pattern} (hq : some q ∈ ps.map some) : q ∈ ps := by
    obtain ⟨r, hr, heq⟩ := List.mem_map.1 hq
    exact Option.some.inj heq ▸ hr
  cases h with
  | part =>
      obtain rfl := Option.some.inj (List.mem_singleton.1 hq)
      exact Nat.le_max_right ..
  | kept =>
      obtain rfl := Option.some.inj (List.mem_singleton.1 hq)
      exact Nat.le_refl _
  | literal | singleton => exact absurd hq List.not_mem_nil
  | variant | fields => exact hpart (hfield hq)
  | exactly | atLeast => exact hpart (mem_of_mem_fixedElements (mem_of_some_mem_padded hq))

/-- What a pattern amounts to at a type is no higher than the pattern, and looks at the value. -/
theorem height_of_normalizeHead {ty : Ty} {p : Pattern} {cells : List Cell}
    (hcells : (C.normalizeHead ty p).value? = some cells) {q : Pattern} (hq : some q ∈ cells) :
    q.refutableHeight ≤ p.refutableHeight ∧ 0 < q.refutableHeight := by
  have hself {r : Pattern} {cells : List Cell}
      (hcells : (pure [some r] : Query (List Cell)).value? = some cells) (hq : some q ∈ cells)
      (hr : 0 < r.refutableHeight) :
      q.refutableHeight ≤ r.refutableHeight ∧ 0 < q.refutableHeight := by
    obtain rfl := Option.some.inj hcells
    obtain rfl := Option.some.inj (List.mem_singleton.1 hq)
    exact ⟨Nat.le_refl _, hr⟩
  induction p generalizing cells with
  | wildcard | binding | rest =>
      obtain rfl := Option.some.inj hcells
      exact nomatch List.mem_singleton.1 hq
  | named n x p ih =>
      rw [normalizeHead] at hcells
      exact ih hcells hq
  | typed n p ascribed ih =>
      rw [normalizeHead, Query.value?_bind_eq_some] at hcells
      obtain ⟨below, -, hcells⟩ := hcells
      cases below with
      | true =>
          obtain ⟨hle, hpos⟩ := ih hcells hq
          exact ⟨Nat.le_trans hle (Nat.le_max_right ..), hpos⟩
      | false => exact hself hcells hq (Nat.lt_of_lt_of_le Nat.zero_lt_one (Nat.le_max_left ..))
  | literal => exact hself hcells hq Nat.zero_lt_one
  | variant | extractor =>
      refine hself hcells hq ?_
      rw [Pattern.refutableHeight]
      omega
  | alternation n branches ih =>
      rw [normalizeHead] at hcells
      obtain ⟨p, hp, found, hfound, hmem⟩ := mem_normalizeBranches hcells hq
      obtain ⟨hle, hpos⟩ := ih p hp hfound hmem
      exact ⟨Nat.le_trans hle (Pattern.le_greatestHeight hp), hpos⟩

/-- The pattern of a cell on a level of nesting is not so high that it reaches beyond a limit. -/
def CellWithin (limit : Nat) (cell : Cell) (level : Nat) : Prop :=
  ∀ p, cell = some p → p.refutableHeight + level ≤ limit

/-- The patterns of a row for columns on some levels do not reach beyond a limit. -/
abbrev RowWithin (limit : Nat) : Row → List Nat → Prop := List.Forall₂ (CellWithin limit)

section Rows

variable {limit level : Nat} {levels : List Nat}

theorem forall₂_replicate {α β : Type} {R : α → β → Prop} {as : List α} {b : β} {n : Nat}
    (has : as.length = n) (h : ∀ a ∈ as, R a b) : List.Forall₂ R as (List.replicate n b) := by
  subst has
  induction as with
  | nil => exact .nil
  | cons a as ih =>
      exact .cons (h a List.mem_cons_self) (ih fun c hc => h c (List.mem_cons_of_mem a hc))

/-- Normalized rows stay within a limit; where one of them looks at the first value, this is on a
lower level. -/
theorem within_normalize {ty : Ty} {rows normalized : List Row}
    (hrows : ∀ row ∈ rows, RowWithin limit row (level :: levels))
    (hnormalized : (C.normalize ty rows).value? = some normalized) :
    (∀ row ∈ normalized, RowWithin limit row (level :: levels)) ∧
      (heads normalized ≠ [] → level < limit) := by
  have hcell : ∀ p tail cells q, some p :: tail ∈ rows →
      (C.normalizeHead ty p).value? = some cells → some q ∈ cells →
      q.refutableHeight + level ≤ limit ∧ level < limit ∧ RowWithin limit tail levels := by
    intro p tail cells q hp hcells hq
    obtain ⟨hle, hpos⟩ := height_of_normalizeHead hcells hq
    cases hrows _ hp with
    | cons hhead htail =>
        have hlimit := hhead p rfl
        exact ⟨by omega, by omega, htail⟩
  constructor
  · intro row hrow
    rcases mem_normalize hnormalized hrow with
      ⟨hkept, -⟩ | ⟨p, tail, cells, cell, hp, hcells, hmem, rfl⟩
    · exact hrows row hkept
    · cases hrows _ hp with
      | cons _ htail =>
          refine .cons ?_ htail
          rintro q rfl
          exact (hcell p tail cells q hp hcells hmem).1
  · intro hheads
    obtain ⟨q, hq⟩ := List.exists_mem_of_ne_nil _ hheads
    obtain ⟨row, hrow, hhead⟩ := List.mem_filterMap.1 hq
    obtain ⟨tail, rfl⟩ : ∃ tail, row = some q :: tail := by
      cases row with
      | nil => exact nomatch hhead
      | cons cell tail =>
          obtain rfl : cell = some q := hhead
          exact ⟨tail, rfl⟩
    rcases mem_normalize hnormalized hrow with
      ⟨-, hnot⟩ | ⟨p, tail', cells, cell, hp, hcells, hmem, heq⟩
    · exact absurd rfl (hnot q tail)
    · obtain ⟨rfl, rfl⟩ := List.cons.inj heq
      exact (hcell p _ cells q hp hcells hmem).2.1

theorem within_defaultRows {rows : List Row}
    (hrows : ∀ row ∈ rows, RowWithin limit row (level :: levels)) :
    ∀ row ∈ defaultRows rows, RowWithin limit row levels := by
  intro row hrow
  cases hrows _ (mem_defaultRows.1 hrow) with
  | cons _ htail => exact htail

/-- A specialized row stays within a limit on the levels of the fields. -/
theorem within_specializeRow {ctor : Ctor} {types : List Ty} (hfits : ctor.Fits types.length)
    {row specialized : Row} (hrow : RowWithin limit row (level :: levels))
    (hspecialized : (C.specializeRow ctor types.length row).value? = some (some specialized)) :
    RowWithin limit specialized
      (List.replicate types.length (level + ctor.levels) ++ levels) := by
  rcases specializeRow_cases hspecialized with
    ⟨tail, rfl, rfl⟩ | ⟨p, tail, cells, rfl, hcells, rfl⟩
  · cases hrow with
    | cons _ htail =>
        refine List.rel_append (forall₂_replicate List.length_replicate ?_) htail
        intro cell hcell p hp
        exact nomatch hp.symm.trans (List.eq_of_mem_replicate hcell)
  · cases hrow with
    | cons hhead htail =>
        refine List.rel_append (forall₂_replicate (hcells.length_eq hfits) ?_) htail
        rintro _ hcell q rfl
        have hle := hcells.height_le hcell
        have hlimit := hhead p rfl
        omega

end Rows

section Search

variable (hD : C.hierarchy.decls.Acyclic)
include hD

/-- A column may be split on a level below the limit. -/
theorem shallow_checkDepth {column : Column} {level : Nat}
    (h : Entered C.hierarchy.decls column level) (hlevel : level < C.config.maxUnfoldDepth) :
    (C.checkDepth column).Shallow := by
  obtain ⟨ty, enclosing⟩ := column
  unfold checkDepth
  split
  · rename_i a args hty
    obtain rfl : ty = .app a args := hty
    rw [if_neg (Nat.not_le.2 (Nat.lt_of_le_of_lt (h.count_le hD) hlevel))]
    exact shallow_pure ()
  · exact shallow_pure ()

variable (hchildren : C.hierarchy.decls.ChildrenInherit)
include hchildren

/-- The matrices for the ways of making the values of one column stay within the limit when their
columns are entered. -/
theorem shallow_gapsByCtor {gapsOf : List Row → List Column → Search (List (List Gap))}
    {column : Column} {rest : List Column} {level : Nat} {levels : List Nat}
    (hgapsOf : ∀ rows columns levels, List.Forall₂ (Entered C.hierarchy.decls) columns levels →
      (∀ row ∈ rows, RowWithin C.config.maxUnfoldDepth row levels) →
      (gapsOf rows columns).Shallow)
    (hcolumn : Entered C.hierarchy.decls column level)
    (hrest : List.Forall₂ (Entered C.hierarchy.decls) rest levels) {rows : List Row}
    (hrows : ∀ row ∈ rows, RowWithin C.config.maxUnfoldDepth row (level :: levels))
    {heads : List Pattern} {all : List Ctor}
    (hsplit : (C.split column.ty heads).value? = some (some all)) {ctors : List Ctor}
    (hctors : ∀ ctor ∈ ctors, ctor ∈ all) (known : List (List Gap)) :
    (C.gapsByCtor gapsOf rows column rest ctors known).Shallow := by
  induction ctors generalizing known with
  | nil => exact shallow_pure known
  | cons ctor ctors ih =>
      rw [gapsByCtor]
      refine shallow_ask_bind fun types htypes => ?_
      refine shallow_ask_bind fun specialized hspecialized => ?_
      have hmade := madeBy_of_split hsplit (hctors ctor List.mem_cons_self) htypes
      refine Shallow.bind (hgapsOf _ _
        (List.replicate types.length (level + ctor.levels) ++ levels) ?_ ?_) ?_
      · refine List.rel_append (forall₂_replicate (List.length_map _) ?_) hrest
        intro inner hinner
        obtain ⟨t, ht, rfl⟩ := List.mem_map.1 hinner
        exact Entered.fields hD hchildren hmade hcolumn t ht
      · intro row hrow
        obtain ⟨before, hbefore, hrow⟩ := Query.mem_of_value?_filterMap hspecialized hrow
        exact within_specializeRow (fits_of_fieldTypes htypes) (hrows before hbefore) hrow
      · intro _ found _ _
        dsimp only
        split
        · exact shallow_pure _
        · exact ih (fun c hc => hctors c (List.mem_cons_of_mem ctor hc)) _

/-- A search never stops at a nested type when no pattern reaches beyond the limit. The induction
is on the nesting of matrices; the levels of the columns and the heights of the patterns for them
are what one matrix passes on to the next. -/
theorem shallow_gapsWithin (depth : Nat) {rows : List Row} {columns : List Column}
    {levels : List Nat} (hcolumns : List.Forall₂ (Entered C.hierarchy.decls) columns levels)
    (hrows : ∀ row ∈ rows, RowWithin C.config.maxUnfoldDepth row levels) :
    (C.gapsWithin depth rows columns).Shallow := by
  induction depth generalizing rows columns levels with
  | zero => exact fun _ _ h => nomatch Except.error.inj (Option.some.inj h)
  | succ depth ih =>
      unfold gapsWithin
      refine shallow_step.bind fun _ _ _ _ => ?_
      cases hcolumns with
      | nil => exact shallow_pure _
      | @cons column level rest levels hcolumn hrest =>
          dsimp only
          split
          · exact shallow_pure _
          refine shallow_ask_bind fun normalized hnormalized => ?_
          obtain ⟨hwithin, hlevel⟩ := within_normalize hrows hnormalized
          have hdefault : (C.gapsWithin depth (defaultRows normalized) rest >>= fun tails =>
              pure (tails.map (.any column.ty :: ·))).Shallow :=
            (ih hrest (within_defaultRows hwithin)).bind fun _ _ _ _ => shallow_pure _
          split
          · refine (shallow_pure none).bind fun _ ctors? _ hctors => ?_
            obtain ⟨rfl, -⟩ := Search.yields_pure.1 hctors
            exact hdefault
          · rename_i hheads
            refine shallow_ask_bind fun ctors? hsplit => ?_
            cases ctors? with
            | none => exact hdefault
            | some ctors =>
                have hbelow : level < C.config.maxUnfoldDepth :=
                  hlevel fun h => hheads (List.isEmpty_iff.2 h)
                refine (shallow_checkDepth hD hcolumn hbelow).bind fun _ _ _ _ => ?_
                exact shallow_gapsByCtor hD hchildren (fun _ _ _ => ih) hcolumn hrest hwithin
                  hsplit (fun _ h => h) []

end Search

/-- Only patterns inside each other are nested for a check: where no data type inherits from
itself, a check never stops at a nested type as long as the height of every pattern is at most the
limit, however wide the patterns are and however deep the hierarchy of sealed types is. -/
theorem check_of_low_patterns (C : Checker) (hreachable : C.hierarchy.decls.Reachable)
    (hacyclic : C.hierarchy.decls.Acyclic) (target : Ty)
    (patterns : List (Pattern × PatternType))
    (hheight : ∀ p ∈ patterns, p.1.refutableHeight ≤ C.config.maxUnfoldDepth) (t : Ty) :
    (C.check target patterns).value? ≠ some (.inconclusive (.unfoldDepth t)) := by
  intro hstops
  unfold check at hstops
  split at hstops
  · exact nomatch Option.some.inj hstops
  split at hstops
  · have hcolumns : List.Forall₂ (Entered C.hierarchy.decls) [⟨target, []⟩] [0] :=
      .cons (entered_field (fun d => Nat.le_refl 0) target) .nil
    have hrows : ∀ row ∈ (patterns.map Prod.fst).map fun p => ([some p] : Row),
        RowWithin C.config.maxUnfoldDepth row [0] := by
      intro row hrow
      obtain ⟨p, hp, rfl⟩ := List.mem_map.1 hrow
      obtain ⟨pair, hpair, rfl⟩ := List.mem_map.1 hp
      refine .cons ?_ .nil
      intro q hq
      obtain rfl := Option.some.inj hq
      exact hheight pair hpair
    have hshallow := shallow_gapsWithin hacyclic (Declarations.inherits_of_child hreachable)
      C.config.stepBudget hcolumns hrows C.config.stepBudget t
    obtain ⟨found, hfound, hanswer⟩ := Query.value?_bind_eq_some.1 hstops
    rw [value?_gaps] at hfound
    obtain ⟨outcome, houtcome, rfl⟩ := Option.map_eq_some_iff.1 hfound
    cases outcome with
    | error limit =>
        obtain rfl := Coverage.inconclusive.inj (Option.some.inj hanswer)
        exact hshallow houtcome
    | ok result =>
        obtain ⟨gaps, left⟩ := result
        cases gaps with
        | nil => exact nomatch Option.some.inj hanswer
        | cons gap gaps => exact nomatch Option.some.inj hanswer
  · rcases checkOpen_cases hstops with h | ⟨note, h⟩
    · exact nomatch h
    · exact nomatch h

/-- The pattern `Some(Some(Some(_)))` is of height 3: it is searched within a limit of 3, and not
within one of 2. -/
theorem check_of_low_patterns_some :
    let optional (t : Ty) : Ty := .app ⟨0⟩ [t]
    let present (p : Pattern) : Pattern := .variant default ⟨1⟩ [p]
    let nested : Pattern × PatternType :=
      (present (present (present (.wildcard default))), .singleton .any)
    let within (limit : Nat) : Checker := initialChecker.configured { maxUnfoldDepth := limit }
    nested.1.refutableHeight = 3 ∧
      ((within 2).check (optional (optional (optional (.prim .int)))) [nested]).value? =
        some (.inconclusive (.unfoldDepth (optional (.prim .int)))) ∧
      ∀ t, ((within 3).check (optional (optional (optional (.prim .int)))) [nested]).value? ≠
        some (.inconclusive (.unfoldDepth t)) := by
  intro optional present nested within
  have hacyclic : (within 3).hierarchy.decls.Acyclic :=
    Declarations.acyclic_of_ordered (by decide)
  refine ⟨rfl, by decide +kernel, fun t => ?_⟩
  refine check_of_low_patterns (within 3) .initial hacyclic _ [nested] ?_ t
  exact List.forall_mem_singleton.2 (Nat.le_refl 3)

end Checker

end CaseCover
