import CaseCover.Proofs.Check.Limits

/-!
Lowered limits on gaps. The number of gaps with which a search is content cuts the list of gaps
off at every nesting of matrices, and what is cut off inside is what would have been cut off
outside: with a lower limit a search finds the first gaps of those that it finds with a higher one
(`tracks_gapsWithin`). It may stop sooner, so it takes no more steps; the comparison is therefore
of searches of which the second has at least as many steps left.
-/

namespace CaseCover

namespace Search

variable {α β γ δ : Type}

/-- Whatever the first search finds, the second finds something related to it from at least as
many steps, and leaves at least as many. -/
def Tracks (R : α → β → Prop) (m : Search α) (m' : Search β) : Prop :=
  ∀ left a left', m.Yields left a left' → ∀ more, left ≤ more →
    ∃ b more', R a b ∧ left' ≤ more' ∧ m'.Yields more b more'

theorem tracks_pure {R : α → β → Prop} {a : α} {b : β} (hab : R a b) :
    Tracks R (pure a) (pure b) := by
  intro left found left' h more hmore
  obtain ⟨rfl, rfl⟩ := yields_pure.1 h
  exact ⟨b, more, hab, hmore, yields_pure.2 ⟨rfl, rfl⟩⟩

theorem tracks_stop {R : α → β → Prop} (limit : SearchLimit) (m' : Search β) :
    Tracks R (stop limit) m' :=
  fun _ _ _ h => absurd h not_yields_stop

theorem tracks_ask (q : Query α) : Tracks Eq (ask q) (ask q) := by
  intro left a left' h more hmore
  obtain ⟨ha, rfl⟩ := yields_ask.1 h
  exact ⟨a, more, rfl, hmore, yields_ask.2 ⟨ha, rfl⟩⟩

theorem tracks_step : Tracks Eq step step := by
  intro left u left' h more hmore
  obtain rfl := yields_step.1 h
  obtain ⟨more', rfl⟩ : ∃ more', more = more' + 1 := ⟨more - 1, by omega⟩
  exact ⟨(), more', rfl, by omega, yields_step.2 rfl⟩

theorem Tracks.bind {R : α → β → Prop} {S : γ → δ → Prop} {m : Search α} {m' : Search β}
    {f : α → Search γ} {g : β → Search δ} (hm : Tracks R m m')
    (hfg : ∀ a b, R a b → Tracks S (f a) (g b)) : Tracks S (m >>= f) (m' >>= g) := by
  intro left c left'' h more hmore
  obtain ⟨a, left', ha, hc⟩ := yields_bind.1 h
  obtain ⟨b, more', hab, hmore', hb⟩ := hm left a left' ha more hmore
  obtain ⟨d, more'', hcd, hmore'', hd⟩ := hfg a b hab left' c left'' hc more' hmore'
  exact ⟨d, more'', hcd, hmore'', yields_bind.2 ⟨b, more', hb, hd⟩⟩

/-- A search goes on in two ways from what it finds, taking no steps of its own. -/
theorem Tracks.bind_eq {S : γ → δ → Prop} {m : Search α} {f : α → Search γ} {g : α → Search δ}
    (hm : Tracks Eq m m) (hfg : ∀ a, Tracks S (f a) (g a)) : Tracks S (m >>= f) (m >>= g) :=
  hm.bind fun a _ hab => hab ▸ hfg a

end Search

namespace Checker

open Search (Tracks tracks_pure tracks_stop tracks_ask tracks_step)

variable {C : Checker}

theorem left_of_yields_checkDepth {column : Column} {left left' : Nat} {u : Unit}
    (h : (C.checkDepth column).Yields left u left') : left' = left := by
  unfold checkDepth at h
  split at h
  · split at h
    · exact absurd h Search.not_yields_stop
    · exact (Search.yields_pure.1 h).2
  · exact (Search.yields_pure.1 h).2

/-- Going through the ways of making values takes no step back, and up to the limit it keeps the
gaps that are known. -/
theorem keeps_gapsByCtor {gapsOf : List Row → List Column → Search (List (List Gap))}
    (hgapsOf : ∀ {rows columns left found left'},
      (gapsOf rows columns).Yields left found left' → left' ≤ left)
    {rows : List Row} {column : Column} {rest : List Column} {ctors : List Ctor}
    {known found : List (List Gap)} {left left' : Nat}
    (h : (C.gapsByCtor gapsOf rows column rest ctors known).Yields left found left') :
    left' ≤ left ∧ ∀ n ≤ known.length, n ≤ C.gapLimit → found.take n = known.take n := by
  induction ctors generalizing known left with
  | nil =>
      obtain ⟨rfl, rfl⟩ := Search.yields_pure.1 h
      exact ⟨Nat.le_refl _, fun _ _ _ => rfl⟩
  | cons ctor ctors ih =>
      rw [gapsByCtor] at h
      rcases Search.yields_bind.1 h with ⟨fields, _, hfields, hrows⟩
      rcases Search.yields_bind.1 hrows with ⟨specialized, _, hspecialized, hgaps⟩
      rcases Search.yields_bind.1 hgaps with ⟨inner, between, hinner, hloop⟩
      obtain ⟨-, rfl⟩ := Search.yields_ask.1 hfields
      obtain ⟨-, rfl⟩ := Search.yields_ask.1 hspecialized
      have hbetween := hgapsOf hinner
      have hprefix : ∀ n ≤ known.length,
          (known ++ inner.map (regroup ctor column.ty fields.length)).take n = known.take n :=
        fun n hn => List.take_append_of_le_length hn
      dsimp only at hloop
      split at hloop
      · obtain ⟨rfl, rfl⟩ := Search.yields_pure.1 hloop
        refine ⟨hbetween, fun n hn hlimit => ?_⟩
        rw [List.take_take, Nat.min_eq_left hlimit, hprefix n hn]
      · obtain ⟨hleft, hkept⟩ := ih hloop
        refine ⟨Nat.le_trans hleft hbetween, fun n hn hlimit => ?_⟩
        rw [hkept n (by rw [List.length_append]; omega) hlimit, hprefix n hn]

/-- A search leaves no more steps than it had. -/
theorem left_le_of_yields_gapsWithin {depth : Nat} {rows : List Row} {columns : List Column}
    {left left' : Nat} {found : List (List Gap)}
    (h : (C.gapsWithin depth rows columns).Yields left found left') : left' ≤ left := by
  induction depth generalizing rows columns left found left' with
  | zero => exact absurd h Search.not_yields_stop
  | succ depth ih =>
      obtain ⟨between, rfl, hstep⟩ := gapsStep_of_yields h
      cases hstep with
      | matched | unmatched => omega
      | default _ _ _ htails =>
          have := ih htails
          omega
      | split _ _ _ _ hdepth hfound =>
          obtain rfl := left_of_yields_checkDepth hdepth
          have := (keeps_gapsByCtor ih hfound).1
          omega

variable {config : CheckConfig}

theorem tracks_checkDepth (hdepth : config.maxUnfoldDepth = C.config.maxUnfoldDepth)
    (column : Column) :
    Tracks Eq (C.checkDepth column) ((C.configured config).checkDepth column) := by
  have hconfig : (C.configured config).config.maxUnfoldDepth = C.config.maxUnfoldDepth := hdepth
  unfold checkDepth
  rw [hconfig]
  split
  · split
    · exact tracks_stop _ _
    · exact tracks_pure rfl
  · exact tracks_pure rfl

/-- With a lower limit the ways of making values are gone through up to the one that yields the
last gap that is wanted. -/
theorem tracks_gapsByCtor (hlimit : (C.configured config).gapLimit ≤ C.gapLimit)
    {gapsOf gapsOf' : List Row → List Column → Search (List (List Gap))}
    (hleft : ∀ {rows columns left found left'},
      (gapsOf rows columns).Yields left found left' → left' ≤ left)
    (hgapsOf : ∀ rows columns, Tracks (fun found cut =>
      cut = found.take (C.configured config).gapLimit) (gapsOf rows columns)
        (gapsOf' rows columns))
    (rows : List Row) (column : Column) (rest : List Column) (ctors : List Ctor)
    {known : List (List Gap)} (hknown : known.length < (C.configured config).gapLimit) :
    Tracks (fun found cut => cut = found.take (C.configured config).gapLimit)
      (C.gapsByCtor gapsOf rows column rest ctors known)
      ((C.configured config).gapsByCtor gapsOf' rows column rest ctors known) := by
  induction ctors generalizing known with
  | nil => exact tracks_pure (List.take_of_length_le (Nat.le_of_lt hknown)).symm
  | cons ctor ctors ih =>
      rw [gapsByCtor, gapsByCtor, specializeRow_configured]
      refine (tracks_ask _).bind_eq fun fields => (tracks_ask _).bind_eq fun specialized => ?_
      refine (hgapsOf _ _).bind ?_
      rintro found _ rfl
      generalize hn : (C.configured config).gapLimit = n at *
      generalize hgaps : found.map (regroup ctor column.ty fields.length) = gaps
      have hcut : (found.take n).map (regroup ctor column.ty fields.length) = gaps.take n := by
        rw [List.map_take, hgaps]
      dsimp only
      rw [hcut]
      by_cases hfull : n ≤ (known ++ gaps).length
      · -- The lower limit is reached, so that what the other search adds is not wanted.
        have hfull' : n ≤ (known ++ gaps.take n).length := by
          simp only [List.length_append, List.length_take] at hfull ⊢
          omega
        rw [if_pos hfull']
        have hsame : (known ++ gaps.take n).take n = (known ++ gaps).take n := by
          rw [List.take_append, List.take_append, List.take_take, Nat.min_eq_left (Nat.sub_le ..)]
        rw [hsame]
        intro left all left' h more hmore
        have hkept : left' ≤ left ∧ all.take n = (known ++ gaps).take n := by
          split at h
          · obtain ⟨rfl, rfl⟩ := Search.yields_pure.1 h
            rw [List.take_take, Nat.min_eq_left hlimit]
            exact ⟨Nat.le_refl _, rfl⟩
          · obtain ⟨hspent, hkept⟩ := keeps_gapsByCtor hleft h
            exact ⟨hspent, hkept n hfull hlimit⟩
        refine ⟨_, more, hkept.2.symm, ?_, Search.yields_pure.2 ⟨rfl, rfl⟩⟩
        exact Nat.le_trans hkept.1 hmore
      · have hall : gaps.take n = gaps := by
          apply List.take_of_length_le
          rw [List.length_append] at hfull
          omega
        rw [hall, if_neg hfull, if_neg fun h => hfull (Nat.le_trans hlimit h)]
        exact ih (Nat.lt_of_not_le hfull)

/-- A configuration that differs from another only in a lower limit on gaps. -/
structure Lowers (config config' : CheckConfig) : Prop where
  budget : config'.stepBudget = config.stepBudget
  depth : config'.maxUnfoldDepth = config.maxUnfoldDepth
  cap : config'.maxCounterexamples ≤ config.maxCounterexamples

/-- With a lower limit a search finds the first of the gaps. The induction is on the nesting of
matrices, each of which cuts its gaps off. -/
theorem tracks_gapsWithin (h : Lowers C.config config) (depth : Nat) (rows : List Row)
    (columns : List Column) :
    Tracks (fun found cut => cut = found.take (C.configured config).gapLimit)
      (C.gapsWithin depth rows columns) ((C.configured config).gapsWithin depth rows columns) := by
  have hpos : 0 < (C.configured config).gapLimit :=
    Nat.lt_of_lt_of_le Nat.zero_lt_one (Nat.le_max_left 1 _)
  have hlimit : (C.configured config).gapLimit ≤ C.gapLimit := by
    have hcap : (C.configured config).config.maxCounterexamples ≤ C.config.maxCounterexamples :=
      h.cap
    unfold gapLimit
    omega
  induction depth generalizing rows columns with
  | zero => exact tracks_stop _ _
  | succ depth ih =>
      have hone : ∀ gaps : List Gap,
          [gaps] = [gaps].take (C.configured config).gapLimit := fun gaps =>
        (List.take_of_length_le (Nat.succ_le_of_lt hpos)).symm
      unfold gapsWithin
      refine tracks_step.bind_eq fun _ => ?_
      cases columns with
      | nil =>
          refine tracks_pure ?_
          split
          · exact hone []
          · exact List.take_nil.symm
      | cons column rest =>
          dsimp only
          split
          · exact tracks_pure (hone _)
          rw [normalize_configured]
          refine (tracks_ask _).bind_eq fun normalized => ?_
          split
          on_goal 1 => refine (tracks_pure rfl).bind_eq fun ctors? => ?_
          on_goal 2 => refine (tracks_ask _).bind_eq fun ctors? => ?_
          all_goals
            cases ctors? with
            | none =>
                refine (ih _ _).bind ?_
                rintro tails _ rfl
                exact tracks_pure List.map_take
            | some ctors =>
                refine (tracks_checkDepth h.depth column).bind fun _ _ _ => ?_
                exact tracks_gapsByCtor hlimit left_le_of_yields_gapsWithin ih _ _ _ _ hpos

/-- A search that yields gaps from all steps of the budget answers with them. -/
theorem gaps_of_gapsWithin {rows : List Row} {columns : List Column} {found : List (List Gap)}
    {left : Nat} (h : (C.gapsWithin C.config.stepBudget rows columns).Yields
      C.config.stepBudget found left) :
    (C.gaps rows columns).value? = some (.ok found) := by
  have houtcome : (C.gapsWithin C.config.stepBudget rows columns).outcome C.config.stepBudget =
      some (.ok (found, left)) := h
  rw [value?_gaps, houtcome]
  rfl

theorem gaps_of_lowers (h : Lowers C.config config) {rows : List Row} {columns : List Column}
    {found : List (List Gap)} (hfound : (C.gaps rows columns).value? = some (.ok found)) :
    ((C.configured config).gaps rows columns).value? =
      some (.ok (found.take (C.configured config).gapLimit)) := by
  obtain ⟨left, hyields⟩ := gapsWithin_of_gaps hfound
  obtain ⟨cut, more, rfl, -, hcut⟩ :=
    tracks_gapsWithin h C.config.stepBudget rows columns _ _ _ hyields _ (Nat.le_refl _)
  have hbudget : (C.configured config).config.stepBudget = C.config.stepBudget := h.budget
  exact gaps_of_gapsWithin (hbudget.symm ▸ hcut)

/-- Without repetitions, the first elements of a list come first. -/
theorem eraseDups_take_prefix {α : Type} [BEq α] [LawfulBEq α] (as : List α) (n : Nat) :
    (as.take n).eraseDups <+: as.eraseDups := by
  conv => rhs; rw [← List.take_append_drop n as, List.eraseDups_append]
  exact List.prefix_append _ _

theorem checkClosed_of_gaps {target : Ty} {patterns : List Pattern} {found : List (List Gap)}
    (hfound : (C.gaps (patterns.map fun p => [some p]) [⟨target, []⟩]).value? = some (.ok found))
    (hne : found ≠ []) : (C.checkClosed target patterns).value? =
      some (.missing (found.map fun row =>
        (row.head?.map (·.render C.hierarchy.decls)).getD "_").eraseDups none) := by
  rw [checkClosed, Query.value?_bind, hfound]
  cases found with
  | nil => exact absurd rfl hne
  | cons row rows => rfl

/-- With a lower limit a closed type is covered if it was, and otherwise the first of the
counterexamples are shown. -/
theorem checkClosed_of_lowers (h : Lowers C.config config) {target : Ty}
    {patterns : List Pattern} :
    ((C.checkClosed target patterns).value? = some .covered →
      ((C.configured config).checkClosed target patterns).value? = some .covered) ∧
    ∀ texts note, (C.checkClosed target patterns).value? = some (.missing texts note) →
      ∃ shown, ((C.configured config).checkClosed target patterns).value? =
        some (.missing shown note) ∧ shown <+: texts ∧ shown ≠ [] := by
  constructor
  · intro hcovered
    have hgaps := gaps_of_lowers h (gaps_of_covered hcovered)
    rw [checkClosed, Query.value?_bind, hgaps, List.take_nil]
    rfl
  · intro texts note hmissing
    obtain ⟨found, hne, hfound, -⟩ := gaps_of_missing hmissing
    rw [checkClosed_of_gaps hfound hne] at hmissing
    obtain ⟨rfl, rfl⟩ := Coverage.missing.inj (Option.some.inj hmissing)
    obtain ⟨row, rows, rfl⟩ := List.exists_cons_of_ne_nil hne
    obtain ⟨n, hn⟩ : ∃ n, (C.configured config).gapLimit = n + 1 :=
      ⟨(C.configured config).gapLimit - 1, by unfold gapLimit; omega⟩
    have hgaps := gaps_of_lowers h hfound
    rw [hn] at hgaps
    refine ⟨_, checkClosed_of_gaps hgaps (by simp), ?_, by simp [List.eraseDups_cons]⟩
    rw [List.map_take]
    exact eraseDups_take_prefix _ _

/-- The checker with another limit on counterexamples. -/
def showing (C : Checker) (cap : Nat) : Checker :=
  C.configured { C.config with maxCounterexamples := cap }

/-- The limit on counterexamples only cuts their list off. What a search for gaps finds with a
lower limit are the first gaps of what it finds with a higher one, and at least one of them; so a
check has the same verdict, and its texts are the first of those that it has with the higher
limit. -/
theorem check_with_lowered_cap (C : Checker) {cap : Nat}
    (hcap : cap ≤ C.config.maxCounterexamples) :
    (∀ rows columns found, (C.gaps rows columns).value? = some (.ok found) →
      ((C.showing cap).gaps rows columns).value? = some (.ok (found.take (max 1 cap)))) ∧
    ∀ target patterns,
      ((C.check target patterns).value? = some .covered →
        ((C.showing cap).check target patterns).value? = some .covered) ∧
      ∀ texts note, (C.check target patterns).value? = some (.missing texts note) →
        ∃ shown, ((C.showing cap).check target patterns).value? = some (.missing shown note) ∧
          shown <+: texts ∧ shown ≠ [] := by
  have h : Lowers C.config { C.config with maxCounterexamples := cap } := ⟨rfl, rfl, hcap⟩
  refine ⟨fun rows columns found hfound => gaps_of_lowers h hfound, fun target patterns => ?_⟩
  rcases C.check_cases target patterns with hcheck | hcheck | hcheck
  · have hconfig : C.check target patterns = pure .covered := hcheck C.config
    rw [showing, hcheck, hconfig]
    exact ⟨fun _ => rfl, fun texts note hmissing => nomatch Option.some.inj hmissing⟩
  · have hconfig : C.check target patterns = C.checkClosed target (patterns.map Prod.fst) :=
      hcheck C.config
    rw [showing, hcheck, hconfig]
    exact checkClosed_of_lowers h
  · have hconfig : C.check target patterns = C.checkOpen target (patterns.map Prod.snd) :=
      hcheck C.config
    rw [showing, hcheck, hconfig]
    refine ⟨fun hcovered => hcovered, fun texts note hmissing =>
      ⟨texts, hmissing, List.prefix_rfl, ?_⟩⟩
    rcases checkOpen_cases hmissing with h | ⟨note, h⟩
    · exact nomatch h
    · obtain ⟨rfl, -⟩ := Coverage.missing.inj h
      exact List.cons_ne_nil _ _

/-- Pairs of truth values that are covered where both are true. -/
theorem check_with_lowered_cap_pair :
    let pairs : Ty := .app ⟨6⟩ [.prim .bool, .prim .bool]
    let both : Pattern × PatternType :=
      (.variant default ⟨6⟩ [truth.1, truth.1], .singleton pairs)
    (initialChecker.check pairs [both]).value? =
        some (.missing ["Tuple2(true, false)", "Tuple2(false, _)"] none) ∧
      ∃ shown, ((initialChecker.showing 0).check pairs [both]).value? =
          some (.missing shown none) ∧
        shown <+: ["Tuple2(true, false)", "Tuple2(false, _)"] ∧ shown ≠ [] := by
  intro pairs both
  have hmissing : (initialChecker.check pairs [both]).value? =
      some (.missing ["Tuple2(true, false)", "Tuple2(false, _)"] none) := by decide +kernel
  exact ⟨hmissing, ((check_with_lowered_cap initialChecker (Nat.zero_le _)).2 pairs
    [both]).2 _ _ hmissing⟩

end Checker

end CaseCover
