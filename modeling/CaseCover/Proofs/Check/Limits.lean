import CaseCover.Proofs.Check.Completeness
import CaseCover.Proofs.Check.Simulation

/-!
Raised limits. The step budget and the bound on nesting decide whether a check has an answer
and never which one: as long as a search does not stop at a limit that is raised, it takes the
same steps and finds the same gaps after the limit is raised (`extends_gapsWithin`). The steps
that a search has left are shared by all matrices inside it, so the comparison carries the
steps that were added along with those that are left.
-/

namespace CaseCover

namespace Search

variable {α β : Type} {raised : SearchLimit → Prop} {extra : Nat}

/-- What a search comes to, with some more steps left. -/
def withMore (extra : Nat) :
    Except SearchLimit (α × Nat) → Except SearchLimit (α × Nat) :=
  Except.map fun found => (found.1, found.2 + extra)

/-- Unless the first search stops at a raised limit, the second comes to the same from `extra`
more steps, and leaves as many more. -/
def Extends (raised : SearchLimit → Prop) (extra : Nat) (m m' : Search α) : Prop :=
  ∀ left, (∀ limit, raised limit → m.outcome left ≠ some (.error limit)) →
    m'.outcome (left + extra) = (m.outcome left).map (withMore extra)

theorem extends_pure (a : α) : Extends raised extra (pure a) (pure a) :=
  fun _ _ => rfl

theorem extends_stop (limit : SearchLimit) :
    Extends raised extra (stop limit : Search α) (stop limit) :=
  fun _ _ => rfl

theorem extends_ask (q : Query α) : Extends raised extra (ask q) (ask q) := by
  intro left _
  rw [outcome_ask, outcome_ask, Option.map_map]
  rfl

/-- A step is taken from more steps as from fewer, unless there were none. -/
theorem extends_step (hsteps : extra = 0 ∨ raised .stepBudget) :
    Extends raised extra step step := by
  intro left hleft
  cases left with
  | zero =>
      rcases hsteps with rfl | hraised
      · rfl
      · exact absurd rfl (hleft _ hraised)
  | succ left =>
      rw [Nat.succ_add]
      rfl

theorem Extends.bind {m m' : Search α} {f g : α → Search β} (hm : Extends raised extra m m')
    (hfg : ∀ a, Extends raised extra (f a) (g a)) :
    Extends raised extra (m >>= f) (m' >>= g) := by
  intro left hleft
  rw [outcome_bind] at hleft ⊢
  have hfirst : ∀ limit, raised limit → m.outcome left ≠ some (.error limit) := by
    intro limit hraised hstop
    apply hleft limit hraised
    rw [hstop]
    rfl
  rw [outcome_bind, hm left hfirst]
  cases houtcome : m.outcome left with
  | none => rfl
  | some found =>
      rw [houtcome] at hleft
      cases found with
      | error limit => rfl
      | ok result => exact hfg result.1 result.2 hleft

end Search

namespace Checker

open Search (Extends extends_pure extends_stop extends_ask extends_step)

/-- A configuration that differs from another in limits that are raised: the budget by
`extra` steps, the bound on nesting by any number. -/
structure Raises (raised : SearchLimit → Prop) (extra : Nat) (config config' : CheckConfig) :
    Prop where
  budget : config'.stepBudget = config.stepBudget + extra
  steps : extra = 0 ∨ raised .stepBudget
  depth : config.maxUnfoldDepth ≤ config'.maxUnfoldDepth
  nesting : config'.maxUnfoldDepth = config.maxUnfoldDepth ∨ ∀ t, raised (.unfoldDepth t)
  cap : config'.maxCounterexamples = config.maxCounterexamples

variable {C : Checker} {raised : SearchLimit → Prop} {extra : Nat} {config : CheckConfig}

/-- A column that is not nested too often is not so under a larger bound. -/
theorem extends_checkDepth (h : Raises raised extra C.config config) (column : Column) :
    Extends raised extra (C.checkDepth column) ((C.configured config).checkDepth column) := by
  have hconfig : (C.configured config).config = config := rfl
  unfold checkDepth
  cases column.ty with
  | app adt args =>
      rw [hconfig]
      dsimp only
      by_cases hdepth : C.config.maxUnfoldDepth ≤ column.enclosing.count adt
      · rw [if_pos hdepth]
        rcases h.nesting with hsame | hraised
        · rw [if_pos (Nat.le_trans (Nat.le_of_eq hsame) hdepth)]
          exact extends_stop _
        · exact fun left hleft => absurd rfl (hleft _ (hraised _))
      · rw [if_neg hdepth, if_neg fun hle => hdepth (Nat.le_trans h.depth hle)]
        exact extends_pure ()
  | prim _ | lit _ | union _ _ | param _ _ => exact extends_pure ()

theorem extends_gapsByCtor (h : Raises raised extra C.config config)
    {gapsOf gapsOf' : List Row → List Column → Search (List (List Gap))}
    (hgapsOf : ∀ rows columns, Extends raised extra (gapsOf rows columns) (gapsOf' rows columns))
    (rows : List Row) (column : Column) (rest : List Column) (ctors : List Ctor)
    (known : List (List Gap)) :
    Extends raised extra (C.gapsByCtor gapsOf rows column rest ctors known)
      ((C.configured config).gapsByCtor gapsOf' rows column rest ctors known) := by
  have hcap : (C.configured config).gapLimit = C.gapLimit := congrArg (max 1) h.cap
  induction ctors generalizing known with
  | nil => exact extends_pure known
  | cons ctor ctors ih =>
      rw [gapsByCtor, gapsByCtor, specializeRow_configured, hcap]
      refine (extends_ask _).bind fun fields => (extends_ask _).bind fun specialized => ?_
      refine (hgapsOf _ _).bind fun found => ?_
      dsimp only
      split
      · exact extends_pure _
      · exact ih _

/-- A search takes the same steps and finds the same gaps after limits are raised at which it
does not stop. The induction is on the nesting of matrices, which the added steps deepen. -/
theorem extends_gapsWithin (h : Raises raised extra C.config config) (depth : Nat)
    (rows : List Row) (columns : List Column) :
    Extends raised extra (C.gapsWithin depth rows columns)
      ((C.configured config).gapsWithin (depth + extra) rows columns) := by
  induction depth generalizing rows columns with
  | zero =>
      -- Too deep a nesting stops as a lack of steps does.
      rcases h.steps with rfl | hraised
      · exact extends_stop .stepBudget
      · exact fun left hleft => absurd rfl (hleft _ hraised)
  | succ depth ih =>
      rw [Nat.succ_add]
      unfold gapsWithin
      refine (extends_step h.steps).bind fun _ => ?_
      cases columns with
      | nil => exact extends_pure _
      | cons column rest =>
          dsimp only
          split
          · exact extends_pure _
          rw [normalize_configured]
          refine (extends_ask _).bind fun normalized => ?_
          split
          on_goal 1 => refine (extends_pure none).bind fun ctors? => ?_
          on_goal 2 => refine (extends_ask _).bind fun ctors? => ?_
          all_goals
            cases ctors? with
            | none => exact (ih _ _).bind fun tails => extends_pure _
            | some ctors =>
                refine (extends_checkDepth h column).bind fun _ => ?_
                exact extends_gapsByCtor h ih normalized column rest ctors []

theorem value?_gaps (C : Checker) (rows : List Row) (columns : List Column) :
    (C.gaps rows columns).value? =
      ((C.gapsWithin C.config.stepBudget rows columns).outcome C.config.stepBudget).map
        (Except.map Prod.fst) :=
  Query.value?_map _ _

/-- A search for the gaps of a matrix that does not stop at a raised limit has the same
outcome after limits are raised. -/
theorem gaps_of_raises (h : Raises raised extra C.config config) {rows : List Row}
    {columns : List Column} (hstops : ∀ limit, raised limit →
      (C.gaps rows columns).value? ≠ some (.error limit)) :
    ((C.configured config).gaps rows columns).value? = (C.gaps rows columns).value? := by
  have houtcome := extends_gapsWithin h C.config.stepBudget rows columns C.config.stepBudget
    fun limit hraised hstop => hstops limit hraised <| by
      rw [value?_gaps, hstop]
      rfl
  have hbudget : (C.configured config).config.stepBudget = C.config.stepBudget + extra :=
    h.budget
  rw [value?_gaps, value?_gaps, hbudget, houtcome, Option.map_map]
  congr 1
  funext found
  cases found <;> rfl

/-- An open type that is not covered has one counterexample. -/
theorem checkOpen_cases {target : Ty} {types : List PatternType} {coverage : Coverage}
    (h : (C.checkOpen target types).value? = some coverage) :
    coverage = .covered ∨ ∃ note, coverage = .missing [C.hierarchy.decls.render target] note := by
  rw [checkOpen, Query.value?_bind] at h
  obtain ⟨found, -, hfound⟩ := Option.bind_eq_some_iff.1 h
  cases found with
  | true => exact .inl (Option.some.inj hfound).symm
  | false => exact .inr ⟨_, (Option.some.inj hfound).symm⟩

/-- A check is of one of three kinds, whatever the configuration. -/
theorem check_cases (C : Checker) (target : Ty) (patterns : List (Pattern × PatternType)) :
    (∀ config, (C.configured config).check target patterns = pure .covered) ∨
    (∀ config, (C.configured config).check target patterns =
      (C.configured config).checkClosed target (patterns.map Prod.fst)) ∨
    ∀ config, (C.configured config).check target patterns =
      C.checkOpen target (patterns.map Prod.snd) := by
  by_cases hcatch : (patterns.any fun p => p.2.isCatchAll) = true
  · exact .inl fun _ => if_pos hcatch
  by_cases hclosed : C.hierarchy.decls.isClosed target = true
  · exact .inr (.inl fun _ => (if_neg hcatch).trans (if_pos hclosed))
  · exact .inr (.inr fun _ => (if_neg hcatch).trans (if_neg hclosed))

/-- A check that does not stop at a raised limit has the same answer after limits are
raised. -/
theorem check_of_raises (h : Raises raised extra C.config config) {target : Ty}
    {patterns : List (Pattern × PatternType)} (hstops : ∀ limit, raised limit →
      (C.check target patterns).value? ≠ some (.inconclusive limit)) :
    ((C.configured config).check target patterns).value? = (C.check target patterns).value? := by
  unfold check at hstops ⊢
  split
  · rfl
  rename_i hcatch
  change (if C.hierarchy.decls.isClosed target = true then _ else _ : Query Coverage).value? = _
  split
  · rename_i hclosed
    rw [if_neg hcatch, if_pos hclosed] at hstops
    have hstops' : ∀ limit, raised limit →
        (C.gaps ((patterns.map Prod.fst).map fun p => [some p]) [⟨target, []⟩]).value? ≠
          some (.error limit) := by
      intro limit hraised hstop
      apply hstops limit hraised
      rw [checkClosed, Query.value?_bind, hstop]
      rfl
    have hgaps := gaps_of_raises h hstops'
    rw [checkClosed, checkClosed, Query.value?_bind, Query.value?_bind, hgaps]
    rfl
  · rfl

/-- Limits decide whether a check has an answer and never which one. A check that does not
exhaust its steps has the same answer, down to its texts, with any larger budget; one that
does not stop at a nested type has the same answer with any larger bound on nesting. -/
theorem check_with_raised_limits (C : Checker) (target : Ty)
    (patterns : List (Pattern × PatternType)) :
    (∀ budget, C.config.stepBudget ≤ budget →
      (C.check target patterns).value? ≠ some (.inconclusive .stepBudget) →
      ((C.configured { C.config with stepBudget := budget }).check target patterns).value? =
        (C.check target patterns).value?) ∧
    ∀ depth, C.config.maxUnfoldDepth ≤ depth →
      (∀ t, (C.check target patterns).value? ≠ some (.inconclusive (.unfoldDepth t))) →
      ((C.configured { C.config with maxUnfoldDepth := depth }).check target patterns).value? =
        (C.check target patterns).value? := by
  constructor
  · intro budget hbudget hanswer
    obtain ⟨extra, rfl⟩ := Nat.exists_eq_add_of_le hbudget
    have hraises : Raises (· = .stepBudget) extra C.config
        { C.config with stepBudget := C.config.stepBudget + extra } :=
      ⟨rfl, .inr rfl, Nat.le_refl _, .inl rfl, rfl⟩
    exact check_of_raises hraises fun _ hraised => hraised ▸ hanswer
  · intro depth hdepth hanswer
    have hraises : Raises (∃ t, · = .unfoldDepth t) 0 C.config
        { C.config with maxUnfoldDepth := depth } :=
      ⟨rfl, .inl rfl, hdepth, .inr fun t => ⟨t, rfl⟩, rfl⟩
    exact check_of_raises hraises fun _ ⟨t, hraised⟩ => hraised ▸ hanswer t

/-- A checker with no more steps and nesting than a check of `Some(_)` at `Option[bool]`
takes. -/
def tightChecker : Checker :=
  initialChecker.configured { maxUnfoldDepth := 1, stepBudget := 5 }

/-- The pattern `Some(_)`, with its pattern type. -/
def someAnything : Pattern × PatternType :=
  (.variant default ⟨1⟩ [.wildcard default], .singleton (.app ⟨1⟩ [.noType]))

/-- `Some(_)` leaves `None` unmatched, as it does with the fewest steps and the least nesting
that show it. -/
theorem check_with_raised_limits_some :
    ((tightChecker.configured { tightChecker.config with stepBudget := 100000 }).check
        (.app ⟨0⟩ [.prim .bool]) [someAnything]).value? = some (.missing ["None"] none) ∧
      ((tightChecker.configured { tightChecker.config with maxUnfoldDepth := 32 }).check
        (.app ⟨0⟩ [.prim .bool]) [someAnything]).value? = some (.missing ["None"] none) := by
  have hanswer : (tightChecker.check (.app ⟨0⟩ [.prim .bool]) [someAnything]).value? =
      some (.missing ["None"] none) := by decide
  obtain ⟨hbudget, hdepth⟩ :=
    check_with_raised_limits tightChecker (.app ⟨0⟩ [.prim .bool]) [someAnything]
  constructor
  · rw [hbudget 100000 (by decide) (by rw [hanswer]; exact nofun)]
    exact hanswer
  · rw [hdepth 32 (by decide) (by rw [hanswer]; exact nofun)]
    exact hanswer

end Checker

end CaseCover
