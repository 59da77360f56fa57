import CaseCover.Check.Coverage
import CaseCover.Proofs.Check.Search

/-!
Matrices that a search cannot tell apart. A relation between lists of rows is a simulation
when everything that a search looks at is the same on both sides and every step leads to
related rows again; then the searches stop at the same limit, take the same number of steps
and find the same gaps (`SimulatesBy.sameOutcome_gapsWithin`), and checks of related patterns
have one answer. A search looks at rows only when they are normalized, so more may be asked of
the relation there.
-/

namespace CaseCover

namespace Search

variable {α β γ : Type}

/-- What a search with some steps left comes to: a limit, or what it finds with the steps
that it leaves. -/
def outcome (m : Search α) (left : Nat) : Option (Except SearchLimit (α × Nat)) :=
  (m.run left).run.value?

/-- What a composed search does after its first part. -/
def followUp (f : α → Search β) :
    Except SearchLimit (α × Nat) → Option (Except SearchLimit (β × Nat))
  | .ok (a, left) => (f a).outcome left
  | .error limit => some (.error limit)

theorem outcome_bind (m : Search α) (f : α → Search β) (left : Nat) :
    (m >>= f).outcome left = (m.outcome left).bind (followUp f) := by
  rw [outcome, StateT.run_bind, ExceptT.run_bind, Query.value?_bind]
  congr 1
  funext found
  cases found <;> rfl

theorem outcome_pure_bind (a : α) (f : α → Search β) (left : Nat) :
    (pure a >>= f).outcome left = (f a).outcome left := by
  rw [outcome_bind]
  rfl

theorem outcome_ask (q : Query α) (left : Nat) :
    (ask q).outcome left = q.value?.map fun a => .ok (a, left) := by
  cases q with
  | mk answer => cases answer <;> rfl

/-- Two searches come to the same, whatever the number of steps left. -/
def SameOutcome (m m' : Search α) : Prop := ∀ left, m.outcome left = m'.outcome left

theorem SameOutcome.rfl {m : Search α} : SameOutcome m m := fun _ => Eq.refl _

theorem SameOutcome.bind {m m' : Search α} {f g : α → Search β} (hm : SameOutcome m m')
    (hfg : ∀ a, SameOutcome (f a) (g a)) : SameOutcome (m >>= f) (m' >>= g) := by
  intro left
  rw [outcome_bind, outcome_bind, hm left]
  congr 1
  funext found
  cases found with
  | error limit => rfl
  | ok result => exact hfg result.1 result.2

/-- Searches that go on from related answers in the same way come to the same. -/
theorem sameOutcome_ask_bind {R : α → β → Prop} {q : Query α} {q' : Query β}
    (hq : q.Alike R q') {f : α → Search γ} {g : β → Search γ}
    (hfg : ∀ a b, R a b → SameOutcome (f a) (g b)) :
    SameOutcome (ask q >>= f) (ask q' >>= g) := by
  intro left
  unfold Query.Alike at hq
  rw [outcome_bind, outcome_bind, outcome_ask, outcome_ask]
  generalize q.value? = a at hq
  generalize q'.value? = b at hq
  cases hq with
  | none => rfl
  | some hab => exact hfg _ _ hab left

end Search

namespace Checker

open Search (SameOutcome sameOutcome_ask_bind)

/-- Two relations between the rows of matrices with the same columns that a search keeps, one
before and one after normalization: normalized rows are found to be the same on both sides, and
each step leads back to related rows. -/
structure SimulatesBy (C : Checker) (R N : List Ty → List Row → List Row → Prop) : Prop where
  isEmpty : ∀ {types rows rows'}, R types rows rows' → rows.isEmpty = rows'.isEmpty
  normalize : ∀ {t types rows rows'}, R (t :: types) rows rows' →
    (C.normalize t rows).Alike (N (t :: types)) (C.normalize t rows')
  heads : ∀ {t types rows rows'}, N (t :: types) rows rows' →
    (heads rows).isEmpty = (Checker.heads rows').isEmpty
  split : ∀ {t types rows rows'}, N (t :: types) rows rows' →
    (C.split t (Checker.heads rows)).value? = (C.split t (Checker.heads rows')).value?
  defaults : ∀ {t types rows rows'}, N (t :: types) rows rows' →
    R types (defaultRows rows) (defaultRows rows')
  specialize : ∀ {t types rows rows' ctors ctor fields}, N (t :: types) rows rows' →
    (C.split t (Checker.heads rows)).value? = some (some ctors) → ctor ∈ ctors →
    (C.fieldTypes t ctor).value? = some fields →
    (Query.filterMap (C.specializeRow ctor fields.length) rows).Alike (R (fields ++ types))
      (Query.filterMap (C.specializeRow ctor fields.length) rows')

/-- A relation that a search keeps, whether or not the rows are normalized: each step finds the
same on both sides and leads to related rows. -/
abbrev Simulates (C : Checker) (R : List Ty → List Row → List Row → Prop) : Prop :=
  C.SimulatesBy R R

variable {C : Checker} {R N : List Ty → List Row → List Row → Prop}

theorem isEmpty_eq_of_forall₂ {α β : Type} {S : α → β → Prop} {as : List α} {bs : List β}
    (h : List.Forall₂ S as bs) : as.isEmpty = bs.isEmpty := by
  cases h with
  | nil => rfl
  | cons => rfl

theorem filterMap_fixedLength?_eq {S : Pattern → Pattern → Prop}
    (hS : ∀ {p p'}, S p p' → fixedLength? p = fixedLength? p') {ps ps' : List Pattern}
    (hps : List.Forall₂ S ps ps') : ps.filterMap fixedLength? = ps'.filterMap fixedLength? := by
  induction hps with
  | nil => rfl
  | cons hp _ ih => rw [List.filterMap_cons, List.filterMap_cons, hS hp, ih]

/-- Of the heads of a column only the numbers of their fixed elements decide how it is split. -/
theorem split_eq_of_fixedLength? {t : Ty} {ps ps' : List Pattern}
    (hps : ps.filterMap fixedLength? = ps'.filterMap fixedLength?) :
    C.split t ps = C.split t ps' := by
  have hctors : sequenceCtors ps = sequenceCtors ps' := by
    rw [sequenceCtors, sequenceCtors, hps]
  simp only [split, hctors]

/-- Branches that are normalized alike one by one are so together. -/
theorem alike_normalizeBranches {S : Cell → Cell → Prop} {t : Ty} {ps ps' : List Pattern}
    (hps : List.Forall₂ (fun p p' => (C.normalizeHead t p).Alike (List.Forall₂ S)
      (C.normalizeHead t p')) ps ps') :
    (C.normalizeBranches t ps).Alike (List.Forall₂ S) (C.normalizeBranches t ps') := by
  induction hps with
  | nil => exact Query.alike_pure .nil
  | cons hp _ ih =>
      refine hp.bind fun first first' hfirst => ?_
      refine ih.bind fun later later' hlater => ?_
      exact Query.alike_pure (List.rel_append hfirst hlater)

/-- Matrices for the ways of making the values of one column come to the same when those
inside them do. -/
theorem SimulatesBy.sameOutcome_gapsByCtor (hR : C.SimulatesBy R N)
    {gapsOf : List Row → List Column → Search (List (List Gap))}
    (hgapsOf : ∀ {rows rows' columns}, R (columns.map Column.ty) rows rows' →
      SameOutcome (gapsOf rows columns) (gapsOf rows' columns))
    {column : Column} {rest : List Column} {rows rows' : List Row}
    (hrows : N (column.ty :: rest.map Column.ty) rows rows') {all : List Ctor}
    (hsplit : (C.split column.ty (Checker.heads rows)).value? = some (some all))
    {ctors : List Ctor} (hctors : ∀ ctor ∈ ctors, ctor ∈ all)
    (known : List (List Gap)) :
    SameOutcome (C.gapsByCtor gapsOf rows column rest ctors known)
      (C.gapsByCtor gapsOf rows' column rest ctors known) := by
  induction ctors generalizing known with
  | nil => exact .rfl
  | cons ctor ctors ih =>
      have hlater : ∀ c ∈ ctors, c ∈ all := fun c hc => hctors c (List.mem_cons_of_mem ctor hc)
      rw [gapsByCtor, gapsByCtor]
      apply sameOutcome_ask_bind
        (R := fun fields fields' => fields = fields' ∧
          (C.fieldTypes column.ty ctor).value? = some fields)
        (Query.alike_of_value?_eq (Eq.refl _) fun _ hfields => ⟨Eq.refl _, hfields⟩)
      rintro fields _ ⟨rfl, hfields⟩
      have hspecialized :=
        hR.specialize hrows hsplit (hctors ctor List.mem_cons_self) hfields
      apply sameOutcome_ask_bind hspecialized
      intro specialized specialized' hinner
      have hcolumns : R ((fields.map (⟨·, column.ty.constructor?.toList ++ column.enclosing⟩)
          ++ rest : List Column).map Column.ty) specialized specialized' := by
        rw [List.map_append, List.map_map]
        exact (List.map_id fields).symm ▸ hinner
      apply SameOutcome.bind (hgapsOf hcolumns)
      intro found
      dsimp only
      split
      · exact .rfl
      · exact ih hlater _

/-- Searches of related matrices come to the same. The induction is on the nesting of
matrices. -/
theorem SimulatesBy.sameOutcome_gapsWithin (hR : C.SimulatesBy R N) (depth : Nat)
    {rows rows' : List Row} {columns : List Column}
    (hrows : R (columns.map Column.ty) rows rows') :
    SameOutcome (C.gapsWithin depth rows columns) (C.gapsWithin depth rows' columns) := by
  induction depth generalizing rows rows' columns with
  | zero => exact .rfl
  | succ depth ih =>
      unfold gapsWithin
      refine SameOutcome.bind .rfl fun _ => ?_
      cases columns with
      | nil =>
          rw [hR.isEmpty hrows]
          exact .rfl
      | cons column rest =>
          dsimp only
          rw [hR.isEmpty hrows]
          by_cases hempty : rows'.isEmpty = true
          · rw [if_pos hempty, if_pos hempty]
            exact .rfl
          rw [if_neg hempty, if_neg hempty]
          apply sameOutcome_ask_bind (hR.normalize hrows)
          intro normalized normalized' hnormalized
          have hdefault : SameOutcome
              (C.gapsWithin depth (defaultRows normalized) rest >>= fun tails =>
                pure (tails.map (.any column.ty :: ·)))
              (C.gapsWithin depth (defaultRows normalized') rest >>= fun tails =>
                pure (tails.map (.any column.ty :: ·))) :=
            (ih (hR.defaults hnormalized)).bind fun _ => .rfl
          rw [hR.heads hnormalized]
          by_cases hheads : (Checker.heads normalized').isEmpty = true
          · rw [if_pos hheads, if_pos hheads]
            intro left
            rw [Search.outcome_pure_bind, Search.outcome_pure_bind]
            exact hdefault left
          rw [if_neg hheads, if_neg hheads]
          apply sameOutcome_ask_bind
            (R := fun ctors? ctors?' => ctors? = ctors?' ∧
              (C.split column.ty (Checker.heads normalized)).value? = some ctors?)
            (Query.alike_of_value?_eq (hR.split hnormalized) fun _ h => ⟨rfl, h⟩)
          rintro ctors? _ ⟨rfl, hsplit⟩
          cases ctors? with
          | none => exact hdefault
          | some ctors =>
              refine SameOutcome.bind .rfl fun _ => ?_
              exact hR.sameOutcome_gapsByCtor ih hnormalized hsplit (fun _ h => h) []

/-- Related matrices have the same gaps. -/
theorem SimulatesBy.gaps_eq (hR : C.SimulatesBy R N) {rows rows' : List Row}
    {columns : List Column} (hrows : R (columns.map Column.ty) rows rows') :
    (C.gaps rows columns).value? = (C.gaps rows' columns).value? := by
  have hsame := hR.sameOutcome_gapsWithin C.config.stepBudget hrows C.config.stepBudget
  unfold Search.outcome at hsame
  rw [gaps, gaps, Query.value?_bind, Query.value?_bind, hsame]

/-- Patterns whose rows are related cover a closed type alike. -/
theorem SimulatesBy.checkClosed_eq (hR : C.SimulatesBy R N) {target : Ty}
    {patterns patterns' : List Pattern}
    (hpatterns : R [target] (patterns.map fun p => [some p])
      (patterns'.map fun p => [some p])) :
    (C.checkClosed target patterns).value? = (C.checkClosed target patterns').value? := by
  have hgaps : (C.gaps (patterns.map fun p => [some p]) [⟨target, []⟩]).value? =
      (C.gaps (patterns'.map fun p => [some p]) [⟨target, []⟩]).value? :=
    hR.gaps_eq hpatterns
  rw [checkClosed, checkClosed, Query.value?_bind, Query.value?_bind, hgaps]

end Checker

end CaseCover
