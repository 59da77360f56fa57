import CaseCover.Check.Matrix
import CaseCover.Proofs.Query.Answers

/-!
Runs of searches that do not stop at a limit. `Search.Yields` says what a search finds
from a number of steps that are left, and how many it leaves. `GapsStep` lists the ways in
which a search for gaps deals with one matrix. What is asked about the rows of a matrix
depends on the hierarchy alone, not on limits and policies (`normalize_configured`,
`specializeRow_configured`).
-/

namespace CaseCover

namespace Search

variable {α β : Type}

/-- A search with `left` steps finds `a` and leaves `left'` steps. -/
def Yields (m : Search α) (left : Nat) (a : α) (left' : Nat) : Prop :=
  (m.run left).run.value? = some (.ok (a, left'))

theorem yields_pure {a b : α} {left left' : Nat} :
    (pure a : Search α).Yields left b left' ↔ b = a ∧ left' = left := by
  change some (Except.ok (a, left)) = some (Except.ok (b, left')) ↔ _
  constructor
  · intro h
    obtain ⟨rfl, rfl⟩ := Prod.mk.inj (Except.ok.inj (Option.some.inj h))
    exact ⟨rfl, rfl⟩
  · rintro ⟨rfl, rfl⟩
    rfl

/-- A composed search finds what its second part does from what the first finds. -/
theorem yields_bind {m : Search α} {f : α → Search β} {left left'' : Nat} {b : β} :
    (m >>= f).Yields left b left'' ↔
      ∃ a left', m.Yields left a left' ∧ (f a).Yields left' b left'' := by
  rw [Yields, StateT.run_bind, ExceptT.run_bind, Query.value?_bind_eq_some]
  constructor
  · rintro ⟨r, hr, hnext⟩
    cases r with
    | error e => exact nomatch hnext
    | ok found => exact ⟨found.1, found.2, hr, hnext⟩
  · rintro ⟨a, left', ha, hnext⟩
    exact ⟨.ok (a, left'), ha, hnext⟩

theorem yields_ask {q : Query α} {left left' : Nat} {a : α} :
    (ask q).Yields left a left' ↔ q.value? = some a ∧ left' = left := by
  have hrun : ((ask q).run left).run.value? =
      q.value?.map fun a => Except.ok (a, left) := by
    cases q with
    | mk answer => cases answer <;> rfl
  rw [Yields, hrun, Option.map_eq_some_iff]
  constructor
  · rintro ⟨b, hb, hpair⟩
    obtain ⟨rfl, rfl⟩ := Prod.mk.inj (Except.ok.inj hpair)
    exact ⟨hb, rfl⟩
  · rintro ⟨ha, rfl⟩
    exact ⟨a, ha, rfl⟩

theorem not_yields_stop {limit : SearchLimit} {left left' : Nat} {a : α} :
    ¬ (stop limit : Search α).Yields left a left' := by
  intro h
  change some (Except.error limit) = some (Except.ok (a, left')) at h
  exact nomatch h

theorem yields_step {left left' : Nat} {u : Unit} :
    step.Yields left u left' ↔ left = left' + 1 := by
  cases left with
  | zero =>
      refine ⟨fun h => ?_, nofun⟩
      change some (Except.error SearchLimit.stepBudget) = some (Except.ok (u, left')) at h
      exact nomatch h
  | succ left =>
      change some (Except.ok ((), left)) = some (Except.ok (u, left')) ↔ _
      constructor
      · intro h
        obtain ⟨-, rfl⟩ := Prod.mk.inj (Except.ok.inj (Option.some.inj h))
        rfl
      · intro h
        rw [Nat.succ_inj.1 h]

end Search

namespace Checker

open Search (Yields)

/-- One matrix of a search, with the steps that are left for the matrices inside. -/
inductive GapsStep (C : Checker) (depth left : Nat) :
    List Row → List Column → List (List Gap) → Nat → Prop
  /-- Nothing is left to match. -/
  | matched {rows : List Row} (hrows : rows ≠ []) : C.GapsStep depth left rows [] [] left
  /-- No row is left. -/
  | unmatched (columns : List Column) :
      C.GapsStep depth left [] columns [columns.map fun c => .any c.ty] left
  /-- The first column is not split. -/
  | default {rows normalized : List Row} {column : Column} {rest : List Column}
      {tails : List (List Gap)} {left' : Nat} (hrows : rows ≠ [])
      (hnormalized : (C.normalize column.ty rows).value? = some normalized)
      (hunsplit : heads normalized = [] ∨
        (C.split column.ty (heads normalized)).value? = some none)
      (htails : (C.gapsWithin depth (defaultRows normalized) rest).Yields left tails left') :
      C.GapsStep depth left rows (column :: rest) (tails.map (.any column.ty :: ·)) left'
  /-- The first column is split into ways of making its values. -/
  | split {rows normalized : List Row} {column : Column} {rest : List Column}
      {ctors : List Ctor} {found : List (List Gap)} {left' left'' : Nat} (hrows : rows ≠ [])
      (hnormalized : (C.normalize column.ty rows).value? = some normalized)
      (hheads : heads normalized ≠ [])
      (hsplit : (C.split column.ty (heads normalized)).value? = some (some ctors))
      (hdepth : (C.checkDepth column).Yields left () left')
      (hfound : (C.gapsByCtor (C.gapsWithin depth) normalized column rest ctors []).Yields
        left' found left'') :
      C.GapsStep depth left rows (column :: rest) found left''

theorem gapsStep_of_yields {C : Checker} {depth : Nat} {rows : List Row}
    {columns : List Column} {found : List (List Gap)} {left left'' : Nat}
    (hfound : (C.gapsWithin (depth + 1) rows columns).Yields left found left'') :
    ∃ left', left = left' + 1 ∧ C.GapsStep depth left' rows columns found left'' := by
  unfold gapsWithin at hfound
  rcases Search.yields_bind.1 hfound with ⟨_, left', hstep, hlevel⟩
  refine ⟨left', Search.yields_step.1 hstep, ?_⟩
  cases rows with
  | nil =>
      cases columns with
      | nil =>
          rcases Search.yields_pure.1 hlevel with ⟨rfl, rfl⟩
          exact .unmatched []
      | cons column rest =>
          rcases Search.yields_pure.1 hlevel with ⟨rfl, rfl⟩
          exact .unmatched (column :: rest)
  | cons row rows =>
      cases columns with
      | nil =>
          rcases Search.yields_pure.1 hlevel with ⟨rfl, rfl⟩
          exact .matched (List.cons_ne_nil row rows)
      | cons column rest =>
          rcases Search.yields_bind.1 hlevel with ⟨normalized, l₁, hasked, hcolumn⟩
          rcases Search.yields_ask.1 hasked with ⟨hnormalized, rfl⟩
          by_cases hheads : (heads normalized).isEmpty = true
          · rw [if_pos hheads] at hcolumn
            rcases Search.yields_bind.1 hcolumn with ⟨ctors?, l₂, hctors, hgaps⟩
            rcases Search.yields_pure.1 hctors with ⟨rfl, rfl⟩
            rcases Search.yields_bind.1 hgaps with ⟨tails, l₃, htails, hdone⟩
            rcases Search.yields_pure.1 hdone with ⟨rfl, rfl⟩
            exact .default (List.cons_ne_nil row rows) hnormalized
              (.inl (List.isEmpty_iff.1 hheads)) htails
          · rw [if_neg hheads] at hcolumn
            rcases Search.yields_bind.1 hcolumn with ⟨ctors?, l₂, hctors, hgaps⟩
            rcases Search.yields_ask.1 hctors with ⟨hsplit, rfl⟩
            cases ctors? with
            | none =>
                rcases Search.yields_bind.1 hgaps with ⟨tails, l₃, htails, hdone⟩
                rcases Search.yields_pure.1 hdone with ⟨rfl, rfl⟩
                exact .default (List.cons_ne_nil row rows) hnormalized (.inr hsplit) htails
            | some ctors =>
                rcases Search.yields_bind.1 hgaps with ⟨_, l₃, hdepth, hloop⟩
                exact .split (List.cons_ne_nil row rows) hnormalized
                  (fun h => hheads (List.isEmpty_iff.2 h)) hsplit hdepth hloop

/-- The checker with other limits and policies. -/
def configured (C : Checker) (config : CheckConfig) : Checker := ⟨C.hierarchy, config⟩

section Configured

variable (C : Checker) (config : CheckConfig)

theorem normalizeHead_configured (ty : Ty) (p : Pattern) :
    (C.configured config).normalizeHead ty p = C.normalizeHead ty p := by
  induction p with
  | wildcard n => rfl
  | binding n x => rfl
  | rest n => rfl
  | literal n v => rfl
  | variant n adt parts _ => rfl
  | extractor n adt parts _ => rfl
  | named n x p ih =>
      unfold normalizeHead
      exact ih
  | typed n p t ih =>
      unfold normalizeHead
      rw [ih]
      rfl
  | alternation n branches ih =>
      unfold normalizeHead
      induction branches with
      | nil => rfl
      | cons p rest ihrest =>
          unfold normalizeBranches
          rw [ih p List.mem_cons_self, ihrest fun q hq => ih q (List.mem_cons_of_mem p hq)]

theorem normalize_configured (ty : Ty) (rows : List Row) :
    (C.configured config).normalize ty rows = C.normalize ty rows := by
  induction rows with
  | nil => rfl
  | cons row rows ih =>
      cases row with
      | nil =>
          unfold normalize
          rw [ih]
      | cons cell tail =>
          cases cell with
          | none =>
              unfold normalize
              rw [ih]
          | some p =>
              unfold normalize
              rw [ih, normalizeHead_configured]

theorem specializeRow_configured :
    (C.configured config).specializeRow = C.specializeRow := by
  funext ctor arity row
  match row with
  | [] => rfl
  | none :: tail => rfl
  | some p :: tail => rfl

end Configured

end Checker

end CaseCover
