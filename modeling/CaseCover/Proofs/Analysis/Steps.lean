import CaseCover.Analysis.Session
import CaseCover.Proofs.Pattern.Evaluation

/-!
Runs of the steps of an analysis. `Step.Yields` says what a step answers in a state and
which state it leaves; a step that uses types, unions or fields leaves the rest alone.
-/

namespace CaseCover

namespace Step

variable {α β : Type}

/-- In a state, a step answers `a` and leaves another state. -/
def Yields (m : Step α) (s : SessionState) (a : α) (s' : SessionState) : Prop :=
  (m.run s).value? = some (a, s')

theorem yields_pure {a b : α} {s s' : SessionState} :
    (pure a : Step α).Yields s b s' ↔ b = a ∧ s' = s := by
  change some (a, s) = some (b, s') ↔ _
  simp [eq_comm]

/-- A composed step answers what its second part does after the first. -/
theorem yields_bind {m : Step α} {f : α → Step β} {s s'' : SessionState} {b : β} :
    (m >>= f).Yields s b s'' ↔ ∃ a s', m.Yields s a s' ∧ (f a).Yields s' b s'' := by
  rw [Yields, StateT.run_bind, Query.value?_bind_eq_some]
  constructor
  · rintro ⟨⟨a, s'⟩, ha, hb⟩
    exact ⟨a, s', ha, hb⟩
  · rintro ⟨a, s', ha, hb⟩
    exact ⟨(a, s'), ha, hb⟩

theorem value?_run_ask (q : Query α) (s : SessionState) :
    ((ask q).run s).value? = q.value?.map fun a => (a, s) := by
  cases q with
  | mk answer => cases answer <;> rfl

theorem yields_ask {q : Query α} {s s' : SessionState} {a : α} :
    (ask q).Yields s a s' ↔ q.value? = some a ∧ s' = s := by
  rw [Yields, value?_run_ask, Option.map_eq_some_iff]
  constructor
  · rintro ⟨b, hb, hpair⟩
    obtain ⟨rfl, rfl⟩ := Prod.mk.inj hpair
    exact ⟨hb, rfl⟩
  · rintro ⟨ha, rfl⟩
    exact ⟨a, ha, rfl⟩

theorem yields_modify {f : SessionState → SessionState} {s s' : SessionState} {u : Unit} :
    (modify f : Step Unit).Yields s u s' ↔ s' = f s := by
  change some ((), f s) = some (u, s') ↔ _
  simp [eq_comm]

theorem yields_get {s s' t : SessionState} :
    (get : Step SessionState).Yields s t s' ↔ t = s ∧ s' = s := by
  change some (s, s) = some (t, s') ↔ _
  simp [eq_comm]

theorem yields_report {d : Diagnostic} {s s' : SessionState} {u : Unit} :
    (report d).Yields s u s' ↔ s' = { s with queue := s.queue.add d } :=
  yields_modify

/-- A step that asks a question about its state and keeps a part of the answer. -/
theorem yields_keep (q : SessionState → Query (α × β))
    (keep : β → SessionState → SessionState) {s s' : SessionState} {a : α} :
    (do
      let (answer, kept) ← ask (q (← get))
      modify (keep kept)
      return answer : Step α).Yields s a s' ↔
        ∃ kept, (q s).value? = some (a, kept) ∧ s' = keep kept s := by
  constructor
  · intro h
    rcases yields_bind.1 h with ⟨_, _, hget, hrest⟩
    rcases yields_get.1 hget with ⟨rfl, rfl⟩
    rcases yields_bind.1 hrest with ⟨⟨answer, kept⟩, _, hask, hkeep⟩
    rcases yields_ask.1 hask with ⟨hanswer, rfl⟩
    rcases yields_bind.1 hkeep with ⟨_, _, hmodify, hdone⟩
    obtain rfl := yields_modify.1 hmodify
    obtain ⟨rfl, rfl⟩ := yields_pure.1 hdone
    exact ⟨kept, hanswer, rfl⟩
  · rintro ⟨kept, hanswer, rfl⟩
    apply yields_bind.2 ⟨s, s, yields_get.2 ⟨rfl, rfl⟩, ?_⟩
    apply yields_bind.2 ⟨(a, kept), s, yields_ask.2 ⟨hanswer, rfl⟩, ?_⟩
    exact yields_bind.2 ⟨(), _, yields_modify.2 rfl, yields_pure.2 ⟨rfl, rfl⟩⟩

/-- A question about unions changes nothing but what is remembered about them. -/
theorem yields_askUnions {q : UnionCache → Query (α × UnionCache)} {s s' : SessionState}
    {a : α} :
    (askUnions q).Yields s a s' ↔
      ∃ unions, (q s.unions).value? = some (a, unions) ∧ s' = { s with unions } :=
  yields_keep (fun s => q s.unions) fun unions s => { s with unions }

end Step

namespace Checker

/-- Extracting the alternatives of a case changes nothing but what is remembered about
fields. -/
theorem yields_alternatives {C : Checker} {c : Case} {s s' : SessionState}
    {result : Except ExtractionError (List (Pattern × PatternType))} :
    (C.alternatives c).Yields s result s' ↔
      ∃ fields, (C.extractor.extractAlternatives c.pattern).answer s.fields =
        some (result, fields) ∧ s' = { s with fields } :=
  Step.yields_keep
    (fun s => (C.extractor.extractAlternatives c.pattern).run.run s.fields)
    fun fields s => { s with fields }

end Checker

end CaseCover
