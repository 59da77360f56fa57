import Mathlib.Data.List.Perm.Basic
import CaseCover.Proofs.Check.Termination

/-!
The order of patterns, and their repetitions. The gaps of a matrix are listed by the ways of
making values, not by rows, and the ways of making values depend on which patterns there are; so a
closed type has the same gaps for the same patterns in any order, however often each is repeated
(`simulates_sameMembers`). An open type asks each pattern type in turn, and the order decides at
most how many are asked (`missing_of_perm`).
-/

namespace CaseCover

/-- Two lists have the same members, in any order and each any number of times. -/
def SameMembers {α : Type} (as bs : List α) : Prop := ∀ a, a ∈ as ↔ a ∈ bs

namespace SameMembers

variable {α β : Type} {as bs : List α}

theorem of_perm (h : as.Perm bs) : SameMembers as bs := fun _ => h.mem_iff

theorem map (h : SameMembers as bs) (f : α → β) : SameMembers (as.map f) (bs.map f) := by
  intro b
  rw [List.mem_map, List.mem_map]
  exact exists_congr fun a => and_congr_left' (h a)

theorem filterMap (h : SameMembers as bs) (f : α → Option β) :
    SameMembers (as.filterMap f) (bs.filterMap f) := by
  intro b
  rw [List.mem_filterMap, List.mem_filterMap]
  exact exists_congr fun a => and_congr_left' (h a)

theorem flatMap (h : SameMembers as bs) (f : α → List β) :
    SameMembers (as.flatMap f) (bs.flatMap f) := by
  intro b
  rw [List.mem_flatMap, List.mem_flatMap]
  exact exists_congr fun a => and_congr_left' (h a)

theorem any_eq (h : SameMembers as bs) (p : α → Bool) : as.any p = bs.any p := by
  rw [Bool.eq_iff_iff, List.any_eq_true, List.any_eq_true]
  exact exists_congr fun a => and_congr_left' (h a)

theorem isEmpty_eq (h : SameMembers as bs) : as.isEmpty = bs.isEmpty := by
  rw [Bool.eq_iff_iff, List.isEmpty_iff, List.isEmpty_iff, List.eq_nil_iff_forall_not_mem,
    List.eq_nil_iff_forall_not_mem]
  exact forall_congr' fun a => not_congr (h a)

theorem max?_eq {as bs : List Nat} (h : SameMembers as bs) : as.max? = bs.max? := by
  cases has : as.max? with
  | none =>
      rw [List.max?_eq_none_iff, ← List.isEmpty_iff, h.isEmpty_eq, List.isEmpty_iff] at has
      rw [has]
      rfl
  | some n =>
      rw [List.max?_eq_some_iff] at has
      symm
      rw [List.max?_eq_some_iff]
      exact ⟨(h n).1 has.1, fun b hb => has.2 b ((h b).2 hb)⟩

end SameMembers

namespace Query

variable {α β : Type}

/-- The present lists over a list put one after another; none if one is not present. -/
def collect (f : α → Option (List β)) : List α → Option (List β)
  | [] => some []
  | a :: rest => (f a).bind fun found => (collect f rest).map (found ++ ·)

theorem collect_of_present {f : α → Option (List β)} {as : List α}
    (has : ∀ a ∈ as, f a ≠ none) :
    collect f as = some (as.flatMap fun a => (f a).getD []) := by
  induction as with
  | nil => rfl
  | cons a rest ih =>
      obtain ⟨found, hfound⟩ := Option.ne_none_iff_exists'.1 (has a List.mem_cons_self)
      rw [collect, hfound, ih fun b hb => has b (List.mem_cons_of_mem a hb)]
      simp [hfound]

theorem collect_of_absent {f : α → Option (List β)} {as : List α} {a : α} (ha : a ∈ as)
    (hnone : f a = none) : collect f as = none := by
  induction as with
  | nil => exact absurd ha List.not_mem_nil
  | cons b rest ih =>
      rw [collect]
      rcases List.mem_cons.1 ha with rfl | ha
      · rw [hnone, Option.bind_none]
      · rw [ih ha]
        cases f b <;> rfl

theorem mem_collect {f : α → Option (List β)} {as : List α} {bs : List β}
    (hbs : collect f as = some bs) {b : β} :
    b ∈ bs ↔ ∃ a ∈ as, ∃ found, f a = some found ∧ b ∈ found := by
  have has : ∀ a ∈ as, f a ≠ none := by
    intro a ha hnone
    rw [collect_of_absent ha hnone] at hbs
    exact nomatch hbs
  rw [collect_of_present has] at hbs
  obtain rfl := Option.some.inj hbs
  rw [List.mem_flatMap]
  constructor
  · rintro ⟨a, ha, hb⟩
    obtain ⟨found, hfound⟩ := Option.ne_none_iff_exists'.1 (has a ha)
    rw [hfound] at hb
    exact ⟨a, ha, found, hfound, hb⟩
  · rintro ⟨a, ha, found, hfound, hb⟩
    refine ⟨a, ha, ?_⟩
    rw [hfound]
    exact hb

theorem collect_sameMembers (f : α → Option (List β)) {as bs : List α} (h : SameMembers as bs) :
    Option.Rel SameMembers (collect f as) (collect f bs) := by
  by_cases has : ∀ a ∈ as, f a ≠ none
  · have hbs : ∀ b ∈ bs, f b ≠ none := fun b hb => has b ((h b).2 hb)
    rw [collect_of_present has, collect_of_present hbs]
    exact .some (h.flatMap _)
  · push Not at has
    obtain ⟨a, ha, hnone⟩ := has
    rw [collect_of_absent ha hnone, collect_of_absent ((h a).1 ha) hnone]
    exact .none

theorem value?_filterMap (f : α → Query (Option β)) (as : List α) :
    (filterMap f as).value? = collect (fun a => (f a).value?.map Option.toList) as := by
  induction as with
  | nil => rfl
  | cons a as ih =>
      rw [filterMap, value?_bind, collect, ← ih]
      cases (f a).value? with
      | none => rfl
      | some found =>
          cases found with
          | none =>
              change (filterMap f as).value? = (filterMap f as).value?.map ([] ++ ·)
              simp
          | some b => exact value?_map _ _

theorem alike_filterMap_sameMembers (f : α → Query (Option β)) {as bs : List α}
    (h : SameMembers as bs) : Alike SameMembers (filterMap f as) (filterMap f bs) := by
  unfold Alike
  rw [value?_filterMap, value?_filterMap]
  exact collect_sameMembers _ h

/-- An answered search for an element that passes has found one, or has asked about all. -/
theorem value?_any_eq_some {p : α → Query Bool} {as : List α} {r : Bool}
    (hr : (any p as).value? = some r) :
    (r = true → ∃ a ∈ as, (p a).value? = some true) ∧
      (r = false → ∀ a ∈ as, (p a).value? = some false) := by
  induction as with
  | nil =>
      obtain rfl : false = r := Option.some.inj hr
      exact ⟨nofun, fun _ a ha => absurd ha List.not_mem_nil⟩
  | cons a as ih =>
      obtain ⟨b, hb, hfalse, htrue⟩ := value?_either_eq_some hr
      cases b with
      | true =>
          obtain rfl := htrue rfl
          exact ⟨fun _ => ⟨a, List.mem_cons_self, hb⟩, nofun⟩
      | false =>
          obtain ⟨hexists, hall⟩ := ih (hfalse rfl)
          constructor
          · intro h
            obtain ⟨c, hc, hpass⟩ := hexists h
            exact ⟨c, List.mem_cons_of_mem a hc, hpass⟩
          · intro h c hc
            rcases List.mem_cons.1 hc with rfl | hc
            · exact hb
            · exact hall h c hc

theorem value?_any_sameMembers {p : α → Query Bool} {as bs : List α} (h : SameMembers as bs)
    {r s : Bool} (hr : (any p as).value? = some r) (hs : (any p bs).value? = some s) : r = s := by
  cases r with
  | true =>
      obtain ⟨a, ha, hpass⟩ := (value?_any_eq_some hr).1 rfl
      cases s with
      | true => rfl
      | false =>
          have hfail := (value?_any_eq_some hs).2 rfl a ((h a).1 ha)
          exact nomatch Option.some.inj (hpass.symm.trans hfail)
  | false =>
      cases s with
      | false => rfl
      | true =>
          obtain ⟨b, hb, hpass⟩ := (value?_any_eq_some hs).1 rfl
          have hfail := (value?_any_eq_some hr).2 rfl b ((h b).2 hb)
          exact nomatch Option.some.inj (hpass.symm.trans hfail)

end Query

namespace Coverage

/-- An outcome but for the remark on open types. -/
def withoutNote : Coverage → Coverage
  | missing texts _ => missing texts none
  | c => c

end Coverage

namespace Checker

variable {C : Checker}

/-- What a row becomes when its first cell is normalized. -/
def normalizeRow (C : Checker) (ty : Ty) : Row → Query (List Row)
  | some p :: tail => do return (← C.normalizeHead ty p).map (· :: tail)
  | row => pure [row]

theorem value?_normalize (C : Checker) (ty : Ty) (rows : List Row) :
    (C.normalize ty rows).value? =
      Query.collect (fun row => (C.normalizeRow ty row).value?) rows := by
  induction rows with
  | nil => rfl
  | cons row rows ih =>
      rw [Query.collect, ← ih]
      cases row with
      | nil => exact Query.value?_map _ _
      | cons cell tail =>
          cases cell with
          | none => exact Query.value?_map _ _
          | some p =>
              rw [normalize, normalizeRow, Query.value?_bind, Query.value?_bind]
              cases (C.normalizeHead ty p).value? with
              | none => rfl
              | some cells => exact Query.value?_map _ _

theorem split_sameMembers {t : Ty} {ps qs : List Pattern} (h : SameMembers ps qs) :
    C.split t ps = C.split t qs := by
  have hctors : sequenceCtors ps = sequenceCtors qs := by
    rw [sequenceCtors, sequenceCtors, (h.filterMap _).max?_eq]
  simp only [split, hctors]

/-- A search finds the same gaps for the same rows in another order, however often each is
repeated. -/
theorem simulates_sameMembers (C : Checker) : C.Simulates fun _ => SameMembers where
  isEmpty := fun hrows => hrows.isEmpty_eq
  normalize := by
    intro t types rows rows' hrows
    unfold Query.Alike
    rw [value?_normalize, value?_normalize]
    exact Query.collect_sameMembers _ hrows
  heads := fun hrows => (hrows.filterMap _).isEmpty_eq
  split := fun hrows => congrArg Query.value? (split_sameMembers (hrows.filterMap _))
  defaults := fun hrows => hrows.filterMap _
  specialize := fun hrows _ _ _ => Query.alike_filterMap_sameMembers _ hrows

/-- The same patterns leave a closed type's values unmatched alike, down to the limit at which a
search stops. -/
theorem check_closed_of_sameMembers {target : Ty} {ps qs : List (Pattern × PatternType)}
    (h : SameMembers ps qs) (hclosed : C.hierarchy.decls.isClosed target = true) :
    (C.check target ps).value? = (C.check target qs).value? := by
  have hsame : (C.checkClosed target (ps.map Prod.fst)).value? =
      (C.checkClosed target (qs.map Prod.fst)).value? :=
    (simulates_sameMembers C).checkClosed_eq ((h.map Prod.fst).map fun p => [some p])
  unfold check
  rw [h.any_eq, if_pos hclosed, if_pos hclosed, Query.value?_ite, Query.value?_ite, hsame]

/-- Answered checks of the same patterns differ at most in the remark on open types, which lists
the pattern types in their order. -/
theorem withoutNote_of_sameMembers {target : Ty} {ps qs : List (Pattern × PatternType)}
    (h : SameMembers ps qs) {a b : Coverage} (ha : (C.check target ps).value? = some a)
    (hb : (C.check target qs).value? = some b) : a.withoutNote = b.withoutNote := by
  by_cases hclosed : C.hierarchy.decls.isClosed target = true
  · rw [← check_closed_of_sameMembers h hclosed, ha] at hb
    rw [Option.some.inj hb]
  unfold check at ha hb
  rw [if_neg hclosed] at ha hb
  rw [← h.any_eq] at hb
  by_cases hcatch : (ps.any fun p => p.2.isCatchAll) = true
  · rw [if_pos hcatch] at ha hb
    rw [← Option.some.inj ha, ← Option.some.inj hb]
  rw [if_neg hcatch] at ha hb
  rcases Query.value?_bind_eq_some.1 ha with ⟨r, hr, ha⟩
  rcases Query.value?_bind_eq_some.1 hb with ⟨s, hs, hb⟩
  obtain rfl := Query.value?_any_sameMembers (h.map Prod.snd) hr hs
  cases r with
  | true => rw [← Option.some.inj ha, ← Option.some.inj hb]
  | false =>
      rw [← Option.some.inj ha, ← Option.some.inj hb]
      rfl

/-- Patterns in another order leave values unmatched when these do, where both checks have
an answer. -/
theorem missing_of_perm {target : Ty} {ps qs : List (Pattern × PatternType)}
    (h : ps.Perm qs) {a b : Coverage} (ha : (C.check target ps).value? = some a)
    (hb : (C.check target qs).value? = some b) {texts : List String} {note : Option String}
    (hmissing : a = .missing texts note) : ∃ texts' note', b = .missing texts' note' := by
  have hsame := withoutNote_of_sameMembers (.of_perm h) ha hb
  rw [hmissing] at hsame
  cases b with
  | missing texts' note' => exact ⟨texts', note', rfl⟩
  | covered => exact nomatch hsame
  | inconclusive limit => exact nomatch hsame

/-- What a check comes to depends only on which cases there are, not on their order or their
repetitions. For a closed target the answers are the same, with all counterexamples in their order
and the limit at which a search stops; for an open target the verdicts and counterexamples are,
and both checks have one as long as questions about types have answers. -/
theorem check_of_same_cases (C : Checker) (target : Ty) {ps qs : List (Pattern × PatternType)}
    (h : SameMembers ps qs) :
    (C.hierarchy.decls.isClosed target = true →
      (C.check target ps).value? = (C.check target qs).value?) ∧
    (∀ a b, (C.check target ps).value? = some a → (C.check target qs).value? = some b →
      a.withoutNote = b.withoutNote) ∧
    (C.hierarchy.decls.Settled →
      ∃ a b, Query.Settles (fun n => (C.within n).check target ps) a ∧
        Query.Settles (fun n => (C.within n).check target qs) b ∧
        a.withoutNote = b.withoutNote) := by
  refine ⟨check_closed_of_sameMembers h, fun a b ha hb => withoutNote_of_sameMembers h ha hb, ?_⟩
  intro hsettled
  obtain ⟨a, ha⟩ := check_ends hsettled target ps
  obtain ⟨b, hb⟩ := check_ends hsettled target qs
  refine ⟨a, b, ha, hb, ?_⟩
  obtain ⟨enough, hanswers⟩ := ha
  obtain ⟨enough', hanswers'⟩ := hb
  exact withoutNote_of_sameMembers h (hanswers (max enough enough') (Nat.le_max_left ..))
    (hanswers' (max enough enough') (Nat.le_max_right ..))

/-- The patterns `true` and `false` in two orders, one of them with a repetition, for the closed
type of truth values and for an open data type `O`. -/
theorem check_of_same_cases_truth :
    let D := (Workspace.initial.decls.declare "O" [] (.abstractType false)).2
    let C : Checker := ⟨D.within 8, {}⟩
    let answer (b : Bool) : Pattern × PatternType :=
      (.literal default (.bool b), .singleton (.lit (.bool b)))
    let ps := [answer true, answer false, answer true]
    let qs := [answer false, answer true]
    SameMembers ps qs ∧
      (C.check (.prim .bool) ps).value? = (C.check (.prim .bool) qs).value? ∧
      (C.check (.app ⟨8⟩ []) ps).value? ≠ (C.check (.app ⟨8⟩ []) qs).value? ∧
      ∃ a b, Query.Settles (fun n => (C.within n).check (.app ⟨8⟩ []) ps) a ∧
        Query.Settles (fun n => (C.within n).check (.app ⟨8⟩ []) qs) b ∧
        a.withoutNote = b.withoutNote := by
  intro D C answer ps qs
  have hsame : SameMembers ps qs := by
    intro p
    simp only [ps, qs, List.mem_cons, List.not_mem_nil, or_false]
    tauto
  exact ⟨hsame, (check_of_same_cases C (.prim .bool) hsame).1 (by decide), by decide,
    (check_of_same_cases C (.app ⟨8⟩ []) hsame).2.2 (Declarations.settled_of_ordered (by decide))⟩

end Checker

end CaseCover
