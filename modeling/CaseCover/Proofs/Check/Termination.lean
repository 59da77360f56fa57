import CaseCover.Proofs.Check.Simulation
import CaseCover.Proofs.Hierarchy.Settled

/-!
Checks that end. A search takes at most the steps of its budget, so nothing in it goes on for
ever but the questions about types that it asks; where these have answers, so does a check
(`check_ends`).
-/

namespace CaseCover

namespace Search

variable {α β : Type}

/-- From any number of steps that are left, a family of searches settles. -/
def Ends (m : Nat → Search α) : Prop := ∀ left, Query.Ends fun n => ((m n).run left).run

theorem ends_pure (a : α) : Ends fun _ => (pure a : Search α) :=
  fun _ => (Query.settles_of_value? fun _ => rfl).ends

theorem ends_stop (limit : SearchLimit) : Ends fun _ => (stop limit : Search α) :=
  fun _ => (Query.settles_of_value? fun _ => rfl).ends

theorem ends_step : Ends fun _ => step := by
  intro left
  cases left <;> exact (Query.settles_of_value? fun _ => rfl).ends

theorem ends_ask {q : Nat → Query α} (hq : Query.Ends q) : Ends fun n => ask (q n) :=
  fun left => (hq.map fun a => Except.ok (a, left)).congr fun n => by
    rw [Query.value?_map]
    exact outcome_ask (q n) left

theorem Ends.congr {m m' : Nat → Search α} (hm : Ends m) (heq : ∀ n, m' n = m n) : Ends m' :=
  fun left => Query.Ends.congr (fun n => by rw [heq]) (hm left)

theorem Ends.bind {m : Nat → Search α} {f : Nat → α → Search β} (hm : Ends m)
    (hf : ∀ a, Ends fun n => f n a) : Ends fun n => m n >>= f n := by
  intro left
  refine Query.Ends.congr (fun n => by rw [StateT.run_bind, ExceptT.run_bind]) ?_
  refine (hm left).bind fun found _ => ?_
  cases found with
  | error limit => exact Query.ends_pure _
  | ok result => exact hf result.1 result.2

end Search

namespace Checker

open Query (Ends ends_pure)

/-- The checker with a limit on nested questions about types. -/
def within (C : Checker) (n : Nat) : Checker := ⟨C.hierarchy.decls.within n, C.config⟩

variable {C : Checker}

theorem decls_within (C : Checker) (n : Nat) :
    (C.within n).hierarchy.decls = C.hierarchy.decls := rfl

theorem normalizeHead_ends (hD : C.hierarchy.decls.Settled) (t : Ty) (p : Pattern) :
    Ends fun n => (C.within n).normalizeHead t p := by
  induction p with
  | wildcard n => exact ends_pure _
  | binding n x => exact ends_pure _
  | rest n => exact ends_pure _
  | literal n v => exact ends_pure _
  | variant n adt parts _ => exact ends_pure _
  | extractor n adt parts _ => exact ends_pure _
  | named n x p ih =>
      unfold normalizeHead
      exact ih
  | typed n p ascribed ih =>
      unfold normalizeHead
      refine (hD.isSubtype_ends _ _).bind fun below _ => ?_
      cases below with
      | true => exact ih
      | false => exact ends_pure _
  | alternation n branches ih =>
      unfold normalizeHead
      induction branches with
      | nil => exact ends_pure []
      | cons p rest ihrest =>
          unfold normalizeBranches
          refine (ih p List.mem_cons_self).bind fun cells _ => ?_
          exact (ihrest fun q hq => ih q (List.mem_cons_of_mem p hq)).map _

theorem normalize_ends (hD : C.hierarchy.decls.Settled) (t : Ty) (rows : List Row) :
    Ends fun n => (C.within n).normalize t rows := by
  induction rows with
  | nil => exact ends_pure []
  | cons row rows ih =>
      match row with
      | [] => exact ih.map _
      | none :: tail => exact ih.map _
      | some p :: tail => exact (normalizeHead_ends hD t p).bind fun cells _ => ih.map _

theorem split_ends (hD : C.hierarchy.decls.Settled) (t : Ty) (ps : List Pattern) :
    Ends fun n => (C.within n).split t ps := by
  unfold split
  by_cases hclosed : C.hierarchy.decls.isClosed t = true
  · simp only [decls_within, hclosed, if_true]
    refine (hD.directSubtypes_ends t).bind fun subtypes _ => ?_
    split
    · cases t with
      | app d args =>
          dsimp only
          split <;> exact ends_pure _
      | prim p => cases p <;> exact ends_pure _
      | lit _ | union _ _ | param _ _ => exact ends_pure _
    · exact ends_pure _
  · simp only [decls_within, hclosed, Bool.false_eq_true, if_false]
    exact ends_pure none

theorem fieldTypes_ends (C : Checker) (t : Ty) (ctor : Ctor) :
    Ends fun n => (C.within n).fieldTypes t ctor := by
  cases ctor with
  | product t => exact (Query.liftM_ends (C.hierarchy.decls.fieldsOf t)).map (·.map Field.ty)
  | _ => exact ends_pure _

theorem overlaps_ends (hD : C.hierarchy.decls.Settled) (ascribed sub : Ty) :
    Ends fun n => (C.within n).overlaps ascribed sub := by
  refine (hD.isSubtype_ends _ _).bind fun below _ => ?_
  cases below with
  | true => exact ends_pure true
  | false =>
      simp only [Bool.false_eq_true, if_false]
      split
      · exact Query.ends_of_constant (fun _ => rfl) (Option.some_ne_none _)
      · exact ends_pure false

theorem specialize_ends (hD : C.hierarchy.decls.Settled) (p : Pattern) (ctor : Ctor)
    (arity : Nat) : Ends fun n => (C.within n).specialize p ctor arity := by
  unfold specialize
  simp only [decls_within]
  split
  case h_1 n part ascribed sub =>
    refine (hD.isSubtype_ends _ _).bind fun below _ => ?_
    cases below with
    | true => exact ends_pure (some [some part])
    | false =>
        refine (overlaps_ends hD ascribed sub).bind fun overlap _ => ?_
        cases overlap <;> exact ends_pure _
  case h_2 n l sub =>
    refine (Query.build_ends _).bind fun t _ => (hD.isSubtype_ends t sub).bind fun below _ => ?_
    cases below <;> exact ends_pure _
  case h_3 n l single => exact (Query.build_ends _).map _
  case h_4 n adt parts sub =>
    split
    · exact Query.ends_of_constant (fun _ => rfl) (Option.some_ne_none _)
    · exact ends_pure none
  case h_5 n adt parts sub =>
    split
    · exact Query.ends_of_constant (fun _ => rfl) (Option.some_ne_none _)
    · exact ends_pure none
  all_goals exact ends_pure _

theorem specializeRow_ends (hD : C.hierarchy.decls.Settled) (ctor : Ctor) (arity : Nat)
    (row : Row) : Ends fun n => (C.within n).specializeRow ctor arity row := by
  match row with
  | [] => exact ends_pure none
  | none :: tail => exact ends_pure _
  | some p :: tail => exact (specialize_ends hD p ctor arity).map _

theorem gapsByCtor_ends (hD : C.hierarchy.decls.Settled)
    {gapsOf : Nat → List Row → List Column → Search (List (List Gap))}
    (hgapsOf : ∀ rows columns, Search.Ends fun n => gapsOf n rows columns) (rows : List Row)
    (column : Column) (rest : List Column) (ctors : List Ctor) (known : List (List Gap)) :
    Search.Ends fun n => (C.within n).gapsByCtor (gapsOf n) rows column rest ctors known := by
  induction ctors generalizing known with
  | nil => exact Search.ends_pure known
  | cons ctor ctors ih =>
      unfold gapsByCtor
      refine (Search.ends_ask (fieldTypes_ends C _ _)).bind fun fields => ?_
      refine (Search.ends_ask (Query.filterMap_ends (specializeRow_ends hD _ _) rows)).bind
        fun specialized => ?_
      refine (hgapsOf _ _).bind fun found => ?_
      have hlimit (n : Nat) : (C.within n).gapLimit = C.gapLimit := rfl
      by_cases hfull : C.gapLimit ≤
          (known ++ found.map (regroup ctor column.ty fields.length)).length
      · simp only [hlimit, hfull, if_true]
        exact Search.ends_pure _
      · simp only [hlimit, hfull, if_false]
        exact ih _

theorem checkDepth_ends (C : Checker) (column : Column) :
    Search.Ends fun n => (C.within n).checkDepth column := by
  unfold checkDepth
  cases column.ty with
  | app adt args =>
      by_cases hdepth : C.config.maxUnfoldDepth ≤ column.enclosing.count adt
      · exact (Search.ends_stop _).congr fun n => if_pos hdepth
      · exact (Search.ends_pure ()).congr fun n => if_neg hdepth
  | prim _ | lit _ | union _ _ | param _ _ => exact Search.ends_pure ()

/-- A search ends, however deeply it nests matrices. -/
theorem gapsWithin_ends (hD : C.hierarchy.decls.Settled) (depth : Nat) (rows : List Row)
    (columns : List Column) : Search.Ends fun n => (C.within n).gapsWithin depth rows columns := by
  induction depth generalizing rows columns with
  | zero => exact Search.ends_stop _
  | succ depth ih =>
      unfold gapsWithin
      refine Search.ends_step.bind fun _ => ?_
      cases columns with
      | nil => exact Search.ends_pure _
      | cons column rest =>
          dsimp only
          split
          · exact Search.ends_pure _
          refine (Search.ends_ask (normalize_ends hD _ _)).bind fun normalized => ?_
          split
          on_goal 1 => refine (Search.ends_pure none).bind fun ctors? => ?_
          on_goal 2 => refine (Search.ends_ask (split_ends hD _ _)).bind fun ctors? => ?_
          all_goals
            cases ctors? with
            | none => exact (ih _ _).bind fun tails => Search.ends_pure _
            | some ctors =>
                refine (checkDepth_ends C column).bind fun _ => ?_
                exact gapsByCtor_ends hD ih normalized column rest ctors []

theorem matchesWhole_ends (hD : C.hierarchy.decls.Settled) (target : Ty) (p : PatternType) :
    Ends fun n => (C.within n).matchesWhole target p := by
  refine (hD.isSubtype_ends _ _).bind fun whole _ => ?_
  cases whole with
  | true =>
      refine Query.all_ends (fun w => ?_) p.witnesses
      split
      · exact ends_pure true
      · exact hD.isSubtype_ends target w
  | false => exact ends_pure false

/-- A check has an answer where subtyping and joins are found. -/
theorem check_ends (hD : C.hierarchy.decls.Settled) (target : Ty)
    (patterns : List (Pattern × PatternType)) :
    Ends fun n => (C.within n).check target patterns := by
  unfold check
  split
  · exact ends_pure Coverage.covered
  by_cases hclosed : C.hierarchy.decls.isClosed target = true
  · simp only [decls_within, hclosed, if_true]
    have hgaps : Ends fun n => (C.within n).gaps ((patterns.map Prod.fst).map fun p => [some p])
        [⟨target, []⟩] :=
      (gapsWithin_ends hD C.config.stepBudget _ _ C.config.stepBudget).map _
    refine hgaps.bind fun found _ => ?_
    cases found with
    | error limit => exact ends_pure _
    | ok found =>
        cases found with
        | nil => exact ends_pure _
        | cons gaps found => exact Query.ends_of_constant (fun _ => rfl) (Option.some_ne_none _)
  · simp only [decls_within, hclosed, Bool.false_eq_true, if_false]
    refine (Query.any_ends (matchesWhole_ends hD target) _).bind fun whole _ => ?_
    cases whole with
    | true => exact ends_pure _
    | false => exact Query.ends_of_constant (fun _ => rfl) (Option.some_ne_none _)

end Checker

end CaseCover
