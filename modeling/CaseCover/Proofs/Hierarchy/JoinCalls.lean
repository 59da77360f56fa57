import CaseCover.Hierarchy.Join
import CaseCover.Proofs.Hierarchy.SubtypingCalls

/-!
The questions that a join asks in turn: joins of arguments, comparisons of the two
types, the join of the widened types, and the join with the nearest ancestor that both
have. `lubWithin_ends_iff` says that a join is found, whatever the limit from some limit
on, exactly when none of its chains of calls goes on for ever.
-/

namespace CaseCover

namespace Declarations

open Query (Settles Ends Refines)

/-- Two argument lists cannot be joined: at some position that is not covariant they
have different types. -/
def ArgsDiffer : List TypeParam → List Ty → List Ty → Prop
  | p :: params, a :: as, b :: bs =>
    (p.variance ≠ .covariant ∧ a ≠ b) ∨ ArgsDiffer params as bs
  | _, _, _ => False

/-- The joins that joining two argument lists leads to: those of the covariant
positions up to the first other position with different types. -/
inductive ArgCall : List TypeParam → List Ty → List Ty → Ty × Ty → Prop
  | here {p : TypeParam} {params : List TypeParam} {a b : Ty} {as bs : List Ty}
      (hp : p.variance = .covariant) : ArgCall (p :: params) (a :: as) (b :: bs) (a, b)
  | later {p : TypeParam} {params : List TypeParam} {a b : Ty} {as bs : List Ty}
      {q : Ty × Ty} (hhead : p.variance ≠ .covariant → a = b)
      (htail : ArgCall params as bs q) : ArgCall (p :: params) (a :: as) (b :: bs) q

/-- The join of two types is known without a question. -/
def JoinedAtOnce (a b : Ty) : Prop := a = b ∨ a = .noType ∨ b = .noType

/-- Two types are not joined argument by argument. -/
def Unjoined (D : Declarations) (a b : Ty) : Prop :=
  ∀ d as bs, a = .app d as → b = .app d bs → ArgsDiffer (D.get d).params as bs

/-- The first type of a list that `b` can be viewed as, with that view. -/
def meeting? (D : Declarations) (b : Ty) : List Ty → Option (Ty × Ty)
  | [] => none
  | .app d args :: rest =>
    match (D.upcast b d).value with
    | none => meeting? D b rest
    | some view => some (.app d args, view)
  | _ :: rest => meeting? D b rest

/-- Two types are not joined argument by argument and none is below the other. -/
structure Unrelated (D : Declarations) (a b : Ty) : Prop where
  undecided : ¬ JoinedAtOnce a b
  unjoined : D.Unjoined a b
  not_below : Settles (fun n => D.subtypeWithin n a b) false
  not_above : Settles (fun n => D.subtypeWithin n b a) false

/-- The comparisons that a join asks for. -/
inductive JoinAsks (D : Declarations) (a b : Ty) : Ty × Ty → Prop
  | below (hab : ¬ JoinedAtOnce a b) (hjoin : D.Unjoined a b) : D.JoinAsks a b (a, b)
  | above (hab : ¬ JoinedAtOnce a b) (hjoin : D.Unjoined a b)
      (hbelow : Settles (fun n => D.subtypeWithin n a b) false) : D.JoinAsks a b (b, a)

/-- The joins that a join asks for. -/
inductive JoinCall (D : Declarations) : Ty → Ty → Ty × Ty → Prop
  | arg {d : DataId} {as bs : List Ty} {q : Ty × Ty}
      (hab : ¬ JoinedAtOnce (.app d as) (.app d bs))
      (hq : ArgCall (D.get d).params as bs q) : D.JoinCall (.app d as) (.app d bs) q
  | widen {a b : Ty} (hab : D.Unrelated a b) (hw : a.widen ≠ a ∨ b.widen ≠ b) :
      D.JoinCall a b (a.widen, b.widen)
  | meet {a : Ty} {e : DataId} {bs : List Ty} {q : Ty × Ty}
      (hab : D.Unrelated a (.app e bs)) (hw : ¬ (a.widen ≠ a ∨ (Ty.app e bs).widen ≠ .app e bs))
      (hq : D.meeting? (.app e bs) (D.ancestors a).value = some q) :
      D.JoinCall a (.app e bs) q

/-- No chain of calls that starts with a join goes on for ever. -/
inductive JoinFinite (D : Declarations) : Ty → Ty → Prop
  | intro {a b : Ty} (hasks : ∀ q, D.JoinAsks a b q → D.SubtypeFinite q.1 q.2)
      (hcalls : ∀ q, D.JoinCall a b q → D.JoinFinite q.1 q.2) : D.JoinFinite a b

section Arguments

/-- The join of the arguments at one position, if there is one. -/
def joinAt (bound : Ty → Ty → Query Ty) (v : Variance) (a b : Ty) : Query (Option Ty) :=
  match v with
  | .covariant => some <$> bound a b
  | .contravariant | .invariant => pure (if a = b then some a else none)

/-- The joined arguments from a position on, given what the position has. -/
def joinRest (rest : Query (Option (List Ty))) : Option Ty → Query (Option (List Ty))
  | none => pure none
  | some t => do return (← rest).map (t :: ·)

theorem joinArgs_cons (bound : Ty → Ty → Query Ty) (p : TypeParam)
    (params : List TypeParam) (a b : Ty) (as bs : List Ty) :
    joinArgs bound (p :: params) (a :: as) (b :: bs) =
      joinAt bound p.variance a b >>= joinRest (joinArgs bound params as bs) := by
  rw [joinArgs]
  cases p.variance <;> refine congrArg (_ >>= ·) (funext fun first => ?_) <;>
    cases first <;> rfl

variable {bound bound' : Ty → Ty → Query Ty}

theorem joinAt_refines (hbound : ∀ a b, Refines (bound a b) (bound' a b)) (v : Variance)
    (a b : Ty) : Refines (joinAt bound v a b) (joinAt bound' v a b) := by
  cases v with
  | covariant => exact (hbound a b).bind fun _ => .rfl
  | contravariant => exact .rfl
  | invariant => exact .rfl

theorem joinRest_refines {rest rest' : Query (Option (List Ty))}
    (hrest : Refines rest rest') (first : Option Ty) :
    Refines (joinRest rest first) (joinRest rest' first) := by
  cases first with
  | none => exact .rfl
  | some t => exact hrest.bind fun _ => .rfl

theorem joinArgs_refines (hbound : ∀ a b, Refines (bound a b) (bound' a b))
    (params : List TypeParam) (as bs : List Ty) :
    Refines (joinArgs bound params as bs) (joinArgs bound' params as bs) := by
  induction params generalizing as bs with
  | nil => exact .rfl
  | cons p params ih =>
      cases as with
      | nil => exact .rfl
      | cons a as =>
          cases bs with
          | nil => exact .rfl
          | cons b bs =>
              rw [joinArgs_cons, joinArgs_cons]
              refine (joinAt_refines hbound _ a b).bind fun first => ?_
              exact joinRest_refines (ih as bs) first

theorem joinAt_eq_none_iff {v : Variance} {a b : Ty} {first : Option Ty}
    (hfirst : (joinAt bound v a b).value? = some first) :
    first = none ↔ v ≠ .covariant ∧ a ≠ b := by
  have equal : v ≠ .covariant → (joinAt bound v a b).value? =
      some (if a = b then some a else none) := by
    intro hv
    cases v with
    | covariant => exact absurd rfl hv
    | contravariant => rfl
    | invariant => rfl
  by_cases hv : v = .covariant
  · subst hv
    rw [joinAt, Query.value?_map, Option.map_eq_some_iff] at hfirst
    obtain ⟨t, -, rfl⟩ := hfirst
    simp
  · rw [equal hv, Option.some.injEq] at hfirst
    subst hfirst
    simp [hv]

/-- Argument lists that have been compared have no join exactly when they differ. -/
theorem joinArgs_eq_none_iff {params : List TypeParam} {as bs : List Ty}
    {r : Option (List Ty)} (hr : (joinArgs bound params as bs).value? = some r) :
    r = none ↔ ArgsDiffer params as bs := by
  have undiffering : ∀ {r : Option (List Ty)},
      (pure (some []) : Query (Option (List Ty))).value? = some r →
        (r = none ↔ False) := by
    intro r hr
    obtain rfl : some [] = r := by simpa using hr
    simp
  induction params generalizing as bs r with
  | nil => exact undiffering hr
  | cons p params ih =>
      cases as with
      | nil => exact undiffering hr
      | cons a as =>
          cases bs with
          | nil => exact undiffering hr
          | cons b bs =>
              rw [joinArgs_cons, Query.value?_bind_eq_some] at hr
              obtain ⟨first, hfirst, hr⟩ := hr
              have hiff := joinAt_eq_none_iff hfirst
              cases first with
              | none =>
                  obtain rfl : none = r := by simpa [joinRest] using hr
                  exact ⟨fun _ => .inl (hiff.1 rfl), fun _ => rfl⟩
              | some t =>
                  rw [joinRest, Query.value?_bind_eq_some] at hr
                  obtain ⟨rest, hrest, hr⟩ := hr
                  obtain rfl : rest.map (t :: ·) = r := by simpa using hr
                  have hsame : ¬ (p.variance ≠ .covariant ∧ a ≠ b) :=
                    fun h => nomatch hiff.2 h
                  have hlater : rest = none ↔ ArgsDiffer params as bs := ih hrest
                  rw [Option.map_eq_none_iff, hlater, ArgsDiffer]
                  exact ⟨.inr, fun h => h.resolve_left hsame⟩

end Arguments

section Calls

variable {W : Nat → Ty → Ty → Query Ty}

/-- Argument lists are joined in the end when all joins they lead to are found. -/
theorem joinArgs_ends (params : List TypeParam) (as bs : List Ty)
    (hcalls : ∀ q, ArgCall params as bs q → Ends fun n => W n q.1 q.2) :
    Ends fun n => joinArgs (W n) params as bs := by
  induction params generalizing as bs with
  | nil => exact Query.ends_pure _
  | cons p params ih =>
      cases as with
      | nil => exact Query.ends_pure _
      | cons a as =>
          cases bs with
          | nil => exact Query.ends_pure _
          | cons b bs =>
              simp only [joinArgs_cons]
              have head : Ends fun n => joinAt (W n) p.variance a b := by
                cases hv : p.variance with
                | covariant => exact (hcalls _ (.here hv)).map some
                | contravariant => exact Query.ends_pure _
                | invariant => exact Query.ends_pure _
              refine head.bind fun first hfirst => ?_
              cases first with
              | none => exact Query.ends_pure _
              | some t =>
                  obtain ⟨limit, hlimit⟩ := hfirst
                  have hiff := joinAt_eq_none_iff (hlimit limit (Nat.le_refl limit))
                  have hsame : p.variance ≠ .covariant → a = b := by
                    intro hv
                    by_contra hne
                    exact nomatch hiff.2 ⟨hv, hne⟩
                  refine Ends.map _ (ih as bs fun q hq => ?_)
                  exact hcalls q (.later hsame hq)

/-- Argument lists that have been joined have found all the joins they lead to. -/
theorem value?_of_argCall {n : Nat} {params : List TypeParam} {as bs : List Ty}
    {q : Ty × Ty} (hq : ArgCall params as bs q) {r : Option (List Ty)}
    (hr : (joinArgs (W n) params as bs).value? = some r) :
    ∃ t, (W n q.1 q.2).value? = some t := by
  induction hq generalizing r with
  | here hv =>
      rw [joinArgs_cons, Query.value?_bind_eq_some] at hr
      obtain ⟨first, hfirst, -⟩ := hr
      rw [hv, joinAt, Query.value?_map, Option.map_eq_some_iff] at hfirst
      obtain ⟨t, ht, -⟩ := hfirst
      exact ⟨t, ht⟩
  | later hhead _ ih =>
      rw [joinArgs_cons, Query.value?_bind_eq_some] at hr
      obtain ⟨first, hfirst, hr⟩ := hr
      have hiff := joinAt_eq_none_iff hfirst
      cases first with
      | none =>
          obtain ⟨hv, hne⟩ := hiff.1 rfl
          exact absurd (hhead hv) hne
      | some t =>
          rw [joinRest, Query.value?_bind_eq_some] at hr
          obtain ⟨rest, hrest, -⟩ := hr
          exact ih hrest

end Calls

section Applications

variable {bound bound' : Ty → Ty → Query Ty}

theorem value?_joinApplications_same (D : Declarations) (d : DataId) (as bs : List Ty) :
    (D.joinApplications bound (.app d as) (.app d bs)).value? =
      (joinArgs bound (D.get d).params as bs).value?.map (·.map (.app d)) := by
  rw [joinApplications, if_pos rfl, Query.value?_bind]
  cases (joinArgs bound (D.get d).params as bs).value? with
  | none => rfl
  | some r => cases r <;> rfl

theorem value?_joinApplications_other (D : Declarations) {a b : Ty}
    (hab : ¬ ∃ d as bs, a = .app d as ∧ b = .app d bs) :
    (D.joinApplications bound a b).value? = some none := by
  unfold joinApplications
  split
  · rename_i d as e bs
    have hne : d ≠ e := by
      rintro rfl
      exact hab ⟨d, as, bs, rfl, rfl⟩
    rw [if_neg hne, Query.value?_pure]
  · rfl

theorem joinApplications_refines (D : Declarations)
    (hbound : ∀ a b, Refines (bound a b) (bound' a b)) (a b : Ty) :
    Refines (D.joinApplications bound a b) (D.joinApplications bound' a b) := by
  intro r hr
  by_cases hab : ∃ d as bs, a = .app d as ∧ b = .app d bs
  · obtain ⟨d, as, bs, rfl, rfl⟩ := hab
    rw [value?_joinApplications_same, Option.map_eq_some_iff] at hr ⊢
    obtain ⟨args, hargs, rfl⟩ := hr
    exact ⟨args, joinArgs_refines hbound _ as bs args hargs, rfl⟩
  · rw [value?_joinApplications_other D hab] at hr ⊢
    exact hr

/-- Types whose argument-wise join is known have none exactly when they are unjoined. -/
theorem joinApplications_eq_none_iff {D : Declarations} {a b : Ty} {r : Option Ty}
    (hr : (D.joinApplications bound a b).value? = some r) :
    r = none ↔ D.Unjoined a b := by
  by_cases hab : ∃ d as bs, a = .app d as ∧ b = .app d bs
  · obtain ⟨d, as, bs, rfl, rfl⟩ := hab
    rw [value?_joinApplications_same, Option.map_eq_some_iff] at hr
    obtain ⟨args, hargs, rfl⟩ := hr
    rw [Option.map_eq_none_iff, joinArgs_eq_none_iff hargs]
    constructor
    · intro hdiffer e us vs hus hvs
      obtain ⟨rfl, rfl⟩ := Ty.app.inj hus
      obtain ⟨-, rfl⟩ := Ty.app.inj hvs
      exact hdiffer
    · intro hunjoined
      exact hunjoined d as bs rfl rfl
  · rw [value?_joinApplications_other D hab, Option.some.injEq] at hr
    subst hr
    refine ⟨fun _ d as bs ha hb => ?_, fun _ => rfl⟩
    exact absurd ⟨d, as, bs, ha, hb⟩ hab

theorem joinApplications_ends {D : Declarations} {W : Nat → Ty → Ty → Query Ty}
    {a b : Ty} (hcalls : ∀ d as bs, a = .app d as → b = .app d bs → ∀ q,
      ArgCall (D.get d).params as bs q → Ends fun n => W n q.1 q.2) :
    Ends fun n => D.joinApplications (W n) a b := by
  by_cases hab : ∃ d as bs, a = .app d as ∧ b = .app d bs
  · obtain ⟨d, as, bs, rfl, rfl⟩ := hab
    obtain ⟨r, limit, hlimit⟩ :=
      joinArgs_ends (D.get d).params as bs (hcalls d as bs rfl rfl)
    refine ⟨r.map (.app d), limit, fun n hn => ?_⟩
    rw [value?_joinApplications_same, hlimit n hn, Option.map_some]
  · exact ⟨none, 0, fun n _ => D.value?_joinApplications_other hab⟩

end Applications

section Branches

variable (D : Declarations)

/-- The join of two unrelated types: that of the widened types, or that with the nearest
ancestor of the first that the second can be viewed as. -/
def climbWithin (n : Nat) (a b : Ty) : Query Ty :=
  if a.widen ≠ a ∨ b.widen ≠ b then D.lubWithin n a.widen b.widen
  else
    match b with
    | .app _ _ => do joinAncestors D (D.lubWithin n) b (← D.ancestors a)
    | _ => pure .any

/-- The join of two types that are not joined argument by argument. -/
def compareWithin (n : Nat) (a b : Ty) : Query Ty := do
  if ← D.subtypeWithin n a b then pure b
  else if ← D.subtypeWithin n b a then pure a
  else D.climbWithin n a b

theorem lubWithin_joinedAtOnce {a b : Ty} (hab : JoinedAtOnce a b) :
    ∃ r, ∀ n, (D.lubWithin (n + 1) a b).value? = some r := by
  by_cases heq : a = b
  · refine ⟨a, fun n => ?_⟩
    unfold lubWithin
    rw [if_pos heq, Query.value?_pure]
  · refine ⟨.noType, fun n => ?_⟩
    unfold lubWithin
    rw [if_neg heq, if_pos (hab.resolve_left heq), Query.value?_pure]

theorem lubWithin_succ (n : Nat) {a b : Ty} (hab : ¬ JoinedAtOnce a b) :
    D.lubWithin (n + 1) a b = (do
      match ← D.joinApplications (D.lubWithin n) a b with
      | some joined => pure joined
      | none => D.compareWithin n a b) := by
  unfold JoinedAtOnce at hab
  conv_lhs => unfold lubWithin
  rw [if_neg (fun h => hab (.inl h)), if_neg (fun h => hab (.inr h))]
  rfl

theorem value?_joinAncestors (bound : Ty → Ty → Query Ty) (b : Ty) (ts : List Ty) :
    (D.joinAncestors bound b ts).value? =
      match D.meeting? b ts with
      | none => some .any
      | some q => (bound q.1 q.2).value? := by
  induction ts with
  | nil => rfl
  | cons t ts ih =>
      cases t with
      | app d args =>
          rw [joinAncestors, meeting?, Query.value?_bind, Query.value?_liftM]
          cases (D.upcast b d).value with
          | none => exact ih
          | some view => rfl
      | prim p => exact ih
      | lit v => exact ih
      | union x y => exact ih
      | param o i => exact ih

/-- The three ways in which the join of two unrelated types goes on. -/
inductive ClimbBranch (a b : Ty) : Prop
  | widen (hw : a.widen ≠ a ∨ b.widen ≠ b)
      (hclimb : ∀ n, D.climbWithin n a b = D.lubWithin n a.widen b.widen)
  | meet (e : DataId) (bs : List Ty) (q : Ty × Ty) (hb : b = .app e bs)
      (hw : ¬ (a.widen ≠ a ∨ b.widen ≠ b))
      (hq : D.meeting? b (D.ancestors a).value = some q)
      (hclimb : ∀ n, (D.climbWithin n a b).value? = (D.lubWithin n q.1 q.2).value?)
  | top (hclimb : ∀ n, (D.climbWithin n a b).value? = some .any)

theorem climbBranch (a b : Ty) : D.ClimbBranch a b := by
  by_cases hw : a.widen ≠ a ∨ b.widen ≠ b
  · refine .widen hw fun n => ?_
    unfold climbWithin
    rw [if_pos hw]
  have top : (∀ e bs, b ≠ .app e bs) → D.ClimbBranch a b := by
    intro hb
    refine .top fun n => ?_
    unfold climbWithin
    rw [if_neg hw]
    split
    · exact absurd rfl (hb _ _)
    · rfl
  cases b with
  | app e bs =>
      have climb : ∀ n, (D.climbWithin n a (.app e bs)).value? =
          match D.meeting? (.app e bs) (D.ancestors a).value with
          | none => some .any
          | some q => (D.lubWithin n q.1 q.2).value? := by
        intro n
        rw [climbWithin, if_neg hw, Query.value?_bind, Query.value?_liftM,
          Option.bind_some, value?_joinAncestors]
      cases hq : D.meeting? (.app e bs) (D.ancestors a).value with
      | none =>
          refine .top fun n => ?_
          rw [climb, hq]
      | some q =>
          refine .meet e bs q rfl hw hq fun n => ?_
          rw [climb, hq]
  | prim p => exact top (by simp)
  | lit v => exact top (by simp)
  | union x y => exact top (by simp)
  | param o i => exact top (by simp)

end Branches

/-- A larger limit never changes a join. -/
theorem lubWithin_refines (D : Declarations) (n : Nat) (a b : Ty) :
    Refines (D.lubWithin n a b) (D.lubWithin (n + 1) a b) := by
  induction n generalizing a b with
  | zero =>
      intro r hr
      rw [lubWithin, Query.value?_unanswered] at hr
      exact nomatch hr
  | succ n ih =>
      by_cases hab : JoinedAtOnce a b
      · obtain ⟨r, hr⟩ := D.lubWithin_joinedAtOnce hab
        intro s hs
        rw [hr (n + 1), ← hr n]
        exact hs
      rw [lubWithin_succ D n hab, lubWithin_succ D (n + 1) hab]
      refine (D.joinApplications_refines ih a b).bind fun joined => ?_
      cases joined with
      | some t => exact .rfl
      | none =>
          refine (D.subtypeWithin_refines n a b).bind fun below => ?_
          cases below with
          | true => exact .rfl
          | false =>
              refine (D.subtypeWithin_refines n b a).bind fun above => ?_
              cases above with
              | true => exact .rfl
              | false =>
                  intro r hr
                  simp only [Bool.false_eq_true, if_false] at hr ⊢
                  cases D.climbBranch a b with
                  | widen hw hclimb =>
                      rw [hclimb] at hr ⊢
                      exact ih _ _ r hr
                  | meet e bs q hb hw hq hclimb =>
                      rw [hclimb] at hr ⊢
                      exact ih _ _ r hr
                  | top hclimb =>
                      rw [hclimb] at hr ⊢
                      exact hr

/-- A join all of whose chains of calls are finite is found. -/
theorem JoinFinite.ends {D : Declarations} {a b : Ty} (hab : D.JoinFinite a b) :
    Ends fun n => D.lubWithin n a b := by
  induction hab with
  | @intro a b hasks _ ih =>
      refine Ends.of_succ ?_
      by_cases hopen : JoinedAtOnce a b
      · obtain ⟨r, hr⟩ := D.lubWithin_joinedAtOnce hopen
        exact (Query.settles_of_value? hr).ends
      simp only [lubWithin_succ D _ hopen]
      have hargs : Ends fun n => D.joinApplications (D.lubWithin n) a b := by
        refine joinApplications_ends fun d as bs ha hb q hq => ?_
        subst ha
        subst hb
        exact ih q (.arg hopen hq)
      refine hargs.bind fun joined hjoined => ?_
      cases joined with
      | some t => exact Query.ends_pure t
      | none =>
          have hunjoined : D.Unjoined a b := by
            obtain ⟨limit, hlimit⟩ := hjoined
            exact (joinApplications_eq_none_iff (hlimit limit (Nat.le_refl limit))).1 rfl
          refine Ends.bind (hasks _ (.below hopen hunjoined)).ends fun below hbelow => ?_
          cases below with
          | true => exact Query.ends_pure b
          | false =>
              refine Ends.bind (hasks _ (.above hopen hunjoined hbelow)).ends
                fun above habove => ?_
              cases above with
              | true => exact Query.ends_pure a
              | false =>
                  have hunrelated : D.Unrelated a b :=
                    ⟨hopen, hunjoined, hbelow, habove⟩
                  simp only [Bool.false_eq_true, if_false]
                  cases D.climbBranch a b with
                  | widen hw hclimb =>
                      simp only [hclimb]
                      exact ih _ (.widen hunrelated hw)
                  | meet e bs q hb hw hq hclimb =>
                      subst hb
                      exact Ends.congr hclimb (ih q (.meet hunrelated hw hq))
                  | top hclimb => exact ⟨.any, 0, fun n _ => hclimb n⟩

/-- The join of types that are not joined argument by argument compares them first. -/
theorem value?_lubWithin_unjoined {D : Declarations} {n : Nat} {a b : Ty}
    (hab : ¬ JoinedAtOnce a b) (hjoin : D.Unjoined a b) {r : Ty}
    (hr : (D.lubWithin (n + 1) a b).value? = some r) :
    (D.compareWithin n a b).value? = some r := by
  rw [lubWithin_succ D n hab, Query.value?_bind_eq_some] at hr
  obtain ⟨joined, hjoined, hr⟩ := hr
  obtain rfl := (joinApplications_eq_none_iff hjoined).2 hjoin
  exact hr

theorem value?_lubWithin_unrelated {D : Declarations} {n : Nat} {a b : Ty}
    (hab : D.Unrelated a b) {r : Ty}
    (hr : (D.lubWithin (n + 1) a b).value? = some r) :
    (D.climbWithin n a b).value? = some r := by
  have hcompare := value?_lubWithin_unjoined hab.undecided hab.unjoined hr
  rw [compareWithin, Query.value?_bind_eq_some] at hcompare
  obtain ⟨below, hbelow, hcompare⟩ := hcompare
  obtain rfl := hab.not_below.value?_eq (fun n => D.subtypeWithin_refines n a b) hbelow
  rw [if_neg Bool.false_ne_true, Query.value?_bind_eq_some] at hcompare
  obtain ⟨above, habove, hcompare⟩ := hcompare
  obtain rfl := hab.not_above.value?_eq (fun n => D.subtypeWithin_refines n b a) habove
  rwa [if_neg Bool.false_ne_true] at hcompare

/-- A join that is found has no endless chain of calls: all that it asks for is answered
with a smaller limit. -/
theorem joinFinite_of_value? {D : Declarations} {n : Nat} {a b r : Ty}
    (hr : (D.lubWithin n a b).value? = some r) : D.JoinFinite a b := by
  induction n generalizing a b r with
  | zero =>
      rw [lubWithin, Query.value?_unanswered] at hr
      exact nomatch hr
  | succ n ih =>
      refine .intro (fun q hq => ?_) fun q hq => ?_
      · cases hq with
        | below hab hjoin =>
            have hcompare := value?_lubWithin_unjoined hab hjoin hr
            rw [compareWithin, Query.value?_bind_eq_some] at hcompare
            obtain ⟨below, hbelow, -⟩ := hcompare
            exact subtypeFinite_of_value? hbelow
        | above hab hjoin hnot =>
            have hcompare := value?_lubWithin_unjoined hab hjoin hr
            rw [compareWithin, Query.value?_bind_eq_some] at hcompare
            obtain ⟨below, hbelow, hcompare⟩ := hcompare
            obtain rfl := hnot.value?_eq (fun n => D.subtypeWithin_refines n a b) hbelow
            rw [if_neg Bool.false_ne_true, Query.value?_bind_eq_some] at hcompare
            obtain ⟨above, habove, -⟩ := hcompare
            exact subtypeFinite_of_value? habove
      · cases hq with
        | arg hab hcall =>
            rw [lubWithin_succ D n hab, Query.value?_bind_eq_some] at hr
            obtain ⟨joined, hjoined, -⟩ := hr
            rw [value?_joinApplications_same, Option.map_eq_some_iff] at hjoined
            obtain ⟨args, hargs, -⟩ := hjoined
            obtain ⟨t, ht⟩ := value?_of_argCall hcall hargs
            exact ih ht
        | widen hab hw =>
            have hclimb := value?_lubWithin_unrelated hab hr
            unfold climbWithin at hclimb
            rw [if_pos hw] at hclimb
            exact ih hclimb
        | @meet _ e bs q hab hw hq =>
            have hclimb := value?_lubWithin_unrelated hab hr
            rw [climbWithin, if_neg hw, Query.value?_bind, Query.value?_liftM,
              Option.bind_some, value?_joinAncestors, hq] at hclimb
            exact ih hclimb

/-- A join is found exactly when it has no endless chain of calls. -/
theorem lubWithin_ends_iff (D : Declarations) (a b : Ty) :
    (Ends fun n => D.lubWithin n a b) ↔ D.JoinFinite a b := by
  constructor
  · rintro ⟨r, limit, hlimit⟩
    exact joinFinite_of_value? (hlimit limit (Nat.le_refl limit))
  · exact JoinFinite.ends

end Declarations

end CaseCover
