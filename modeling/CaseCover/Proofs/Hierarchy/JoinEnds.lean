import CaseCover.Proofs.Hierarchy.JoinCalls
import CaseCover.Proofs.Hierarchy.SubtypingEnds

/-!
When joins are found. A join goes on with arguments of both types, with their built-in
types, or with an ancestor of the first and the view of the second at its data type, so
both sides are unfolded. It comes to an end when one of them cannot be unfolded for
ever. `siblings` shows that it may not when both can: the join of two types that extend
one data type applied to themselves leads back to itself.
-/

namespace CaseCover

namespace Declarations

open Relation (ReflTransGen TransGen)
open Query (Ends Settles)

theorem meeting?_eq_some {D : Declarations} {b : Ty} {ts : List Ty} {q : Ty × Ty}
    (hq : D.meeting? b ts = some q) :
    ∃ d args, q.1 = .app d args ∧ q.1 ∈ ts ∧ (D.upcast b d).value = some q.2 := by
  induction ts with
  | nil => exact nomatch hq
  | cons t ts ih =>
      have later : D.meeting? b ts = some q → ∃ d args, q.1 = .app d args ∧
          q.1 ∈ t :: ts ∧ (D.upcast b d).value = some q.2 := by
        intro hrest
        obtain ⟨d, args, hd, hmem, hup⟩ := ih hrest
        exact ⟨d, args, hd, List.mem_cons_of_mem t hmem, hup⟩
      cases t with
      | app d args =>
          rw [meeting?] at hq
          cases hup : (D.upcast b d).value with
          | none =>
              rw [hup] at hq
              exact later hq
          | some view =>
              rw [hup] at hq
              obtain rfl := Option.some.inj hq
              exact ⟨d, args, rfl, List.mem_cons_self, hup⟩
      | prim p => exact later hq
      | lit v => exact later hq
      | union x y => exact later hq
      | param o i => exact later hq

/-- Where an application meets `b` is a proper ancestor of it, of another data type. Of
`b` it is a proper ancestor as well, unless it belongs to the data type of `b`. -/
theorem meeting?_unfolds {D : Declarations} {a : Ty} {e : DataId} {bs : List Ty}
    {q : Ty × Ty} (hq : D.meeting? (.app e bs) (D.ancestors a).value = some q) :
    ∃ c us d as, a = .app c us ∧ q.1 = .app d as ∧ d ≠ c ∧ TransGen D.UnfoldsTo a q.1 ∧
      (d = e ∧ q.2 = .app e bs ∨ TransGen D.UnfoldsTo (.app e bs) q.2) := by
  obtain ⟨d, as, hd, hmem, hup⟩ := meeting?_eq_some hq
  have listed : a.app? ≠ none := by
    intro hnone
    rw [D.ancestors_eq_nil hnone] at hmem
    exact List.not_mem_nil hmem
  cases a with
  | app c us =>
      obtain ⟨⟨d', as', hd', hne⟩, hreach⟩ := D.ancestors_app_sound c us q.1 hmem
      obtain ⟨rfl, rfl⟩ := Ty.app.inj (hd.symm.trans hd')
      have hunfold : TransGen D.UnfoldsTo (.app c us) q.1 :=
        TransGen.mono (fun _ _ h => UnfoldsTo.of_stepsUp h) _ _ hreach
      refine ⟨c, us, d, as, rfl, hd, hne, hunfold, ?_⟩
      by_cases hde : d = e
      · subst hde
        rw [upcast_self] at hup
        exact .inl ⟨rfl, (Option.some.inj hup).symm⟩
      · right
        obtain ⟨⟨vs, hvs⟩, hreach⟩ := D.upcast_sound hup
        have hunfold : ReflTransGen D.UnfoldsTo (.app e bs) q.2 :=
          ReflTransGen.mono (fun _ _ h => UnfoldsTo.of_stepsUp h) _ _ hreach
        rcases Relation.reflTransGen_iff_eq_or_transGen.1 hunfold with heq | hstrict
        · rw [hvs] at heq
          exact absurd (Ty.app.inj heq).1 hde
        · exact hstrict
  | prim p => exact absurd rfl listed
  | lit v => exact absurd rfl listed
  | union x y => exact absurd rfl listed
  | param o i => exact absurd rfl listed

theorem JoinFinite.of_calls {D : Declarations} {a b : Ty}
    (hsubtype : D.SubtypeFinite a b ∧ D.SubtypeFinite b a)
    (hcalls : ∀ c d, D.JoinCall a b (c, d) → D.JoinFinite c d) : D.JoinFinite a b := by
  refine .intro (fun q hq => ?_) fun q hq => hcalls q.1 q.2 hq
  cases hq with
  | below => exact hsubtype.1
  | above => exact hsubtype.2

theorem widen_ne {t : Ty} (ht : t.widen ≠ t) : ∃ v, t = .lit v := by
  cases t with
  | lit v => exact ⟨v, rfl⟩
  | prim p => exact absurd rfl ht
  | union x y => exact absurd rfl ht
  | app d args => exact absurd rfl ht
  | param o i => exact absurd rfl ht

theorem widen_widen (t : Ty) : t.widen.widen = t.widen := by
  cases t <;> rfl

/-- Joins with a built-in type on one side have no calls but a widening. -/
theorem joinCall_prim {D : Declarations} {a : Ty} {p : Prim} {q : Ty × Ty} :
    (D.JoinCall a (.prim p) q → q = (a.widen, .prim p) ∧ a.widen ≠ a) ∧
      (D.JoinCall (.prim p) a q → q = (.prim p, a.widen) ∧ a.widen ≠ a) := by
  constructor
  · intro hcall
    cases hcall with
    | widen _ hw => exact ⟨rfl, hw.resolve_right fun h => h rfl⟩
  · intro hcall
    cases hcall with
    | widen _ hw => exact ⟨rfl, hw.resolve_left fun h => h rfl⟩
    | meet _ _ hq =>
        obtain ⟨c, us, d, as, hc, -⟩ := meeting?_unfolds hq
        simp at hc

theorem joinFinite_prim (D : Declarations) (p : Prim) (a : Ty) :
    D.JoinFinite a (.prim p) ∧ D.JoinFinite (.prim p) a := by
  have hsubtype : ∀ a, D.SubtypeFinite (.prim p) a ∧ D.SubtypeFinite a (.prim p) :=
    (D.bounded_prim p).subtypeFinite
  have widened : ∀ a : Ty, a.widen = a →
      D.JoinFinite a (.prim p) ∧ D.JoinFinite (.prim p) a := by
    intro a ha
    constructor
    · refine .of_calls (hsubtype a).symm fun c d hcall => ?_
      exact absurd ha (joinCall_prim.1 hcall).2
    · refine .of_calls (hsubtype a) fun c d hcall => ?_
      exact absurd ha (joinCall_prim.2 hcall).2
  have hwidened := widened a.widen (widen_widen a)
  constructor
  · refine .of_calls (hsubtype a).symm fun c d hcall => ?_
    obtain ⟨hcd, -⟩ := joinCall_prim.1 hcall
    obtain ⟨rfl, rfl⟩ := Prod.mk.inj hcd
    exact hwidened.1
  · refine .of_calls (hsubtype a) fun c d hcall => ?_
    obtain ⟨hcd, -⟩ := joinCall_prim.2 hcall
    obtain ⟨rfl, rfl⟩ := Prod.mk.inj hcd
    exact hwidened.2

theorem joinFinite_widened (D : Declarations) {a b : Ty}
    (hw : a.widen ≠ a ∨ b.widen ≠ b) : D.JoinFinite a.widen b.widen := by
  rcases hw with ha | hb
  · obtain ⟨v, rfl⟩ := widen_ne ha
    exact (D.joinFinite_prim v.base b.widen).2
  · obtain ⟨v, rfl⟩ := widen_ne hb
    exact (D.joinFinite_prim v.base a.widen).1

theorem ArgCall.mem {params : List TypeParam} {as bs : List Ty} {q : Ty × Ty}
    (hq : ArgCall params as bs q) : q.1 ∈ as ∧ q.2 ∈ bs := by
  induction hq with
  | here => exact ⟨List.mem_cons_self, List.mem_cons_self⟩
  | later _ _ ih => exact ⟨List.mem_cons_of_mem _ ih.1, List.mem_cons_of_mem _ ih.2⟩

/-- A bounded type can be joined with every type on its right: every call but a
widening unfolds it. -/
theorem Bounded.joinFinite_left {D : Declarations} {a : Ty} (ha : D.Bounded a) (b : Ty) :
    D.JoinFinite a b := by
  induction ha.transGen generalizing b with
  | intro a _ ih =>
      have hbelow : ∀ c, TransGen D.UnfoldsTo a c → ∀ d, D.JoinFinite c d :=
        fun c hc d => ih c hc (ha.unfolded hc) d
      refine .of_calls (ha.subtypeFinite b) fun c d hcall => ?_
      cases hcall with
      | arg _ hq => exact hbelow c (.single (.arg hq.mem.1)) d
      | widen _ hw => exact D.joinFinite_widened hw
      | meet _ _ hq =>
          obtain ⟨-, -, -, -, -, -, -, hunfold, -⟩ := meeting?_unfolds hq
          exact hbelow c hunfold d

/-- A bounded type can be joined with every type on its left. A call that keeps it has
an application of its own data type on the left, whose ancestors belong to others; so
the next call unfolds it. -/
theorem Bounded.joinFinite_right {D : Declarations} {b : Ty} (hb : D.Bounded b) (a : Ty) :
    D.JoinFinite a b := by
  induction hb.transGen generalizing a with
  | intro b _ ih =>
      have hbelow : ∀ d, TransGen D.UnfoldsTo b d → ∀ c, D.JoinFinite c d :=
        fun d hd c => ih d hd (hb.unfolded hd) c
      have own : ∀ e as bs, b = .app e bs → D.JoinFinite (.app e as) b := by
        intro e as bs heq
        refine .of_calls (hb.subtypeFinite _).symm fun c d hcall => ?_
        cases hcall with
        | arg _ hq => exact hbelow d (.single (.arg hq.mem.2)) c
        | widen _ hw => exact D.joinFinite_widened hw
        | meet _ _ hq =>
            obtain ⟨rfl, rfl⟩ := Ty.app.inj heq
            obtain ⟨e', us, d', as', heq', hd', hne, -, hkept | hunfold⟩ :=
              meeting?_unfolds hq
            · obtain ⟨rfl, -⟩ := Ty.app.inj heq'
              exact absurd hkept.1 hne
            · exact hbelow d hunfold c
      refine .of_calls (hb.subtypeFinite a).symm fun c d hcall => ?_
      cases hcall with
      | arg _ hq => exact hbelow d (.single (.arg hq.mem.2)) c
      | widen _ hw => exact D.joinFinite_widened hw
      | meet _ _ hq =>
          obtain ⟨-, -, d', as', -, hc, -, -, hkept | hunfold⟩ := meeting?_unfolds hq
          · obtain ⟨rfl, rfl⟩ := hkept
            obtain rfl : c = .app d' as' := hc
            exact own d' as' _ rfl
          · exact hbelow d hunfold c

/-- A join is found exactly when no chain of its calls goes on for ever. No chain does
when one of the two types is grounded. -/
theorem join_ends (D : Declarations) (a b : Ty) :
    ((Ends fun n => D.lubWithin n a b) ↔ D.JoinFinite a b) ∧
      (D.Grounded a ∨ D.Grounded b → D.JoinFinite a b) := by
  refine ⟨D.lubWithin_ends_iff a b, ?_⟩
  rintro (ha | hb)
  · exact (bounded_of_grounded ha).joinFinite_left b
  · exact (bounded_of_grounded hb).joinFinite_right a

/-- A covariant `Cmp[+X]`, `A` below `Cmp[A]`, and `B` below `Cmp[B]`. -/
def siblings : Declarations :=
  let (cmp, D) := Workspace.initial.decls.declare "Cmp" [⟨"X", .covariant⟩]
    (.abstractType false)
  let (a, D) := D.declare "A" [] .singleton
  let (b, D) := D.declare "B" [] .singleton
  (D.extend a (.app cmp [.app a []])).extend b (.app cmp [.app b []])

theorem siblings_reachable : siblings.Reachable := by
  have hdeclared := ((Reachable.initial.declare "Cmp"
    (.abstractType [⟨"X", .covariant⟩] false)).declare "A" .singleton).declare "B" .singleton
  have hfirst := hdeclared.extend ⟨9⟩ (by decide)
    (admits_unary ⟨8⟩ (by decide) rfl (admits_nullary ⟨9⟩ (by decide) rfl))
  exact hfirst.extend ⟨10⟩ (by decide)
    (admits_unary ⟨8⟩ (by decide) rfl (admits_nullary ⟨10⟩ (by decide) rfl))

theorem siblings_acyclic : siblings.Acyclic := by
  refine acyclic_of_ordered ?_
  decide

/-- Calls of joins have no cycle of two where they are finite. -/
theorem JoinFinite.asymm {D : Declarations} {a b c d : Ty} (hab : D.JoinFinite a b)
    (hcall : D.JoinCall a b (c, d)) (hback : D.JoinCall c d (a, b)) : False := by
  induction hab generalizing c d with
  | intro _ _ ih => exact ih (c, d) hcall hback hcall

/-- The join of `A` and `B` leads to that of `Cmp[A]` and `Cmp[B]`, and back. -/
theorem siblings_endless :
    ¬ Ends fun n => siblings.lubWithin n (.app ⟨9⟩ []) (.app ⟨10⟩ []) := by
  rw [lubWithin_ends_iff]
  intro hfinite
  have refused : ∀ d e, (siblings.upcast (.app d []) e).value = none → d ≠ e →
      Settles (fun n => siblings.subtypeWithin n (.app d []) (.app e [])) false := by
    intro d e hup hne
    refine Settles.of_succ (Query.settles_of_value? fun n => ?_)
    have hopen : ¬ DecidedAtOnce (.app d []) (.app e []) := by
      simp [DecidedAtOnce, hne]
    rw [subtypeWithin_app siblings n hopen, Query.value?_bind, Query.value?_liftM, hup]
    rfl
  have hunrelated : siblings.Unrelated (.app ⟨9⟩ []) (.app ⟨10⟩ []) := by
    refine ⟨by simp [JoinedAtOnce], fun d as bs ha hb => ?_, ?_, ?_⟩
    · exact absurd ((Ty.app.inj ha).1.trans (Ty.app.inj hb).1.symm) (by simp)
    · exact refused ⟨9⟩ ⟨10⟩ (by decide) (by simp)
    · exact refused ⟨10⟩ ⟨9⟩ (by decide) (by simp)
  have hmeet : siblings.meeting? (.app ⟨10⟩ []) (siblings.ancestors (.app ⟨9⟩ [])).value =
      some (.app ⟨8⟩ [.app ⟨9⟩ []], .app ⟨8⟩ [.app ⟨10⟩ []]) := by decide
  refine hfinite.asymm (.meet hunrelated (by simp [Ty.widen]) hmeet) ?_
  exact .arg (by simp [JoinedAtOnce]) (.here rfl)

/-- Not every join is found, even when no data type inherits from itself. -/
theorem exists_endless_join :
    ¬ ∀ D : Declarations, D.Reachable → D.Acyclic → ∀ a b, D.Admits a → D.Admits b →
      Ends fun n => D.lubWithin n a b := by
  intro hall
  have ha : siblings.Admits (.app ⟨9⟩ []) := admits_nullary ⟨9⟩ (by decide) rfl
  have hb : siblings.Admits (.app ⟨10⟩ []) := admits_nullary ⟨10⟩ (by decide) rfl
  exact siblings_endless
    (hall siblings siblings_reachable siblings_acyclic _ _ ha hb)

/-- In a hierarchy with joins that are not found, that of `A` and `Cmp[int]` is. -/
theorem join_ends_siblings :
    (siblings.Grounded (.app ⟨9⟩ []) ∨ siblings.Grounded (.app ⟨8⟩ [.prim .int])) ∧
      siblings.JoinFinite (.app ⟨9⟩ []) (.app ⟨8⟩ [.prim .int]) := by
  have parentless : ∀ e, ¬ siblings.MentionedBy e ⟨8⟩ := by
    rintro e ⟨p, hp, -⟩
    have hparents : (siblings.get ⟨8⟩).parents = [] := rfl
    rw [hparents] at hp
    exact List.not_mem_nil hp
  have hgrounded : siblings.Grounded (.app ⟨8⟩ [.prim .int]) := by
    intro d e hd he
    obtain rfl : d = ⟨8⟩ := by
      cases hd with
      | root => rfl
      | arg ht hmentions =>
          obtain rfl := List.mem_singleton.1 ht
          exact nomatch hmentions
    rcases he.cases_tail with rfl | ⟨f, -, hf⟩
    · intro hcycle
      obtain ⟨f, -, hf⟩ := Relation.TransGen.tail'_iff.1 hcycle
      exact parentless f hf
    · exact absurd hf (parentless f)
  exact ⟨.inr hgrounded, (siblings.join_ends _ _).2 (.inr hgrounded)⟩

end Declarations

end CaseCover
