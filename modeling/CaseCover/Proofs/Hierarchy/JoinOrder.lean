import CaseCover.Proofs.Hierarchy.JoinLeast

/-!
The order in which types are joined. A fold of joins is above all types of its list, and below
every plain type above them unless one of its joins falls short. So two orders give types below
each other where neither falls short (`Linear.join_order`); but `Option[int]` does not meet
`Some[str]`, which meets it (`exists_order_dependent_join`).
-/

namespace CaseCover

/-- Some join of a fold falls short: that of what comes before a type with the type. -/
def Hierarchy.FallsShort (H : Hierarchy) (ts : List Ty) : Prop :=
  ∃ before t after sofar, ts = before ++ t :: after ∧
    (H.lubAll before).value? = some sofar ∧ H.decls.FallsShort sofar t

namespace Declarations

variable {D : Declarations}

/-- Only joins of two applications fall short. -/
theorem FallsShort.apps {a b : Ty} (h : D.FallsShort a b) :
    (∃ d as, a = .app d as) ∧ ∃ e bs, b = .app e bs := by
  have unwidened : ∀ {t : Ty}, (∃ d as, t.widen = .app d as) → ∃ d as, t = .app d as := by
    rintro t ⟨d, as, h⟩
    cases t with
    | app d as => exact ⟨d, as, rfl⟩
    | prim _ | lit _ | union _ _ | param _ _ => cases h
  induction h with
  | here => exact ⟨⟨_, _, rfl⟩, _, _, rfl⟩
  | call hcall _ ih =>
      cases hcall with
      | arg => exact ⟨⟨_, _, rfl⟩, _, _, rfl⟩
      | widen => exact ⟨unwidened ih.1, unwidened ih.2⟩
      | meet _ _ hq =>
          obtain ⟨d, as, -, -, -, rfl, -⟩ := meeting?_views hq
          exact ⟨⟨d, as, rfl⟩, _, _, rfl⟩

/-- A fold over types none of which is an application has no join that falls short. -/
theorem not_fallsShort {n : Nat} {ts : List Ty} (hts : ∀ t ∈ ts, ∀ d as, t ≠ .app d as) :
    ¬ (D.within n).FallsShort ts := by
  rintro ⟨before, t, after, sofar, rfl, -, hfalls⟩
  obtain ⟨-, d, as, rfl⟩ := hfalls.apps
  exact hts _ (List.mem_append_right before List.mem_cons_self) d as rfl

/-- A join of two applications falls short at once, in an argument or where they meet. -/
theorem FallsShort.inversion {d e : DataId} {as bs : List Ty}
    (h : D.FallsShort (.app d as) (.app e bs)) :
    (e ≠ d ∧ D.isDescendant e d = true) ∨
      (e = d ∧ ∃ q, ArgCall (D.get d).params as bs q ∧ D.FallsShort q.1 q.2) ∨
        ∃ q, D.meeting? (.app e bs) (D.ancestors (.app d as)).value = some q ∧
          D.FallsShort q.1 q.2 := by
  cases h with
  | here _ hne h => exact .inl ⟨hne, h⟩
  | call hcall hrest =>
      cases hcall with
      | arg _ hq => exact .inr (.inl ⟨rfl, _, hq, hrest⟩)
      | widen _ hw => exact hw.elim (fun h => absurd rfl h) fun h => absurd rfl h
      | meet _ _ hq => exact .inr (.inr ⟨_, hq, hrest⟩)

/-- A fold over two types has one join. -/
theorem fallsShort_pair {n : Nat} {a b : Ty} (h : (D.within n).FallsShort [a, b]) :
    D.FallsShort a b := by
  obtain ⟨before, t, after, sofar, heq, hsofar, hfalls⟩ := h
  obtain ⟨⟨d, as, rfl⟩, -⟩ := hfalls.apps
  cases before with
  | nil => cases Option.some.inj hsofar
  | cons x before =>
      obtain ⟨rfl, htail⟩ := List.cons.inj heq
      cases before with
      | nil =>
          obtain ⟨rfl, -⟩ := List.cons.inj htail
          have hfirst : a = .app d as := Option.some.inj hsofar
          rw [hfirst]
          exact hfalls
      | cons _ before => exact absurd (List.cons.inj htail).2 (by simp)

namespace Linear

variable {n : Nat}

/-- A fold of joins is above its start and all types of its list. -/
theorem fold_above (hD : D.Reachable) (hlinear : D.Linear) {ts : List Ty} {start r : Ty}
    (hstart : D.Plain start) (hts : ∀ t ∈ ts, D.Plain t)
    (hr : (Query.fold (D.within n).lub start ts).value? = some r) :
    D.Plain r ∧ ∀ t ∈ start :: ts, D.Below t r := by
  induction ts generalizing start with
  | nil =>
      obtain rfl := Option.some.inj hr
      exact ⟨hstart, fun t ht => List.mem_singleton.1 ht ▸ D.below_self start⟩
  | cons t ts ih =>
      obtain ⟨sofar, hsofar, hr⟩ := Query.value?_bind_eq_some.1 hr
      have ht := hts t List.mem_cons_self
      obtain ⟨hplain, hleft, hright⟩ := hlinear.join_above hD hstart ht hsofar
      obtain ⟨hrplain, habove⟩ := ih hplain (fun u hu => hts u (List.mem_cons_of_mem t hu)) hr
      have hchain : ∀ u, D.Plain u → D.Below u sofar → D.Below u r := fun u hu h =>
        hlinear.below_trans hD hu.admitted hplain.admitted hplain.constrained h
          (habove sofar List.mem_cons_self)
      refine ⟨hrplain, fun u hu => ?_⟩
      rcases List.mem_cons.1 hu with rfl | hu
      · exact hchain _ hstart hleft
      · rcases List.mem_cons.1 hu with rfl | hu
        · exact hchain _ ht hright
        · exact habove u (List.mem_cons_of_mem sofar hu)

/-- No union comes in by a fold of joins. -/
theorem unionFree_fold (hD : D.Reachable) (hlinear : D.Linear) {ts : List Ty} {start r : Ty}
    (hstart : D.UnionFree start) (hts : ∀ t ∈ ts, D.UnionFree t)
    (hr : (Query.fold (D.within n).lub start ts).value? = some r) : D.UnionFree r := by
  induction ts generalizing start with
  | nil =>
      obtain rfl := Option.some.inj hr
      exact hstart
  | cons t ts ih =>
      obtain ⟨sofar, hsofar, hr⟩ := Query.value?_bind_eq_some.1 hr
      exact ih (hlinear.unionFree_join hD hstart (hts t List.mem_cons_self) hsofar)
        (fun u hu => hts u (List.mem_cons_of_mem t hu)) hr

/-- A fold of joins none of which falls short is below every plain type above its start and all
types of its list. -/
theorem fold_least (hD : D.Reachable) (hlinear : D.Linear) {ts : List Ty} {start r c : Ty}
    (hstart : D.UnionFree start) (hts : ∀ t ∈ ts, D.UnionFree t)
    (hr : (Query.fold (D.within n).lub start ts).value? = some r)
    (hshort : ∀ before t after sofar, ts = before ++ t :: after →
      (Query.fold (D.within n).lub start before).value? = some sofar → ¬ D.FallsShort sofar t)
    (hc : D.Plain c) (hbelow : ∀ t ∈ start :: ts, D.Below t c) : D.Below r c := by
  induction ts generalizing start with
  | nil =>
      obtain rfl := Option.some.inj hr
      exact hbelow start List.mem_cons_self
  | cons t ts ih =>
      obtain ⟨sofar, hsofar, hr⟩ := Query.value?_bind_eq_some.1 hr
      have ht := hts t List.mem_cons_self
      have hfirst := hshort [] t ts start rfl rfl
      have hsofarc : D.Below sofar c :=
        hlinear.join_least hD hstart ht hsofar hfirst hc (hbelow start List.mem_cons_self)
          (hbelow t (List.mem_cons_of_mem start List.mem_cons_self))
      refine ih (hlinear.unionFree_join hD hstart ht hsofar)
        (fun u hu => hts u (List.mem_cons_of_mem t hu)) hr (fun before u after x heq hx => ?_)
        fun u hu => ?_
      · refine hshort (t :: before) u after x (by rw [heq]; rfl) ?_
        exact Query.value?_bind_eq_some.2 ⟨sofar, hsofar, hx⟩
      · rcases List.mem_cons.1 hu with rfl | hu
        · exact hsofarc
        · exact hbelow u (List.mem_cons_of_mem start (List.mem_cons_of_mem t hu))

/-- The join of a list is above all its types. -/
theorem lubAll_above (hD : D.Reachable) (hlinear : D.Linear) {ts : List Ty} {r : Ty}
    (hts : ∀ t ∈ ts, D.Plain t) (hr : ((D.within n).lubAll ts).value? = some r) :
    D.Plain r ∧ ∀ t ∈ ts, D.Below t r := by
  cases ts with
  | nil =>
      obtain rfl := Option.some.inj hr
      exact ⟨⟨.prim .never, rfl, rfl⟩, by simp⟩
  | cons start ts =>
      exact hlinear.fold_above hD (hts start List.mem_cons_self)
        (fun t ht => hts t (List.mem_cons_of_mem start ht)) hr

theorem unionFree_lubAll (hD : D.Reachable) (hlinear : D.Linear) {ts : List Ty} {r : Ty}
    (hts : ∀ t ∈ ts, D.UnionFree t) (hr : ((D.within n).lubAll ts).value? = some r) :
    D.UnionFree r := by
  cases ts with
  | nil =>
      obtain rfl := Option.some.inj hr
      exact ⟨.prim .never, rfl⟩
  | cons start ts =>
      exact hlinear.unionFree_fold hD (hts start List.mem_cons_self)
        (fun t ht => hts t (List.mem_cons_of_mem start ht)) hr

/-- The join of a list that does not fall short is below every plain type above all its types. -/
theorem lubAll_least (hD : D.Reachable) (hlinear : D.Linear) {ts : List Ty} {r c : Ty}
    (hts : ∀ t ∈ ts, D.UnionFree t) (hr : ((D.within n).lubAll ts).value? = some r)
    (hshort : ¬ (D.within n).FallsShort ts) (hc : D.Plain c) (hbelow : ∀ t ∈ ts, D.Below t c) :
    D.Below r c := by
  cases ts with
  | nil =>
      obtain rfl := Option.some.inj hr
      exact D.never_below c
  | cons start ts =>
      refine hlinear.fold_least hD (hts start List.mem_cons_self)
        (fun t ht => hts t (List.mem_cons_of_mem start ht)) hr
        (fun before t after sofar heq hsofar hfalls => hshort ?_) hc hbelow
      exact ⟨start :: before, t, after, sofar, by rw [heq]; rfl, hsofar, hfalls⟩

/-- Plain types joined in two orders: each join is above all of them, and the one of an order
that does not fall short is below the other. -/
theorem join_order (hD : D.Reachable) (hlinear : D.Linear) {ts ts' : List Ty}
    (hperm : ts.Perm ts') (hts : ∀ t ∈ ts, D.Plain t) {n n' : Nat} {r r' : Ty}
    (hr : ((D.within n).lubAll ts).value? = some r)
    (hr' : ((D.within n').lubAll ts').value? = some r') :
    (∀ t ∈ ts, D.Below t r ∧ D.Below t r') ∧
      (¬ (D.within n).FallsShort ts → D.Below r r') ∧
      (¬ (D.within n').FallsShort ts' → D.Below r' r) := by
  have hts' : ∀ t ∈ ts', D.Plain t := fun t ht => hts t (hperm.mem_iff.2 ht)
  obtain ⟨hplain, habove⟩ := hlinear.lubAll_above hD hts hr
  obtain ⟨hplain', habove'⟩ := hlinear.lubAll_above hD hts' hr'
  refine ⟨fun t ht => ⟨habove t ht, habove' t (hperm.mem_iff.1 ht)⟩, fun hshort => ?_,
    fun hshort => ?_⟩
  · exact hlinear.lubAll_least hD (fun t ht => (hts t ht).unionFree) hr hshort hplain'
      fun t ht => habove' t (hperm.mem_iff.1 ht)
  · exact hlinear.lubAll_least hD (fun t ht => (hts' t ht).unionFree) hr' hshort hplain
      fun t ht => habove t (hperm.mem_iff.2 ht)

end Linear

/-- `Some[int]` and `None` meet at `Option[int]` in either order. -/
theorem join_order_options :
    Workspace.initial.decls.Linear ∧
      ¬ (Workspace.initial.decls.within 4).FallsShort [.app ⟨1⟩ [.prim .int], .app ⟨2⟩ []] ∧
      ¬ (Workspace.initial.decls.within 4).FallsShort [.app ⟨2⟩ [], .app ⟨1⟩ [.prim .int]] ∧
      ∃ r r', ((Workspace.initial.decls.within 4).lubAll
          [.app ⟨1⟩ [.prim .int], .app ⟨2⟩ []]).value? = some r ∧
        ((Workspace.initial.decls.within 4).lubAll
          [.app ⟨2⟩ [], .app ⟨1⟩ [.prim .int]]).value? = some r' ∧
        Workspace.initial.decls.Below r r' ∧ Workspace.initial.decls.Below r' r := by
  have hlinear : Workspace.initial.decls.Linear := linear_of_ordered (by decide)
  have hoptions : ∀ p q : Prim,
      ¬ Workspace.initial.decls.FallsShort (.app ⟨0⟩ [.prim p]) (.app ⟨0⟩ [.prim q]) := by
    intro p q h
    rcases h.inversion with ⟨hne, -⟩ | ⟨-, pair, harg, hrest⟩ | ⟨pair, hmeet, -⟩
    · exact hne rfl
    · obtain ⟨⟨d, as, hd⟩, -⟩ := hrest.apps
      have hmem := List.mem_singleton.1 harg.mem.1
      cases hmem.symm.trans hd
    · have hnowhere : Workspace.initial.decls.meeting? (.app ⟨0⟩ [.prim q])
          (Workspace.initial.decls.ancestors (.app ⟨0⟩ [.prim p])).value = none := by
        cases p <;> rfl
      rw [hnowhere] at hmeet
      cases hmeet
  have hsome : ¬ Workspace.initial.decls.FallsShort (.app ⟨1⟩ [.prim .int]) (.app ⟨2⟩ []) := by
    intro h
    rcases h.inversion with ⟨-, hdescends⟩ | ⟨hsame, -⟩ | ⟨pair, hmeet, hrest⟩
    · exact absurd hdescends (by decide)
    · cases hsame
    · obtain rfl : (.app ⟨0⟩ [.prim .int], .app ⟨0⟩ [.prim .never]) = pair :=
        Option.some.inj hmeet
      exact hoptions _ _ hrest
  have hnone : ¬ Workspace.initial.decls.FallsShort (.app ⟨2⟩ []) (.app ⟨1⟩ [.prim .int]) := by
    intro h
    rcases h.inversion with ⟨-, hdescends⟩ | ⟨hsame, -⟩ | ⟨pair, hmeet, hrest⟩
    · exact absurd hdescends (by decide)
    · cases hsame
    · obtain rfl : (.app ⟨0⟩ [.prim .never], .app ⟨0⟩ [.prim .int]) = pair :=
        Option.some.inj hmeet
      exact hoptions _ _ hrest
  have hplain : ∀ t ∈ [Ty.app ⟨1⟩ [.prim .int], .app ⟨2⟩ []],
      Workspace.initial.decls.Plain t := by
    simp only [List.forall_mem_cons, List.not_mem_nil, false_imp_iff, implies_true, and_true]
    exact ⟨⟨admits_unary ⟨1⟩ (by decide) rfl (.prim .int), by decide, by decide⟩,
      admits_nullary ⟨2⟩ (by decide) rfl, by decide, by decide⟩
  have hfirst : ((Workspace.initial.decls.within 4).lubAll
      [.app ⟨1⟩ [.prim .int], .app ⟨2⟩ []]).value? = some (.app ⟨0⟩ [.prim .int]) := by decide
  have hsecond : ((Workspace.initial.decls.within 4).lubAll
      [.app ⟨2⟩ [], .app ⟨1⟩ [.prim .int]]).value? = some (.app ⟨0⟩ [.prim .int]) := by decide
  obtain ⟨-, hle, hge⟩ :=
    hlinear.join_order .initial (.swap ..) hplain hfirst hsecond
  exact ⟨hlinear, fun h => hsome (fallsShort_pair h), fun h => hnone (fallsShort_pair h), _, _,
    hfirst, hsecond, hle fun h => hsome (fallsShort_pair h),
    hge fun h => hnone (fallsShort_pair h)⟩

/-- Not every order of joins gives the same type: `Option[int]` and `Some[str]` are joined to
`any`, and in the other order to `Option[any]`. -/
theorem exists_order_dependent_join :
    ¬ ∀ D : Declarations, D.Reachable → ∀ ts ts' : List Ty, ts ≠ [] → (∀ t ∈ ts, D.Admits t) →
      ts.Perm ts' → ∀ (n n' : Nat) (r r' : Ty), ((D.within n).lubAll ts).value? = some r →
        ((D.within n').lubAll ts').value? = some r' → D.Below r r' ∧ D.Below r' r := by
  intro hall
  have hadmits : ∀ t ∈ [Ty.app ⟨0⟩ [.prim .int], .app ⟨1⟩ [.prim .str]],
      Workspace.initial.decls.Admits t := by
    simp only [List.forall_mem_cons, List.not_mem_nil, false_imp_iff, implies_true, and_true]
    exact ⟨admits_unary ⟨0⟩ (by decide) rfl (.prim .int),
      admits_unary ⟨1⟩ (by decide) rfl (.prim .str)⟩
  have hbelow := (hall _ .initial [.app ⟨0⟩ [.prim .int], .app ⟨1⟩ [.prim .str]]
    [.app ⟨1⟩ [.prim .str], .app ⟨0⟩ [.prim .int]] (by simp) hadmits (.swap ..) 5 5 .any
    (.app ⟨0⟩ [.any]) (by decide) (by decide)).1
  exact not_below_any (by simp [HoldsAtOnce]) hbelow

end Declarations

end CaseCover
