import CaseCover.Proofs.Analysis.Binding
import CaseCover.Proofs.Analysis.Termination
import CaseCover.Proofs.Pattern.Alternatives
import CaseCover.Proofs.Pattern.ExtractionLimits
import CaseCover.Proofs.Pattern.Positions

/-!
Alternatives that accept values of a member and what binding makes of them. Binding compares the
pattern type of an alternative with the member and never looks at values. Where the pattern type
is known to be below the member (`Yields.inside`) or above it, an alternative that accepts a value
of the member gets a result for it and is not reported (`records_accepted`). In general neither
holds, and an alternative may accept values and be reported as one that can never match
(`exists_unbound_alternative`).
-/

namespace CaseCover

namespace Extractor

variable {E : Extractor} {fields later : FieldCache}

/-- What is extracted from some patterns are these with pattern types that they yield. -/
theorem yields_of_extractEach {ps : List Pattern} {pairs : List (Pattern × PatternType)}
    (hfields : fields.Valid E.hierarchy.decls)
    (h : (E.extractEach ps).answer fields = some (.ok pairs, later)) :
    (∀ p ∈ pairs, ∃ found, E.Yields p.1 found ∧ p.2 ∈ found) ∧ later.Valid E.hierarchy.decls := by
  induction ps generalizing fields pairs with
  | nil =>
      obtain ⟨rfl, rfl⟩ := Extraction.answer_pure_eq_ok.1 h
      exact ⟨fun p hp => absurd hp List.not_mem_nil, hfields⟩
  | cons p ps ih =>
      simp only [extractEach, Extraction.answer_bind_eq_ok, Extraction.answer_pure_eq_ok] at h
      obtain ⟨types, between, htypes, rest, last, hrest, rfl, rfl⟩ := h
      obtain ⟨hyields, hbetween⟩ := yields_of_evaluate hfields (extract_eq_ok_iff.1 htypes).2
      obtain ⟨hothers, hlater⟩ := ih hbetween hrest
      refine ⟨fun q hq => ?_, hlater⟩
      rcases List.mem_append.1 hq with hq | hq
      · obtain ⟨r, hr, rfl⟩ := List.mem_map.1 hq
        exact ⟨types, hyields, hr⟩
      · exact hothers q hq

end Extractor

namespace Checker

open Query (Settles)

variable {C : Checker} {index : Nat} {cases : List Case}
  {before after : FieldCache} {alternatives : List Alternative}

/-- The alternatives of cases are the same under a larger limit on nested questions. -/
theorem Extracted.within (h : C.Extracted index cases before alternatives after) {n : Nat}
    (hn : C.hierarchy.limit ≤ n) :
    (C.within n).Extracted index cases before alternatives after := by
  induction h with
  | nil index fields => exact .nil index fields
  | cons hfound _ ih => exact .cons (C.extractor.extractAlternatives_of_le hfound hn) ih

theorem Extracted.unique {after' : FieldCache} {alternatives' : List Alternative}
    (h : C.Extracted index cases before alternatives after)
    (h' : C.Extracted index cases before alternatives' after') : alternatives = alternatives' := by
  induction h generalizing alternatives' with
  | nil =>
      cases h'
      rfl
  | cons hfound _ ih =>
      cases h' with
      | cons hfound' hrest' =>
          have hanswer := hfound.symm.trans hfound'
          simp only [Option.some.injEq, Prod.mk.injEq, Except.ok.injEq] at hanswer
          obtain ⟨rfl, rfl⟩ := hanswer
          rw [ih hrest']

/-- The pattern type of an alternative is one that its pattern yields. -/
theorem Extracted.yields (hbefore : before.Valid C.hierarchy.decls)
    (h : C.Extracted index cases before alternatives after) :
    ∀ a ∈ alternatives, ∃ found, C.extractor.Yields a.pattern found ∧ a.patternType ∈ found := by
  induction h with
  | nil => exact fun a ha => absurd ha List.not_mem_nil
  | cons hfound _ ih =>
      obtain ⟨hyields, hbetween⟩ := Extractor.yields_of_extractEach hbefore hfound
      intro a ha
      rcases List.mem_append.1 ha with ha | ha
      · obtain ⟨p, hp, rfl⟩ := List.mem_map.1 ha
        exact hyields p hp
      · exact ih hbetween a ha

/-- Binding cases whose alternatives are extracted ends with a table, where questions about
subtyping end. -/
theorem bindCases_settles (hD : ∀ a b, C.hierarchy.decls.SubtypeFinite a b) (union : TypeSet)
    (h : C.Extracted index cases before alternatives after) {s : SessionState}
    (hs : s.fields = before) (table : MatchTable) :
    ∃ table' s', Settles (fun n => ((C.within n).bindCases union index cases table).run s)
      (.ok table', s') := by
  induction h generalizing s table with
  | nil => exact ⟨table, s, Query.settles_of_value? fun _ => rfl⟩
  | @cons index c rest before between after found later hfound _ ih =>
      have hextract : Settles (fun n => ((C.within n).alternatives c).run s)
          (.ok found, { s with fields := between }) := by
        refine ⟨C.hierarchy.limit, fun n hn => Checker.yields_alternatives.2 ⟨between, ?_, rfl⟩⟩
        rw [hs]
        exact C.extractor.extractAlternatives_of_le hfound hn
      obtain ⟨⟨next, s₁⟩, hbind⟩ := bindAll_ends hD union index c found table
        { s with fields := between }
      have hfields : s₁.fields = between := by
        obtain ⟨limit, hlimit⟩ := hbind
        exact (bound_of_bindAll (hlimit limit (Nat.le_refl limit))).2
      obtain ⟨table', s', hrest⟩ := ih hfields next
      refine ⟨table', s', Settles.congr (fun n => by rw [bindCases, StateT.run_bind]) ?_⟩
      refine hextract.bind (Settles.congr (fun n => by rw [StateT.run_bind]) ?_)
      exact hbind.bind hrest

/-- The pattern of an alternative is confined by a member: it stays within the member and no join
that is made for it falls short, or it ascribes to all values a type that the member is below. -/
inductive Confines (C : Checker) (member : Ty) : Pattern → Prop
  | below {p : Pattern} (hwithin : p.StaysWithin C.hierarchy.decls member)
      (hmeets : C.extractor.Meets p) : C.Confines member p
  | above {n : PatternNode} {p : Pattern} {t : Ty} (hp : p.isCatchAll = true)
      (ht : C.hierarchy.decls.Below member t) : C.Confines member (.typed n p t)

/-- A pattern type of a pattern that a member confines, and that accepts a value of it or fits it,
is comparable with the member. -/
theorem Confines.compatible (hD : C.hierarchy.decls.Reachable)
    (hlinear : C.hierarchy.decls.Linear) {member : Ty} {p : Pattern} (hp : C.Confines member p)
    (hmember : C.hierarchy.decls.Plain member)
    (hsome : C.hierarchy.decls.AcceptsSome p member ∨ p.Fits C.hierarchy.decls member)
    {found : List PatternType} (hfound : C.extractor.Yields p found) :
    ∀ r ∈ found, C.hierarchy.decls.Compatible r member := by
  intro r hr
  cases hp with
  | below hwithin hmeets =>
      have hfits := hsome.elim (hwithin.fits hD hlinear hmember) id
      have hinside := hfound.inside hD hlinear hwithin hmember hfits hmeets r hr
      exact .inr (.inl hinside.below)
  | above hcatch ht =>
      rw [hfound.ascription hcatch, List.mem_singleton] at hr
      rw [hr]
      exact .inr (.inr ht)

/-- With one parent for each data type and covariant parameters, cases whose alternatives are
extracted are bound. An alternative whose pattern a member confines, and that accepts a value of
the member or fits it, gets a result for the member and is not reported. -/
theorem records_accepted (hD : C.hierarchy.decls.Reachable) (hlinear : C.hierarchy.decls.Linear)
    {s : SessionState} (hfields : s.fields.Valid C.hierarchy.decls)
    (h : C.Extracted 0 cases s.fields alternatives after) (union : TypeSet) :
    ∃ table s', Settles (fun n => ((C.within n).bindCases union 0 cases .empty).run s)
        (.ok table, s') ∧
      (∃ reports, s'.queue = s.queue.extend reports ∧
        ∀ d ∈ reports, ∃ a ∈ alternatives, C.Rejects union a d) ∧
      ∀ a ∈ alternatives, ∀ member ∈ union.members, C.hierarchy.decls.Plain member →
        C.Confines member a.pattern →
        C.hierarchy.decls.AcceptsSome a.pattern member ∨
          a.pattern.Fits C.hierarchy.decls member →
        a.result member ∈ table.get member ∧ ∀ d, ¬ C.Rejects union a d := by
  obtain ⟨table, s', hsettles⟩ := bindCases_settles hlinear.subtypeFinite union h rfl .empty
  refine ⟨table, s', hsettles, ?_⟩
  obtain ⟨limit, hlimit⟩ := hsettles
  have hbind := hlimit (max limit C.hierarchy.limit) (Nat.le_max_left _ _)
  obtain ⟨alternatives', hextracted, hrecorded, hreports⟩ := bound_iff_compatible hbind
  obtain rfl := (h.within (Nat.le_max_right _ _)).unique hextracted
  refine ⟨hreports, fun a ha member hmember hplain hconfines hsome => ?_⟩
  obtain ⟨found, hfound, hmem⟩ := h.yields hfields a ha
  have hcompatible := hconfines.compatible hD hlinear hplain hsome hfound a.patternType hmem
  exact ⟨(hrecorded member _).2 ⟨hmember, a, ha, hcompatible, rfl⟩,
    fun d hd => hd.1 member hmember hcompatible⟩

/-- The type `Option[int]`. -/
def optionalInt : Ty := .app ⟨0⟩ [.prim .int]

theorem directSubtypes_optionalInt : startingChecker.hierarchy.decls.DirectSubtypes optionalInt
    [.app ⟨1⟩ [.prim .int], .app ⟨2⟩ []] :=
  Declarations.directSubtypes_of_value? (H := startingChecker.hierarchy) rfl

/-- The values of `Option[int]` that `Some` makes are of type `Some[int]`. -/
theorem eq_int_of_makes {args : List Ty}
    (h : startingChecker.hierarchy.decls.Makes optionalInt (.app ⟨1⟩ args)) :
    args = [.prim .int] := by
  obtain ⟨v, hv, hty, hcore⟩ := h
  obtain ⟨inner, rfl, hinner, hmem⟩ :=
    Declarations.eq_viewed hv directSubtypes_optionalInt (List.cons_ne_nil _ _) hty
  have hone : inner.core.ty = inner.ty → args = [.prim .int] := by
    intro heq
    have hargs : inner.ty = .app ⟨1⟩ args := heq.symm.trans hcore
    rw [hargs] at hmem
    simpa using hmem
  cases hinner with
  | viewed hsubtypes hsub =>
      rcases hsubtypes.cases (List.ne_nil_of_mem hsub) with rfl | ⟨a, b, rfl⟩ | ⟨d, as, rfl, hd⟩
      · simp [Value.ty] at hmem
      · simp [Value.ty] at hmem
      · simp only [Value.ty, List.mem_cons, Ty.app.injEq, List.not_mem_nil, or_false] at hmem
        rcases hmem with ⟨rfl, -⟩ | ⟨rfl, -⟩ <;> exact absurd hd (by decide)
  | tuple | sequence | single | atom => exact hone rfl

/-- The shape of a value `Some(n)` of type `Option[int]`. -/
def presentInt : Value :=
  .viewed optionalInt (.tuple (.app ⟨1⟩ [.prim .int]) [.atom (.prim .int)])

theorem isValue_presentInt : startingChecker.hierarchy.decls.IsValue presentInt := by
  apply Declarations.IsValue.viewed directSubtypes_optionalInt List.mem_cons_self
  apply Declarations.IsValue.tuple rfl rfl
  intro v hv
  rw [List.mem_singleton.1 hv]
  exact .atom rfl

/-- The case `Some(_ : t)`. -/
def someOf (t : Ty) : Case :=
  ⟨.variant default ⟨1⟩ [.typed default (.wildcard default) t], default, none⟩

/-- The pattern type `Some[t]`, which is its own witness. -/
def someType (t : Ty) : PatternType := .singleton (.app ⟨1⟩ [t])

theorem accepts_someOf {t : Ty} (ht : startingChecker.hierarchy.decls.Below (.prim .int) t) :
    startingChecker.hierarchy.decls.Accepts (someOf t).pattern presentInt := by
  apply Declarations.Accepts.variant rfl rfl
  intro q hq
  rw [List.mem_singleton.1 hq]
  exact .typed (Value.self_mem_views _) ht (.wildcard default _)

/-- What is remembered of the fields of `Some`. -/
def someFields : FieldCache := ⟨[(⟨1⟩, [[⟨0, 0, []⟩]])]⟩

theorem answer_someOf (p : Prim) :
    (startingChecker.extractor.extractAlternatives (someOf (.prim p)).pattern).answer {} =
      some (.ok [((someOf (.prim p)).pattern, someType (.prim p))], someFields) := by
  change (startingChecker.extractor.extract (someOf (.prim p)).pattern >>= _).answer {} = _
  rw [Extraction.answer_bind, Extractor.answer_extract]
  rfl

/-- The only alternative of `Some(_ : p)`. -/
def someAlternative (p : Prim) : Alternative :=
  ⟨0, someOf (.prim p), (someOf (.prim p)).pattern, someType (.prim p)⟩

theorem extracted_someOf (p : Prim) :
    startingChecker.Extracted 0 [someOf (.prim p)] {} [someAlternative p] someFields :=
  .cons (answer_someOf p) (.nil 1 someFields)

/-- The joins that are made for `Some(_ : int)` are of primitive types. -/
theorem meets_someOf_int : startingChecker.extractor.Meets (someOf (.prim .int)).pattern := by
  have part : ∀ {found}, startingChecker.extractor.Yields
      (.typed default (.wildcard default) (.prim .int)) found →
      found = [.ascription (.prim .int)] := fun h => h.ascription rfl
  have short : ∀ {ts : List Ty}, (∀ t ∈ ts, t = .prim .int) →
      ¬ startingChecker.extractor.hierarchy.FallsShort ts := by
    intro ts hts
    refine Declarations.not_fallsShort fun t ht d as heq => ?_
    cases (hts t ht).symm.trans heq
  intro ts hjoins
  cases hjoins with
  | alternatives hpart hfound =>
      obtain rfl := List.mem_singleton.1 hpart
      rw [part hfound]
      exact short (by simp [PatternType.ascription])
  | @occurrences _ _ _ results types aligned hresults htypes haligned param =>
      cases hresults with
      | @cons _ found _ rest hfound hrest =>
          cases hrest
          obtain rfl := part hfound
          obtain rfl : [Ty.prim .int] = types := Option.some.inj htypes
          obtain rfl : [(0, Ty.prim .int)] = aligned := Option.some.inj haligned
          refine short fun t ht => ?_
          obtain ⟨-, rfl⟩ := Prod.mk.inj (List.mem_singleton.1 (Extractor.mem_said.1 ht))
          rfl
  | part hq hjoins =>
      obtain rfl := List.mem_singleton.1 hq
      cases hjoins with
      | part hq hjoins =>
          obtain rfl := List.mem_singleton.1 hq
          cases hjoins with
          | part hq _ => cases hq

theorem confines_someOf_int :
    startingChecker.Confines optionalInt (someOf (.prim .int)).pattern := by
  have hint : startingChecker.hierarchy.decls.Plain (.prim .int) := ⟨.prim .int, rfl, rfl⟩
  have field : ∀ {args : List Ty} {i : Nat} {f : Field},
      startingChecker.hierarchy.decls.Makes optionalInt (.app ⟨1⟩ args) →
      startingChecker.hierarchy.decls.FieldSpeaks ⟨1⟩ i f →
      f.ty.substitute ⟨1⟩ args = .prim .int := by
    intro args i f hmakes hf
    obtain rfl := eq_int_of_makes hmakes
    have hdeclared := hf.declared
    cases i with
    | zero =>
        obtain rfl := Option.some.inj hdeclared
        rfl
    | succ i => cases hdeclared
  refine .below (.variant ?_ ?_ ?_) ?_
  · rintro args hmakes a ha v rfl
    rw [eq_int_of_makes hmakes, List.mem_singleton] at ha
    cases ha
  · intro args i f hmakes hf _
    rw [field hmakes hf]
    exact hint
  · intro args i f part hmakes hf hpart
    rw [field hmakes hf]
    obtain rfl := List.mem_singleton.1 (List.mem_of_getElem? hpart)
    exact .typed hint (Declarations.below_self _ _) (.wildcard _ _)
  · exact meets_someOf_int

/-- The case `Some(_ : int)` accepts a value of `Option[int]` and is bound to it. -/
theorem records_accepted_some_int :
    ∃ table s', Settles (fun n => ((startingChecker.within n).bindCases ⟨[optionalInt]⟩ 0
        [someOf (.prim .int)] .empty).run startingChecker.freshState) (.ok table, s') ∧
      (someAlternative .int).result optionalInt ∈ table.get optionalInt := by
  have hlinear : startingChecker.hierarchy.decls.Linear :=
    Declarations.linear_of_ordered (by decide)
  obtain ⟨table, s', hsettles, -, hrecorded⟩ := records_accepted .initial hlinear
    (FieldCache.valid_empty _) (extracted_someOf .int) ⟨[optionalInt]⟩
    (s := startingChecker.freshState)
  have hmember : startingChecker.hierarchy.decls.Plain optionalInt :=
    ⟨.app (by decide) rfl fun t ht => List.mem_singleton.1 ht ▸ .prim .int, rfl, rfl⟩
  have haccepts := accepts_someOf (Declarations.below_self _ (.prim .int))
  refine ⟨table, s', hsettles, ?_⟩
  exact (hrecorded _ List.mem_cons_self optionalInt List.mem_cons_self hmember confines_someOf_int
    (.inl ⟨presentInt, isValue_presentInt, rfl, haccepts⟩)).1

/-- An alternative may accept a value of a member and get no result for it: `Some(_ : any)`
accepts values of `Option[int]`, but neither of `Some[any]` and `Option[int]` is a subtype
of the other. -/
theorem exists_unbound_alternative :
    ¬ ∀ (C : Checker) (union : TypeSet) (cases : List Case) (s s' : SessionState)
        (table : MatchTable) (alternatives : List Alternative),
      C.hierarchy.decls.Reachable →
      (C.bindCases union 0 cases .empty).Yields s (.ok table) s' →
      C.Extracted 0 cases s.fields alternatives s'.fields →
      ∀ a ∈ alternatives, ∀ member ∈ union.members, ∀ v,
        C.hierarchy.decls.IsValue v → v.ty = member →
        C.hierarchy.decls.Accepts a.pattern v → a.result member ∈ table.get member := by
  intro hall
  have hbound : ∃ s', (startingChecker.bindAll ⟨[optionalInt]⟩ 0 (someOf (.prim .any))
      [((someOf (.prim .any)).pattern, someType (.prim .any))] .empty).Yields
      { startingChecker.freshState with fields := someFields } .empty s' := ⟨_, rfl⟩
  obtain ⟨s', hbound⟩ := hbound
  have hbind : (startingChecker.bindCases ⟨[optionalInt]⟩ 0 [someOf (.prim .any)] .empty).Yields
      startingChecker.freshState (.ok .empty) s' := by
    have hextract := yields_alternatives (s := startingChecker.freshState).2
      ⟨someFields, answer_someOf .any, rfl⟩
    apply Step.yields_bind.2 ⟨_, _, hextract, ?_⟩
    exact Step.yields_bind.2 ⟨_, _, hbound, Step.yields_pure.2 ⟨rfl, rfl⟩⟩
  have hextracted : startingChecker.Extracted 0 [someOf (.prim .any)] {} [someAlternative .any]
      s'.fields := by
    rw [(bound_of_bindAll hbound).2]
    exact extracted_someOf .any
  have hbelow : startingChecker.hierarchy.decls.Below (.prim .int) (.prim .any) :=
    Declarations.below_of_isSubtype (H := startingChecker.hierarchy) rfl
  have hrecorded := hall startingChecker _ _ _ _ _ _ .initial hbind hextracted _
    List.mem_cons_self optionalInt List.mem_cons_self presentInt isValue_presentInt rfl
    (accepts_someOf hbelow)
  exact absurd hrecorded List.not_mem_nil

end Checker

end CaseCover
