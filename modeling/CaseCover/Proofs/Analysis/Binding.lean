import CaseCover.Proofs.Analysis.Steps
import CaseCover.Proofs.Decl.Reachable
import CaseCover.Proofs.Value.Matching

/-!
What binding the cases of a case set records. The results for a member are those of the
alternatives whose pattern types are comparable with it, in the order of the alternatives,
and what is reported concerns alternatives that are comparable with no member
(`Checker.Bound`). Values have no part in this; what it means for the values that an
alternative accepts follows in `CaseCover.Proofs.Analysis.Acceptance`.
-/

namespace CaseCover

/-- An alternative of a case at a position, with a pattern type of it. -/
structure Alternative where
  index : Nat
  source : Case
  pattern : Pattern
  patternType : PatternType

namespace Alternative

/-- The alternatives of a case, from its patterns with their pattern types. -/
def ofCase (index : Nat) (c : Case) (found : List (Pattern × PatternType)) :
    List Alternative :=
  found.map fun p => ⟨index, c, p.1, p.2⟩

/-- The result of an alternative for a member. -/
def result (a : Alternative) (member : Ty) : MatchResult :=
  ⟨a.index, a.source.span, a.source.isGuarded, a.pattern, member, a.patternType⟩

/-- A table with the results of an alternative for some members. -/
def record (a : Alternative) (members : List Ty) (table : MatchTable) : MatchTable :=
  members.foldl (fun table member => table.add (a.result member)) table

theorem get_record (a : Alternative) (members : List Ty) (table : MatchTable)
    (member : Ty) :
    (a.record members table).get member =
      table.get member ++ (members.filter (· = member)).map a.result := by
  induction members generalizing table with
  | nil => simp [record]
  | cons m members ih =>
      have hrest := ih (table.add (a.result m))
      rw [record] at hrest ⊢
      rw [List.foldl_cons, hrest, MatchTable.get_add]
      by_cases hm : m = member
      · simp [result, hm]
      · simp [result, hm]

end Alternative

/-- A pattern type is comparable with a member. -/
def Declarations.Compatible (D : Declarations) (p : PatternType) (member : Ty) : Prop :=
  p.isCatchAll = true ∨ D.Below p.ty member ∨ D.Below member p.ty

namespace Checker

variable {C : Checker}

/-- Whether a pattern type is found to be comparable with a member. -/
def canMatch (C : Checker) (p : PatternType) (member : Ty) : Bool :=
  p.isCatchAll || (C.comparable p.ty member).value? == some true

theorem comparable_iff {a b : Ty} {r : Bool} (hr : (C.comparable a b).value? = some r) :
    r = true ↔ C.hierarchy.decls.Below a b ∨ C.hierarchy.decls.Below b a := by
  rcases Query.value?_bind_eq_some.1 hr with ⟨below, hbelow, hr⟩
  have hleft := Declarations.below_iff_of_isSubtype hbelow
  cases below with
  | true =>
      obtain rfl := Option.some.inj hr
      simp [hleft]
  | false =>
      have hright := Declarations.below_iff_of_isSubtype hr
      simp [hleft, hright]

theorem membersMatched_eq {p : PatternType} {union : TypeSet} {members : List Ty}
    (hmembers : (C.membersMatched p union).value? = some members) :
    members = union.members.filter (C.canMatch p) ∧
      ∀ member ∈ union.members,
        (C.canMatch p member = true ↔ C.hierarchy.decls.Compatible p member) := by
  unfold membersMatched at hmembers
  by_cases hcatch : p.isCatchAll = true
  · rw [if_pos hcatch] at hmembers
    obtain rfl : union.members = members := Option.some.inj hmembers
    have hall : ∀ member ∈ union.members, C.canMatch p member = true := by
      simp [canMatch, hcatch]
    constructor
    · exact (List.filter_eq_self.2 hall).symm
    · intro member hmember
      simp [hall member hmember, Declarations.Compatible, hcatch]
  · rw [if_neg hcatch] at hmembers
    rcases Query.value?_filter_eq_some hmembers with ⟨hanswered, rfl⟩
    rw [Bool.not_eq_true] at hcatch
    constructor
    · apply List.filter_congr
      intro member _
      rw [canMatch, hcatch, Bool.false_or]
    · intro member hmember
      rcases hanswered member hmember with ⟨r, hr⟩
      simp [canMatch, Declarations.Compatible, hcatch, hr, ← comparable_iff hr]

/-- The results of an alternative for a member of a union. -/
def resultsFor (C : Checker) (union : TypeSet) (member : Ty) (a : Alternative) :
    List MatchResult :=
  ((union.members.filter (C.canMatch a.patternType)).filter (· = member)).map a.result

/-- A diagnostic says that an alternative can never match, and it is comparable with no
member. -/
def Rejects (C : Checker) (union : TypeSet) (a : Alternative) (d : Diagnostic) : Prop :=
  (∀ member ∈ union.members, ¬ C.hierarchy.decls.Compatible a.patternType member) ∧
    d.code = .notInUnion ∧ d.primarySpan? = some a.pattern.span ∧
    d.notes = ["case " ++ toString (a.index + 1) ++ " can never match"]

/-- What binding alternatives adds to a table and a queue. -/
structure Bound (C : Checker) (union : TypeSet) (alternatives : List Alternative)
    (table table' : MatchTable) (queue queue' : DiagnosticQueue) : Prop where
  results : ∀ member, table'.get member =
    table.get member ++ alternatives.flatMap (C.resultsFor union member)
  answered : ∀ a ∈ alternatives, ∀ member ∈ union.members,
    (C.canMatch a.patternType member = true ↔
      C.hierarchy.decls.Compatible a.patternType member)
  reports : ∃ reports, queue' = queue.extend reports ∧
    ∀ d ∈ reports, ∃ a ∈ alternatives, C.Rejects union a d

variable {union : TypeSet}

theorem Bound.nil (table : MatchTable) (queue : DiagnosticQueue) :
    C.Bound union [] table table queue queue where
  results := fun member => by simp
  answered := fun a ha => absurd ha List.not_mem_nil
  reports := ⟨[], rfl, fun d hd => absurd hd List.not_mem_nil⟩

theorem Bound.append {first later : List Alternative} {table₁ table₂ table₃ : MatchTable}
    {queue₁ queue₂ queue₃ : DiagnosticQueue}
    (hfirst : C.Bound union first table₁ table₂ queue₁ queue₂)
    (hlater : C.Bound union later table₂ table₃ queue₂ queue₃) :
    C.Bound union (first ++ later) table₁ table₃ queue₁ queue₃ where
  results := by
    intro member
    rw [hlater.results, hfirst.results, List.flatMap_append, List.append_assoc]
  answered := by
    intro a ha
    rcases List.mem_append.1 ha with ha | ha
    · exact hfirst.answered a ha
    · exact hlater.answered a ha
  reports := by
    rcases hfirst.reports with ⟨reports, hqueue, hreports⟩
    rcases hlater.reports with ⟨reports', hqueue', hreports'⟩
    refine ⟨reports ++ reports', ?_, ?_⟩
    · rw [hqueue', hqueue]
      exact List.foldl_append.symm
    · intro d hd
      rcases List.mem_append.1 hd with hd | hd
      · rcases hreports d hd with ⟨a, ha, hrejects⟩
        exact ⟨a, List.mem_append_left later ha, hrejects⟩
      · rcases hreports' d hd with ⟨a, ha, hrejects⟩
        exact ⟨a, List.mem_append_right first ha, hrejects⟩

/-- Binding an alternative records its results for the members that it can match. -/
theorem table_of_bind {index : Nat} {c : Case} {p : Pattern × PatternType}
    {table table' : MatchTable} {s s' : SessionState}
    (hbind : (C.bind union index c p table).Yields s table' s') :
    table' = (⟨index, c, p.1, p.2⟩ : Alternative).record
        (union.members.filter (C.canMatch p.2)) table ∧
      ∀ member ∈ union.members,
        (C.canMatch p.2 member = true ↔ C.hierarchy.decls.Compatible p.2 member) := by
  unfold bind at hbind
  rcases Step.yields_bind.1 hbind with ⟨members, _, hask, hrecord⟩
  rcases Step.yields_ask.1 hask with ⟨hmembers, rfl⟩
  rcases membersMatched_eq hmembers with ⟨rfl, hcompatible⟩
  refine ⟨?_, hcompatible⟩
  by_cases hempty : (union.members.filter (C.canMatch p.2)).isEmpty = true
  · rw [if_pos hempty] at hrecord
    rw [List.isEmpty_iff.1 hempty, Alternative.record, List.foldl_nil]
    rcases Step.yields_bind.1 hrecord with ⟨mismatch?, _, -, hreport⟩
    cases mismatch? with
    | none => exact (Step.yields_pure.1 hreport).1
    | some mismatch =>
        rcases Step.yields_bind.1 hreport with ⟨_, _, -, hdone⟩
        exact (Step.yields_pure.1 hdone).1
  · rw [if_neg hempty] at hrecord
    exact (Step.yields_pure.1 hrecord).1

theorem bound_of_bind {index : Nat} {c : Case} {p : Pattern × PatternType}
    {table table' : MatchTable} {s s' : SessionState}
    (hbind : (C.bind union index c p table).Yields s table' s') :
    C.Bound union [⟨index, c, p.1, p.2⟩] table table' s.queue s'.queue ∧
      s'.fields = s.fields := by
  obtain ⟨htable, hcompatible⟩ := table_of_bind hbind
  have results : ∀ member, table'.get member = table.get member ++
      [(⟨index, c, p.1, p.2⟩ : Alternative)].flatMap (C.resultsFor union member) := by
    intro member
    rw [htable, List.flatMap_singleton]
    exact Alternative.get_record ⟨index, c, p.1, p.2⟩ _ table member
  have answered : ∀ a ∈ [(⟨index, c, p.1, p.2⟩ : Alternative)],
      ∀ member ∈ union.members, (C.canMatch a.patternType member = true ↔
        C.hierarchy.decls.Compatible a.patternType member) := by
    intro a ha
    rw [List.mem_singleton.1 ha]
    exact hcompatible
  unfold bind at hbind
  rcases Step.yields_bind.1 hbind with ⟨members, _, hask, hrecord⟩
  rcases Step.yields_ask.1 hask with ⟨hmembers, rfl⟩
  rcases membersMatched_eq hmembers with ⟨rfl, -⟩
  by_cases hempty : (union.members.filter (C.canMatch p.2)).isEmpty = true
  · rw [if_pos hempty] at hrecord
    have hincomparable : ∀ member ∈ union.members,
        ¬ C.hierarchy.decls.Compatible p.2 member := by
      intro member hmember hcompare
      have hmatch := List.filter_eq_nil_iff.1 (List.isEmpty_iff.1 hempty) member hmember
      exact hmatch ((hcompatible member hmember).2 hcompare)
    rcases Step.yields_bind.1 hrecord with ⟨mismatch?, _, hunions, hreport⟩
    rcases Step.yields_askUnions.1 hunions with ⟨unions, -, rfl⟩
    cases mismatch? with
    | none =>
        obtain ⟨-, rfl⟩ := Step.yields_pure.1 hreport
        exact ⟨⟨results, answered, [], rfl, fun d hd => absurd hd List.not_mem_nil⟩, rfl⟩
    | some mismatch =>
        rcases Step.yields_bind.1 hreport with ⟨_, _, hreported, hdone⟩
        obtain rfl := Step.yields_report.1 hreported
        obtain ⟨-, rfl⟩ := Step.yields_pure.1 hdone
        refine ⟨⟨results, answered, [_], rfl, fun d hd => ?_⟩, rfl⟩
        rw [List.mem_singleton.1 hd]
        exact ⟨_, List.mem_singleton_self _, hincomparable, rfl, rfl, rfl⟩
  · rw [if_neg hempty] at hrecord
    obtain ⟨-, rfl⟩ := Step.yields_pure.1 hrecord
    exact ⟨⟨results, answered, [], rfl, fun d hd => absurd hd List.not_mem_nil⟩, rfl⟩

theorem bound_of_bindAll {index : Nat} {c : Case} {found : List (Pattern × PatternType)}
    {table table' : MatchTable} {s s' : SessionState}
    (hbind : (C.bindAll union index c found table).Yields s table' s') :
    C.Bound union (Alternative.ofCase index c found) table table' s.queue s'.queue ∧
      s'.fields = s.fields := by
  induction found generalizing table s with
  | nil =>
      obtain ⟨rfl, rfl⟩ := Step.yields_pure.1 hbind
      exact ⟨.nil table' s'.queue, rfl⟩
  | cons p found ih =>
      rcases Step.yields_bind.1 hbind with ⟨between, s₁, hfirst, hrest⟩
      rcases bound_of_bind hfirst with ⟨hbound, hfields⟩
      rcases ih hrest with ⟨hbound', hfields'⟩
      exact ⟨hbound.append hbound', hfields'.trans hfields⟩

/-- The alternatives of cases, which stand at a position and those after it, and what is
remembered about fields before and after they are extracted. -/
inductive Extracted (C : Checker) :
    Nat → List Case → FieldCache → List Alternative → FieldCache → Prop
  | nil (index : Nat) (fields : FieldCache) : C.Extracted index [] fields [] fields
  | cons {index : Nat} {c : Case} {rest : List Case} {before between after : FieldCache}
      {found : List (Pattern × PatternType)} {later : List Alternative}
      (hfound : (C.extractor.extractAlternatives c.pattern).answer before =
        some (.ok found, between))
      (hrest : C.Extracted (index + 1) rest between later after) :
      C.Extracted index (c :: rest) before (Alternative.ofCase index c found ++ later) after

/-- Binding cases extracts their alternatives and binds each of them. -/
theorem bound_of_bindCases {index : Nat} {cases : List Case} {table table' : MatchTable}
    {s s' : SessionState}
    (hbind : (C.bindCases union index cases table).Yields s (.ok table') s') :
    ∃ alternatives, C.Extracted index cases s.fields alternatives s'.fields ∧
      C.Bound union alternatives table table' s.queue s'.queue := by
  induction cases generalizing index table s with
  | nil =>
      obtain ⟨heq, rfl⟩ := Step.yields_pure.1 hbind
      obtain rfl := Except.ok.inj heq
      exact ⟨[], .nil index s'.fields, .nil table' s'.queue⟩
  | cons c rest ih =>
      rcases Step.yields_bind.1 hbind with ⟨result, s₁, hextract, hbind⟩
      rcases yields_alternatives.1 hextract with ⟨fields, hfound, rfl⟩
      cases result with
      | error e =>
          obtain ⟨heq, -⟩ := Step.yields_pure.1 hbind
          exact nomatch heq
      | ok found =>
          rcases Step.yields_bind.1 hbind with ⟨between, s₂, hfirst, hrest⟩
          rcases bound_of_bindAll hfirst with ⟨hbound, hfields⟩
          rcases ih hrest with ⟨later, hextracted, hbound'⟩
          rw [hfields] at hextracted
          exact ⟨_, .cons hfound hextracted, hbound.append hbound'⟩

/-- Binding records a result of an alternative for a member exactly when its pattern type
is unconstrained or comparable with the member, and no such alternative is reported as one
that can never match. -/
theorem bound_iff_compatible {cases : List Case} {table : MatchTable}
    {s s' : SessionState}
    (hbind : (C.bindCases union 0 cases .empty).Yields s (.ok table) s') :
    ∃ alternatives, C.Extracted 0 cases s.fields alternatives s'.fields ∧
      (∀ member r, r ∈ table.get member ↔ member ∈ union.members ∧
        ∃ a ∈ alternatives, C.hierarchy.decls.Compatible a.patternType member ∧
          r = a.result member) ∧
      ∃ reports, s'.queue = s.queue.extend reports ∧
        ∀ d ∈ reports, ∃ a ∈ alternatives, C.Rejects union a d := by
  rcases bound_of_bindCases hbind with ⟨alternatives, hextracted, hbound⟩
  refine ⟨alternatives, hextracted, fun member r => ?_, hbound.reports⟩
  have hempty : MatchTable.empty.get member = [] := rfl
  rw [hbound.results, hempty, List.nil_append, List.mem_flatMap]
  constructor
  · rintro ⟨a, ha, hr⟩
    rcases List.mem_map.1 hr with ⟨m, hm, rfl⟩
    rcases List.mem_filter.1 hm with ⟨hmatched, hmember⟩
    obtain rfl := of_decide_eq_true hmember
    rcases List.mem_filter.1 hmatched with ⟨hunion, hmatch⟩
    exact ⟨hunion, a, ha, (hbound.answered a ha m hunion).1 hmatch, rfl⟩
  · rintro ⟨hmember, a, ha, hcompatible, rfl⟩
    refine ⟨a, ha, List.mem_map_of_mem ?_⟩
    have hmatch := (hbound.answered a ha member hmember).2 hcompatible
    simp [hmember, hmatch]

/-- A checker for the data types that every workspace starts with. -/
def startingChecker : Checker := ⟨Workspace.initial.decls.within 8, {}⟩

end Checker

end CaseCover
