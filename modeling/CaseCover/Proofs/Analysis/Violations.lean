import CaseCover.Proofs.Analysis.Binding
import CaseCover.Proofs.Check.RowOrder
import CaseCover.Proofs.Union.Membership

/-!
What is wrong with a case set, said without running an analysis. A case set has a violation
when a case has no pattern types, when an alternative can never match, or when it is total
and its required members are not contained, touched and covered (`Checker.Violates`). A case
set that passes has none, and has none in any other order of its cases either
(`Passes.not_violates_of_perm`).
-/

namespace CaseCover

/-- A pattern type can match no member of a union and is no part of it. -/
structure Declarations.Foreign (D : Declarations) (union : Ty) (p : PatternType) : Prop where
  constrained : p.isCatchAll = false
  incomparable : ∀ m ∈ (TypeSet.ofUnion union).members, ¬ D.Below p.ty m ∧ ¬ D.Below m p.ty
  outside : ¬ D.PartOf p.ty (TypeSet.ofUnion union)

/-- A member of a request's union that a total case set must handle: any one, or one that is
comparable with a member of the required part. -/
def Declarations.Required (D : Declarations) (r : AnalysisRequest) (m : Ty) : Prop :=
  m ∈ (TypeSet.ofUnion r.union).members ∧ ∀ part, r.required = some part →
    ∃ w ∈ (TypeSet.ofUnion part).members, D.Below m w ∨ D.Below w m

namespace Checker

/-- The pattern types of the alternatives of a case, or why there are none, with nothing
remembered of other cases. -/
def extraction (C : Checker) (c : Case) :
    Option (Except ExtractionError (List (Pattern × PatternType))) :=
  ((C.extractor.extractAlternatives c.pattern).answer {}).map Prod.fst

/-- The alternatives of a case with their pattern types; none for a case without. -/
def alternativesOf (C : Checker) (c : Case) : List (Pattern × PatternType) :=
  match C.extraction c with
  | some (.ok found) => found
  | _ => []

theorem alternativesOf_of_extraction {C : Checker} {c : Case}
    {found : List (Pattern × PatternType)} (h : C.extraction c = some (.ok found)) :
    C.alternativesOf c = found := by
  unfold alternativesOf
  rw [h]

open Classical in
/-- The alternatives of cases that can match a member, each with its case. -/
noncomputable def touching (C : Checker) (cases : List Case) (member : Ty) :
    List (Case × Pattern × PatternType) :=
  cases.flatMap fun c => ((C.alternativesOf c).filter fun a =>
    C.hierarchy.decls.Compatible a.2 member).map fun a => (c, a)

/-- The alternatives among these that count as evidence. -/
noncomputable def proofsFor (C : Checker) (cases : List Case) (member : Ty) :
    List (Pattern × PatternType) :=
  ((C.touching cases member).filter fun a =>
    C.config.countsAsEvidence a.1.isGuarded).map Prod.snd

/-- A case set has a violation. -/
inductive Violates (C : Checker) (r : AnalysisRequest) : Prop
  /-- A case has no pattern types. -/
  | unextractable {c : Case} {e : ExtractionError} (hc : c ∈ r.cases)
      (he : C.extraction c = some (.error e))
  /-- An alternative can never match. -/
  | foreign {c : Case} {a : Pattern × PatternType} (hc : c ∈ r.cases)
      (ha : a ∈ C.alternativesOf c) (hforeign : C.hierarchy.decls.Foreign r.union a.2)
  /-- The required part is not contained in the union. -/
  | notContained {part : Ty} (htotal : r.completeness = .total)
      (hpart : r.required = some part)
      (houtside : ¬ C.hierarchy.decls.PartOf part (TypeSet.ofUnion r.union))
  /-- No alternative can match a required member. -/
  | untouched {m : Ty} (htotal : r.completeness = .total)
      (hm : C.hierarchy.decls.Required r m) (hnone : C.touching r.cases m = [])
  /-- What counts as evidence leaves values of a required member unmatched. -/
  | uncovered {m : Ty} {texts : List String} {note : Option String}
      (htotal : r.completeness = .total) (hm : C.hierarchy.decls.Required r m)
      (hsome : C.touching r.cases m ≠ [])
      (hmissing : (C.check m (C.proofsFor r.cases m)).value? = some (.missing texts note))

/-- A case set has no violation, and all questions about it have answers. -/
structure Passes (C : Checker) (r : AnalysisRequest) : Prop where
  extracted : ∀ c ∈ r.cases, ∃ found, C.extraction c = some (.ok found)
  native : ∀ c ∈ r.cases, ∀ a ∈ C.alternativesOf c, ¬ C.hierarchy.decls.Foreign r.union a.2
  contained : r.completeness = .total → ∀ part, r.required = some part →
    C.hierarchy.decls.PartOf part (TypeSet.ofUnion r.union)
  touched : r.completeness = .total → ∀ m, C.hierarchy.decls.Required r m →
    C.touching r.cases m ≠ []
  covered : r.completeness = .total → ∀ m, C.hierarchy.decls.Required r m →
    ∃ coverage, (C.check m (C.proofsFor r.cases m)).value? = some coverage ∧
      ∀ texts note, coverage ≠ .missing texts note

variable {C : Checker}

open Classical in
/-- The alternatives of a first case that can match a member stand before those of the
others. -/
theorem touching_cons {c : Case} {rest : List Case} {found : List (Pattern × PatternType)}
    (hfound : C.extraction c = some (.ok found)) {member : Ty}
    {matching : Pattern × PatternType → Bool}
    (hmatching : ∀ a ∈ found,
      (matching a = true ↔ C.hierarchy.decls.Compatible a.2 member)) :
    C.touching (c :: rest) member =
      (found.filter matching).map (fun a => (c, a)) ++ C.touching rest member := by
  rw [touching, List.flatMap_cons, alternativesOf_of_extraction hfound]
  congr 2
  apply List.filter_congr
  intro a ha
  rw [Bool.eq_iff_iff, decide_eq_true_iff, hmatching a ha]

theorem touching_perm {cases cases' : List Case} (h : cases'.Perm cases) (member : Ty) :
    (C.touching cases' member).Perm (C.touching cases member) :=
  h.flatMap_right _

theorem proofsFor_perm {cases cases' : List Case} (h : cases'.Perm cases) (member : Ty) :
    (C.proofsFor cases' member).Perm (C.proofsFor cases member) :=
  ((touching_perm h member).filter _).map _

/-- A case set that passes in one order of its cases has no violation in another. -/
theorem Passes.not_violates_of_perm {r : AnalysisRequest} {cases : List Case}
    (hpasses : C.Passes { r with cases }) (hperm : cases.Perm r.cases) : ¬ C.Violates r := by
  intro hviolates
  cases hviolates with
  | unextractable hc he =>
      obtain ⟨found, hfound⟩ := hpasses.extracted _ (hperm.mem_iff.2 hc)
      rw [he] at hfound
      exact nomatch Option.some.inj hfound
  | foreign hc ha hforeign => exact hpasses.native _ (hperm.mem_iff.2 hc) _ ha hforeign
  | notContained htotal hpart houtside =>
      exact houtside (hpasses.contained htotal _ hpart)
  | untouched htotal hm hnone =>
      apply hpasses.touched htotal _ hm
      have hsame := touching_perm (C := C) hperm
      exact List.perm_nil.1 (hnone ▸ hsame _)
  | uncovered htotal hm _ hmissing =>
      obtain ⟨coverage, hcoverage, hnotMissing⟩ := hpasses.covered htotal _ hm
      obtain ⟨texts, note, hsame⟩ :=
        missing_of_perm (proofsFor_perm hperm _).symm hmissing hcoverage rfl
      exact hnotMissing texts note hsame

theorem Passes.not_violates {r : AnalysisRequest} (hpasses : C.Passes r) : ¬ C.Violates r := by
  have hsame : C.Passes { r with cases := r.cases } := hpasses
  exact hsame.not_violates_of_perm (.refl _)

end Checker

end CaseCover
