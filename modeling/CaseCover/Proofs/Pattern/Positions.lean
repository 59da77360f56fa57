import CaseCover.Proofs.Pattern.Narrowing
import CaseCover.Proofs.Value.Accepting

/-!
Pattern types and the positions of patterns. The types that a pattern yields come out of joins,
alignments, widening and ascriptions, and nothing keeps them below the type whose values the
pattern is for. They are below it when the pattern fits the type (`Pattern.Fits`), its ascriptions
stay within the types of their positions (`Pattern.StaysWithin`), and none of the joins that are
made falls short (`Extractor.Joins`): this is `Yields.inside`, by induction over the pattern. A
pattern that accepts a value and stays within its type fits the type (`StaysWithin.fits`).
-/

namespace CaseCover

namespace Declarations

variable (D : Declarations)

/-- Some value of a type is made as one of another type. -/
def Makes (t s : Ty) : Prop := ∃ v, D.IsValue v ∧ v.ty = t ∧ v.core.ty = s

/-- A pattern accepts some value of a type. -/
def AcceptsSome (p : Pattern) (t : Ty) : Prop := ∃ v, D.IsValue v ∧ v.ty = t ∧ D.Accepts p v

/-- A field says something about the parameters of its data type. -/
structure FieldSpeaks (d : DataId) (i : Nat) (f : Field) : Prop where
  declared : (D.get d).fields[i]? = some f
  occurs : occurrencesIn d f.ty ≠ []

/-- The values of a type that a data type makes have no literal types for arguments. -/
def Wide (t : Ty) (d : DataId) : Prop :=
  ∀ args, D.Makes t (.app d args) → ∀ a ∈ args, ∀ v, a ≠ .lit v

end Declarations

/-- A pattern has a chance with the values of a type: its literals are below the types of their
positions, and its deconstructions name data types that make values of these. -/
inductive Pattern.Fits (D : Declarations) : Ty → Pattern → Prop
  | wildcard (t : Ty) (n : PatternNode) : Fits D t (.wildcard n)
  | binding (t : Ty) (n : PatternNode) (x : String) : Fits D t (.binding n x)
  | rest (t : Ty) (n : PatternNode) : Fits D t (.rest n)
  | literal {t : Ty} {n : PatternNode} {v : Literal} (h : D.Below (.ofLiteral v) t) :
      Fits D t (.literal n v)
  | named {t : Ty} {n : PatternNode} {x : String} {p : Pattern} (h : Fits D t p) :
      Fits D t (.named n x p)
  | typed {t s : Ty} {n : PatternNode} {p : Pattern} (h : Fits D t p) : Fits D t (.typed n p s)
  | alternation {t : Ty} {n : PatternNode} {branches : List Pattern}
      (h : ∀ p ∈ branches, Fits D t p) : Fits D t (.alternation n branches)
  | variant {t : Ty} {n : PatternNode} {d : DataId} {parts : List Pattern} {args : List Ty}
      (hmakes : D.Makes t (.app d args))
      (h : ∀ (i : Nat) f part, D.FieldSpeaks d i f → parts[i]? = some part →
        Fits D (f.ty.substitute d args) part) : Fits D t (.variant n d parts)
  | extractor {t : Ty} {n : PatternNode} {d : DataId} {parts : List Pattern} {args : List Ty}
      (hmakes : D.Makes t (.app d args)) (h : ∀ part ∈ parts, Fits D (args.headD .any) part) :
      Fits D t (.extractor n d parts)

/-- In a pattern for the values of a type, each ascription is a plain type below that of its
position, each branch of an alternation fits its position, and the types of the positions are
plain. Nothing is asked where the pattern type keeps nothing. -/
inductive Pattern.StaysWithin (D : Declarations) : Ty → Pattern → Prop
  | wildcard (t : Ty) (n : PatternNode) : StaysWithin D t (.wildcard n)
  | binding (t : Ty) (n : PatternNode) (x : String) : StaysWithin D t (.binding n x)
  | rest (t : Ty) (n : PatternNode) : StaysWithin D t (.rest n)
  | literal (t : Ty) (n : PatternNode) (v : Literal) : StaysWithin D t (.literal n v)
  | named {t : Ty} {n : PatternNode} {x : String} {p : Pattern} (h : StaysWithin D t p) :
      StaysWithin D t (.named n x p)
  | typed {t s : Ty} {n : PatternNode} {p : Pattern} (hs : D.Plain s) (hbelow : D.Below s t)
      (h : StaysWithin D t p) : StaysWithin D t (.typed n p s)
  | alternation {t : Ty} {n : PatternNode} {branches : List Pattern}
      (hfits : ∀ p ∈ branches, p.Fits D t) (h : ∀ p ∈ branches, StaysWithin D t p) :
      StaysWithin D t (.alternation n branches)
  | variant {t : Ty} {n : PatternNode} {d : DataId} {parts : List Pattern} (hwide : D.Wide t d)
      (hplain : ∀ args (i : Nat) f, D.Makes t (.app d args) → D.FieldSpeaks d i f →
        i < parts.length → D.Plain (f.ty.substitute d args))
      (h : ∀ args (i : Nat) f part, D.Makes t (.app d args) → D.FieldSpeaks d i f →
        parts[i]? = some part → StaysWithin D (f.ty.substitute d args) part) :
      StaysWithin D t (.variant n d parts)
  | extractor {t : Ty} {n : PatternNode} {d : DataId} {parts : List Pattern}
      (hkind : (D.get d).isSequence = true) (hwide : D.Wide t d)
      (h : ∀ args part, D.Makes t (.app d args) → part ∈ parts →
        StaysWithin D (args.headD .any) part) : StaysWithin D t (.extractor n d parts)

section Values

variable {D : Declarations}

/-- What makes the values of a plain type is plain and below it. -/
theorem Declarations.Makes.below (hD : D.Reachable) (hlinear : D.Linear) {t s : Ty}
    (h : D.Makes t s) (ht : D.Plain t) : D.Plain s ∧ D.Below s t := by
  obtain ⟨v, hv, rfl, rfl⟩ := h
  exact (hlinear.of_mem_views hD hv ht v.core_mem_views).2

/-- The values in the fields of a product are of the types of the fields. -/
theorem Declarations.IsValue.field {d : DataId} {args : List Ty} {values : List Value}
    (hv : D.IsValue (.tuple (.app d args) values)) {i : Nat} {f : Field}
    (hf : (D.get d).fields[i]? = some f) (hi : i < values.length) :
    D.IsValue values[i] ∧ values[i].ty = f.ty.substitute d args := by
  cases hv with
  | tuple _ htypes hvalues =>
      have hty := congrArg (·[i]?) htypes
      simp only [List.getElem?_map, List.getElem?_eq_getElem hi, Declarations.fieldsOf, hf,
        Option.map_some, Option.some.injEq] at hty
      exact ⟨hvalues _ (List.getElem_mem hi), hty⟩

/-- A part of a sequence pattern is a rest or one of the fixed elements. -/
theorem Pattern.isRest_or_mem_fixedElements {parts : List Pattern} {p : Pattern} (hp : p ∈ parts) :
    p.isRest = true ∨ p ∈ (Checker.fixedElements parts).1 := by
  unfold Checker.fixedElements
  cases hlast : parts.getLast? with
  | none =>
      rw [List.getLast?_eq_none_iff.1 hlast] at hp
      cases hp
  | some last =>
      dsimp only
      split
      · rename_i hrest
        rw [← List.dropLast_append_getLast? last hlast, List.mem_append] at hp
        rcases hp with hp | hp
        · exact .inr hp
        · exact .inl (List.mem_singleton.1 hp ▸ hrest)
      · exact .inr hp

theorem Pattern.fits_of_isRest {p : Pattern} (hp : p.isRest = true) (t : Ty) : p.Fits D t := by
  induction p with
  | rest n => exact .rest t n
  | named n x p ih => exact .named (ih hp)
  | wildcard _ | binding _ _ | typed _ _ _ | literal _ _ | variant _ _ _ | extractor _ _ _
  | alternation _ _ => cases hp

/-- A fixed element of a sequence pattern that accepts a list has a partner in the list. -/
theorem exists_zipped {fixed : List Pattern} {isOpen : Bool} {values : List Value}
    (hlength : if isOpen = true then fixed.length ≤ values.length
      else fixed.length = values.length) {p : Pattern} (hp : p ∈ fixed) :
    ∃ v, (p, v) ∈ fixed.zip values := by
  have hle : fixed.length ≤ values.length := by
    split at hlength
    · exact hlength
    · exact hlength.le
  rw [← List.map_fst_zip hle] at hp
  obtain ⟨⟨_, v⟩, hv, rfl⟩ := List.mem_map.1 hp
  exact ⟨v, hv⟩

/-- A deconstruction that accepts a value of a plain type names a data type that makes values of
the type, and its parts accept values of the types of the fields. -/
theorem Declarations.AcceptsSome.variant (hD : D.Reachable) (hlinear : D.Linear) {t : Ty}
    (ht : D.Plain t) {n : PatternNode} {d : DataId} {parts : List Pattern}
    (h : D.AcceptsSome (.variant n d parts) t) :
    ∃ args, D.Makes t (.app d args) ∧ ∀ (i : Nat) f part, (D.get d).fields[i]? = some f →
      parts[i]? = some part → D.AcceptsSome part (f.ty.substitute d args) := by
  obtain ⟨value, hvalue, rfl, haccepts⟩ := h
  obtain ⟨hcore, -⟩ := hlinear.of_mem_views hD hvalue ht value.core_mem_views
  cases haccepts with
  | @variant _ _ args _ values _ hshape hlength hparts =>
      rw [hshape] at hcore
      refine ⟨args, ⟨value, hvalue, rfl, by rw [hshape]; rfl⟩, fun i f part hf hpart => ?_⟩
      obtain ⟨hi, rfl⟩ := List.getElem?_eq_some_iff.1 hpart
      obtain ⟨hpartValue, hpartTy⟩ := hcore.field hf (hlength ▸ hi)
      refine ⟨_, hpartValue, hpartTy, hparts (parts[i], values[i]) ?_⟩
      exact List.mem_of_getElem? (List.getElem?_zip_eq_some.2
        ⟨hpart, List.getElem?_eq_getElem (hlength ▸ hi)⟩)
  | @singleton _ _ args _ _ hshape =>
      rw [hshape] at hcore
      refine ⟨args, ⟨value, hvalue, rfl, by rw [hshape]; rfl⟩, fun i f part hf => ?_⟩
      cases hcore with
      | single hsingle =>
          have hkind : (D.get d).kind = .singleton := eq_of_beq hsingle
          simp [DataType.fields, hkind] at hf

/-- An extractor that accepts a value of a plain type names a data type that makes values of the
type, and its parts, but for a rest, accept elements. -/
theorem Declarations.AcceptsSome.extractor (hD : D.Reachable) (hlinear : D.Linear) {t : Ty}
    (ht : D.Plain t) {n : PatternNode} {d : DataId} {parts : List Pattern}
    (hkind : (D.get d).isSequence = true) (h : D.AcceptsSome (.extractor n d parts) t) :
    ∃ args, D.Makes t (.app d args) ∧ D.Plain (args.headD .any) ∧ ∀ part ∈ parts,
      part.isRest = true ∨ D.AcceptsSome part (args.headD .any) := by
  obtain ⟨value, hvalue, rfl, haccepts⟩ := h
  obtain ⟨hcore, hplain, -⟩ := hlinear.of_mem_views hD hvalue ht value.core_mem_views
  cases haccepts with
  | fields hshape =>
      rw [hshape] at hcore
      cases hcore with
      | tuple hproduct =>
          have hsequence : (D.get d).kind = .sequence := eq_of_beq hkind
          simp [DataType.isProduct, hsequence] at hproduct
  | @elements _ _ args _ values _ hshape hlength helements =>
      rw [hshape] at hcore hplain
      refine ⟨args, ⟨value, hvalue, rfl, by rw [hshape]; rfl⟩, ?_, fun part hpart => ?_⟩
      · cases args with
        | nil => exact .any
        | cons a args => exact Declarations.Plain.arg hplain List.mem_cons_self
      · refine (Pattern.isRest_or_mem_fixedElements hpart).imp_right fun hfixed => ?_
        obtain ⟨w, hw⟩ := exists_zipped hlength hfixed
        have hmem := (List.of_mem_zip hw).2
        cases hcore with
        | sequence _ htypes hvalues => exact ⟨w, hvalues w hmem, htypes w hmem, helements _ hw⟩

/-- A pattern that accepts a value of a plain type and stays within the type fits it. -/
theorem Pattern.StaysWithin.fits (hD : D.Reachable) (hlinear : D.Linear) {p : Pattern} {t : Ty}
    (hp : p.StaysWithin D t) (ht : D.Plain t) (hsome : D.AcceptsSome p t) : p.Fits D t := by
  induction hp with
  | wildcard t n => exact .wildcard t n
  | binding t n x => exact .binding t n x
  | rest t n => exact .rest t n
  | literal t n v =>
      obtain ⟨value, hvalue, rfl, haccepts⟩ := hsome
      cases haccepts with
      | literal hcore =>
          obtain ⟨-, -, hbelow⟩ := hlinear.of_mem_views hD hvalue ht value.core_mem_views
          rw [hcore] at hbelow
          exact .literal hbelow
  | named _ ih =>
      obtain ⟨value, hvalue, hty, haccepts⟩ := hsome
      cases haccepts with
      | named haccepts => exact .named (ih ht ⟨value, hvalue, hty, haccepts⟩)
  | typed _ _ _ ih =>
      obtain ⟨value, hvalue, hty, haccepts⟩ := hsome
      cases haccepts with
      | typed hview _ haccepts => exact .typed (ih ht ⟨value, hvalue, hty, haccepts.of_view hview⟩)
  | alternation hfits _ _ => exact .alternation hfits
  | variant _ hplain _ ih =>
      obtain ⟨args, hmakes, hparts⟩ := hsome.variant hD hlinear ht
      refine .variant hmakes fun i f part hspeaks hpart => ?_
      have hfield := hplain args i f hmakes hspeaks (List.getElem?_eq_some_iff.1 hpart).1
      exact ih args i f part hmakes hspeaks hpart hfield (hparts i f part hspeaks.declared hpart)
  | extractor hkind _ _ ih =>
      obtain ⟨args, hmakes, helement, hparts⟩ := hsome.extractor hD hlinear ht hkind
      refine .extractor hmakes fun part hpart => ?_
      rcases hparts part hpart with hrest | hpartSome
      · exact fits_of_isRest hrest _
      · exact ih args part hmakes hpart helement hpartSome

end Values

namespace Extractor

open Declarations (Inside)

/-- The lists of types that are joined when the types of a pattern are found: of the alternatives
of a part, of what is said about a parameter, and of the elements of a sequence. -/
inductive Joins (E : Extractor) : Pattern → List Ty → Prop
  | alternatives {n : PatternNode} {d : DataId} {parts : List Pattern} {part : Pattern}
      {found : List PatternType} (hpart : part ∈ parts) (hfound : E.Yields part found) :
      E.Joins (.variant n d parts) (found.map PatternType.ty)
  | occurrences {n : PatternNode} {d : DataId} {parts : List Pattern}
      {results : List (List PatternType)} {types : List Ty} {aligned : List (Nat × Ty)}
      (hresults : List.Forall₂ E.Yields parts results)
      (htypes : (Query.each (fun r => E.hierarchy.lubAll (r.map PatternType.ty)) results).value? =
        some types)
      (haligned : (E.alignFields d (E.hierarchy.decls.alignment d) types).value? = some aligned)
      (param : Nat) :
      E.Joins (.variant n d parts) (said param (aligned.map fun a => (a.1, a.2.widen)))
  | elements {n : PatternNode} {d : DataId} {parts : List Pattern}
      {results : List (List PatternType)} (hresults : List.Forall₂ E.Yields parts results) :
      E.Joins (.extractor n d parts) (results.flatten.map PatternType.ty)
  | part {p q : Pattern} {ts : List Ty} (hq : q ∈ p.parts) (h : E.Joins q ts) : E.Joins p ts

/-- No join that is made for a pattern falls short. -/
def Meets (E : Extractor) (p : Pattern) : Prop :=
  ∀ ts, E.Joins p ts → ¬ E.hierarchy.FallsShort ts

variable {E : Extractor}

theorem Meets.part {p q : Pattern} (h : E.Meets p) (hq : q ∈ p.parts) : E.Meets q :=
  fun ts hts => h ts (.part hq hts)

/-- A deconstruction whose parts are below the types of the fields is below the application. -/
theorem Yields.inside_variant (hD : E.hierarchy.decls.Reachable)
    (hlinear : E.hierarchy.decls.Linear) {n : PatternNode} {d : DataId} {parts : List Pattern}
    {args : List Ty} (happ : E.hierarchy.decls.Plain (.app d args))
    (hwide : ∀ a ∈ args, ∀ v, a ≠ .lit v) (hmeets : E.Meets (.variant n d parts))
    (hparts : ∀ (i : Nat) f part found, E.hierarchy.decls.FieldSpeaks d i f →
      parts[i]? = some part → E.Yields part found →
        E.hierarchy.decls.Plain (f.ty.substitute d args) ∧
          ∀ q ∈ found, E.hierarchy.decls.Inside q.ty (f.ty.substitute d args))
    {found : List PatternType} (h : E.Yields (.variant n d parts) found) :
    ∀ r ∈ found, E.hierarchy.decls.Inside r.ty (.app d args) := by
  obtain ⟨r, results, rfl, hyields, ⟨-, rfl, rfl⟩ | ⟨-, hproduct⟩⟩ := h.deconstruction
  · simp only [List.forall_mem_singleton, PatternType.singleton]
    refine hlinear.inside_app happ ?_ fun i u t hu ht => ?_
    · rw [List.length_replicate, happ.admitted.length_args]
    · obtain ⟨-, rfl⟩ := List.mem_replicate.1 (List.mem_of_getElem? hu)
      exact .noType t
  · rw [List.forall_mem_singleton]
    refine inside_combineProduct hD hlinear happ hwide (fun i f result hf hoccurs hresult => ?_)
      (fun types aligned htypes haligned param =>
        hmeets _ (.occurrences hyields htypes haligned param)) hproduct
    obtain ⟨hi', rfl⟩ := List.getElem?_eq_some_iff.1 hresult
    have hi : i < parts.length := hyields.length_eq ▸ hi'
    have hfound := hyields.get hi hi'
    obtain ⟨hplain, hinside⟩ :=
      hparts i f _ _ ⟨hf, hoccurs⟩ (List.getElem?_eq_getElem hi) hfound
    exact ⟨hplain, hinside, hmeets _ (.alternatives (List.getElem_mem hi) hfound)⟩

/-- What an ascription yields is below a plain type, if the ascription is and what it stands over
yields. -/
theorem Yields.inside_typed (hD : E.hierarchy.decls.Reachable)
    (hlinear : E.hierarchy.decls.Linear) {n : PatternNode} {p : Pattern} {s t : Ty}
    (ht : E.hierarchy.decls.Plain t) (hs : E.hierarchy.decls.Plain s)
    (hbelow : E.hierarchy.decls.Below s t)
    (hinner : ∀ {found}, E.Yields p found → ∀ r ∈ found, E.hierarchy.decls.Inside r.ty t)
    {found : List PatternType} (h : E.Yields (.typed n p s) found) :
    ∀ r ∈ found, E.hierarchy.decls.Inside r.ty t := by
  by_cases hp : p.isCatchAll = true
  · rw [h.ascription hp, List.forall_mem_singleton]
    exact ⟨hs.unionFree, hbelow⟩
  · obtain ⟨inner, hyields, hfound⟩ := h.reprojected hp
    intro r hr
    obtain ⟨q, hq, hreprojected, -⟩ := exists_related_to hfound hr
    exact hlinear.inside_reproject hD (hinner hyields q hq) ht hs hbelow hreprojected

/-- A pattern that fits a plain type and stays within it yields types below it, if none of its
joins falls short. The induction is on how the pattern stays within the type. -/
theorem Yields.inside (hD : E.hierarchy.decls.Reachable) (hlinear : E.hierarchy.decls.Linear)
    {p : Pattern} {t : Ty} (hp : p.StaysWithin E.hierarchy.decls t)
    (ht : E.hierarchy.decls.Plain t) (hfits : p.Fits E.hierarchy.decls t)
    (hmeets : E.Meets p) {found : List PatternType} (h : E.Yields p found) :
    ∀ r ∈ found, E.hierarchy.decls.Inside r.ty t := by
  induction hp generalizing found with
  | wildcard t | binding t | rest t =>
      rw [h.eq_of_evaluate (by rw [evaluate]), List.forall_mem_singleton]
      exact .noType t
  | literal t n v =>
      cases hfits with
      | literal hbelow =>
          rw [h.literal, List.forall_mem_singleton]
          exact ⟨.ofLiteral v, hbelow⟩
  | named _ ih =>
      cases hfits with
      | named hfits =>
          rw [Yields, evaluate] at h
          exact ih ht hfits (hmeets.part List.mem_cons_self) h
  | typed hs hbelow _ ih =>
      cases hfits with
      | typed hfits =>
          refine h.inside_typed hD hlinear ht hs hbelow ?_
          exact ih ht hfits (hmeets.part List.mem_cons_self)
  | alternation hbranches _ ih =>
      obtain ⟨-, results, hresults, rfl⟩ := h.alternation
      intro r hr
      obtain ⟨result, hresult, hr⟩ := List.mem_flatten.1 hr
      obtain ⟨p, hp, hyields⟩ := exists_related_to hresults hresult
      exact ih p hp ht (hbranches p hp) (hmeets.part hp) hyields r hr
  | variant hwide hplain _ ih =>
      cases hfits with
      | @variant _ _ _ _ args hmakes hparts =>
          obtain ⟨happ, hbelow⟩ := hmakes.below hD hlinear ht
          intro r hr
          have hwider := hwide args hmakes
          refine Inside.trans hD hlinear (h.inside_variant hD hlinear happ hwider hmeets
            (fun i f part found hspeaks hpart hfound => ?_) r hr) happ hbelow
          have hfield := hplain args i f hmakes hspeaks (List.getElem?_eq_some_iff.1 hpart).1
          have hmeetsPart := hmeets.part (List.mem_of_getElem? hpart)
          have hfitsPart := hparts i f part hspeaks hpart
          exact ⟨hfield, ih args i f part hmakes hspeaks hpart hfield hfitsPart hmeetsPart hfound⟩
  | extractor _ hwide _ ih =>
      cases hfits with
      | @extractor _ _ _ _ args hmakes hparts =>
          obtain ⟨happ, hbelow⟩ := hmakes.below hD hlinear ht
          obtain ⟨element, rfl⟩ := List.length_eq_one_iff.1
            (happ.admitted.length_args.trans h.arity_of_extractor)
          obtain ⟨r, results, rfl, hyields, hextractor⟩ := h.extractor
          rw [List.forall_mem_singleton]
          refine Inside.trans hD hlinear (inside_combineExtractor hD hlinear happ
            (hwide _ hmakes element (List.mem_singleton_self _)) (fun q hq => ?_)
            (hmeets _ (.elements hyields)) hextractor) happ hbelow
          obtain ⟨result, hresult, hq⟩ := List.mem_flatten.1 hq
          obtain ⟨part, hpart, hfound⟩ := exists_related_to hyields hresult
          exact ih [element] part hmakes hpart (happ.arg (List.mem_singleton_self element))
            (hparts part hpart) (hmeets.part hpart) hfound q hq

end Extractor

end CaseCover
