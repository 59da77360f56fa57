import CaseCover.Proofs.Pattern.Alternatives
import CaseCover.Proofs.Pattern.Occurrences
import CaseCover.Proofs.Pattern.Witnesses

/-!
Types recovered by deconstruction. When each field of a product is ascribed the type that it has in
an application of the product, every occurrence of a parameter says the same about it, namely
its argument. So the deconstruction has the arguments of all parameters that a field shows
outside unions, and leaves the others open (`extract_ascribed_fields`).
-/

namespace CaseCover

namespace Declarations

variable {D : Declarations} {d : DataId}

/-- Some field of a product has a parameter of the product in its type, outside unions. -/
def Shows (D : Declarations) (d : DataId) (param : Nat) : Prop :=
  ∃ f ∈ (D.get d).fields, ∃ path, f.ty.ParamAt d param path

theorem shows_iff {param : Nat} :
    D.Shows d param ↔ param ∈ (D.alignment d).flatten.map Occurrence.param := by
  rw [List.mem_map]
  constructor
  · rintro ⟨f, hf, path, hat⟩
    obtain ⟨field, hfield⟩ := List.mem_iff_getElem?.1 hf
    exact ⟨⟨field, param, path⟩, mem_alignment_iff.2 ⟨f, hfield, hat⟩, rfl⟩
  · rintro ⟨o, ho, rfl⟩
    obtain ⟨f, hf, hat⟩ := mem_alignment_iff.1 ho
    exact ⟨f, List.mem_of_getElem? hf, o.path, hat⟩

instance (param : Nat) : Decidable (D.Shows d param) := decidable_of_iff _ shows_iff.symm

/-- The arguments for the parameters that some field shows; the others are left open. -/
def shown (D : Declarations) (d : DataId) (args : List Ty) : List Ty :=
  args.mapIdx fun param a => if D.Shows d param then a else .noType

end Declarations

namespace Extractor

open Extraction (answer_bind_eq_ok)

variable {E : Extractor}

/-- What is known about the parameters when `said` were spoken of, about each always the same. -/
def bindingsAfter (value : Nat → Ty) (arity : Nat) (said : List Nat) : List (Option Ty) :=
  (List.range arity).map fun param => if param ∈ said then some (value param) else none

theorem bindingsAfter_getElem? (value : Nat → Ty) (arity : Nat) (said : List Nat) (param : Nat) :
    (bindingsAfter value arity said)[param]? =
      if param < arity then some (if param ∈ said then some (value param) else none) else none := by
  by_cases h : param < arity
  · simp [bindingsAfter, h]
  · simp [bindingsAfter, h]

theorem bindingsAfter_set (value : Nat → Ty) (arity : Nat) (said : List Nat) (param : Nat) :
    (bindingsAfter value arity said).set param (some (value param)) =
      bindingsAfter value arity (param :: said) := by
  apply List.ext_getElem?
  intro i
  rw [List.getElem?_set, bindingsAfter_getElem?, bindingsAfter_getElem?]
  by_cases hi : param = i
  · subst hi
    simp [bindingsAfter]
  · simp [hi, Ne.symm hi]

/-- One more word about a parameter, agreeing with those before. -/
theorem bindAligned_bindingsAfter (hlimit : 0 < E.hierarchy.limit) (value : Nat → Ty)
    (arity : Nat) (said : List Nat) (param : Nat) :
    (E.bindAligned (bindingsAfter value arity said) (param, value param)).value? =
      some (bindingsAfter value arity (param :: said)) := by
  have hget := bindingsAfter_getElem? value arity said param
  rw [← bindingsAfter_set]
  unfold bindAligned
  by_cases hparam : param < arity
  · by_cases hsaid : param ∈ said
    · simp [hget, hparam, hsaid, value?_lub_self hlimit]
    · simp [hget, hparam, hsaid]
  · have hlength : (bindingsAfter value arity said).length ≤ param := by
      simpa [bindingsAfter] using hparam
    simp [hget, hparam, List.set_eq_of_length_le hlength]

/-- What is said about one parameter after another is known in the end. The induction is on what is
still to be said. -/
theorem fold_bindAligned (hlimit : 0 < E.hierarchy.limit) (value : Nat → Ty) (arity : Nat)
    (said later : List Nat) :
    (Query.fold E.bindAligned (bindingsAfter value arity said)
        (later.map fun param => (param, value param))).value? =
      some (bindingsAfter value arity (later.reverse ++ said)) := by
  induction later generalizing said with
  | nil => rfl
  | cons param later ih =>
      rw [List.map_cons, Query.fold, Query.value?_bind, bindAligned_bindingsAfter hlimit,
        Option.bind_some, ih, List.reverse_cons, List.append_assoc, List.singleton_append]

/-- When always the same is said about a parameter, that is its argument. -/
theorem applyAligned_of_agreeing (hlimit : 0 < E.hierarchy.limit) (d : DataId)
    (value : Nat → Ty) (said : List Nat) :
    (E.applyAligned d (said.map fun param => (param, value param))).value? =
      some (.app d ((List.range (E.hierarchy.decls.get d).arity).map fun param =>
        if param ∈ said then value param else .noType)) := by
  have hstart : List.replicate (E.hierarchy.decls.get d).arity none =
      bindingsAfter value (E.hierarchy.decls.get d).arity [] := by
    simp [bindingsAfter, List.map_const']
  unfold applyAligned
  dsimp only
  rw [hstart, Query.value?_bind, fold_bindAligned hlimit, Option.bind_some, Query.value?_build]
  simp only [bindingsAfter, List.map_map, List.append_nil, List.mem_reverse]
  congr 2
  apply List.map_congr_left
  intro param _
  by_cases h : param ∈ said
  · simp [h]
  · simp [h]

/-- The types of the fields of an application of a product. -/
def instances (E : Extractor) (d : DataId) (args : List Ty) : List Ty :=
  (E.hierarchy.decls.fieldsOf (.app d args)).value.map Field.ty

/-- Each occurrence of a parameter in the fields of an application says what its argument is. -/
theorem alignFields_instances (d : DataId) (args : List Ty) :
    (E.alignFields d (E.hierarchy.decls.alignment d) (E.instances d args)).value? =
      some ((E.hierarchy.decls.alignment d).flatten.map fun o =>
        (o.param, args[o.param]?.getD .any)) := by
  unfold alignFields
  apply Query.value?_filterMap_of_forall
  intro o ho
  obtain ⟨f, hf, hat⟩ := Declarations.mem_alignment_iff.1 ho
  have hinstance : (E.instances d args)[o.field]? = some (f.ty.substitute d args) := by
    simp [instances, Declarations.fieldsOf, hf]
  simp [hf, hinstance, E.hierarchy.decls.project_substitute args hat]

/-- The arguments that are found are those of the parameters that the fields show. -/
theorem applyAligned_instances (hlimit : 0 < E.hierarchy.limit) {d : DataId} {args : List Ty}
    (hargs : args.length = (E.hierarchy.decls.get d).arity) :
    (E.applyAligned d ((E.hierarchy.decls.alignment d).flatten.map fun o =>
      (o.param, args[o.param]?.getD .any))).value? =
        some (.app d (E.hierarchy.decls.shown d args)) := by
  have hsaid := applyAligned_of_agreeing hlimit d (fun param => args[param]?.getD .any)
    ((E.hierarchy.decls.alignment d).flatten.map Occurrence.param)
  rw [List.map_map] at hsaid
  refine hsaid.trans ?_
  rw [← hargs, Declarations.shown]
  congr 2
  apply List.ext_getElem (by simp)
  intro i hi hi'
  have hlt : i < args.length := by simpa using hi
  simp only [List.getElem_map, List.getElem_range, List.getElem_mapIdx, Declarations.shows_iff,
    List.getElem?_eq_getElem hlt, Option.getD_some]

/-- There is one way to take one element of each list when none has more. -/
theorem choices_singletons {α : Type} (as : List α) : choices (as.map fun a => [a]) = [as] := by
  induction as with
  | nil => rfl
  | cons a as ih => simp [choices, ih]

theorem choices?_singletons (E : Extractor) (types : List Ty) :
    E.choices? (types.map fun t => [t]) = some [types] := by
  have hcount : choiceCount (types.map fun t => [t]) = 1 := by
    rw [← length_choices, choices_singletons, List.length_singleton]
  rw [choices?, hcount, if_pos (Nat.le_max_left ..), choices_singletons]

/-- The pattern type of a product whose fields are ascribed the types that they have in an
application of it. -/
theorem combineProduct_instances (hlimit : 0 < E.hierarchy.limit) {d : DataId} {args : List Ty}
    (hargs : args.length = (E.hierarchy.decls.get d).arity) :
    (E.combineProduct d (E.hierarchy.decls.alignment d)
        ((E.instances d args).map fun t => [.ascription t])).value? =
      some ⟨.app d (E.hierarchy.decls.shown d (args.map Ty.widen)),
        [.app d (E.hierarchy.decls.shown d args)]⟩ := by
  have htypes : (Query.each (fun r => E.hierarchy.lubAll (r.map PatternType.ty))
      ((E.instances d args).map fun t => [.ascription t])).value? = some (E.instances d args) := by
    rw [Query.each_map, Query.value?_each_of_forall (g := id) fun t _ => rfl, List.map_id]
  have hwidened : (((E.hierarchy.decls.alignment d).flatten.map fun o =>
      (o.param, args[o.param]?.getD .any)).map fun a => (a.1, a.2.widen)) =
        (E.hierarchy.decls.alignment d).flatten.map fun o =>
          (o.param, (args.map Ty.widen)[o.param]?.getD .any) := by
    rw [List.map_map]
    apply List.map_congr_left
    intro o _
    cases hi : args[o.param]? <;> simp [hi, Ty.widen]
  have hproofs : ((E.instances d args).map fun t => [PatternType.ascription t]).map proofs =
      (E.instances d args).map fun t => [t] := by
    rw [List.map_map]
    rfl
  have hlength : (args.map Ty.widen).length = (E.hierarchy.decls.get d).arity :=
    (List.length_map _).trans hargs
  have hty := applyAligned_instances hlimit hlength
  unfold combineProduct
  simp only [Query.value?_bind, htypes, Option.bind_some, alignFields_instances, hwidened, hty,
    hproofs, choices?_singletons, Query.each, applyAligned_instances hlimit hargs,
    Query.value?_pure]
  rfl

/-- Parts that ascribe types and nothing else are evaluated to these ascriptions. -/
theorem evaluateAll_ascriptions {parts : List Pattern} {types : List Ty}
    (hparts : List.Forall₂ (fun p t => ∃ n m, p = .typed n (.wildcard m) t) parts types)
    (fields : FieldCache) :
    (E.evaluateAll parts).answer fields =
      some (.ok (types.map fun t => [.ascription t]), fields) := by
  induction hparts with
  | nil => rfl
  | cons hpart _ ih =>
      obtain ⟨n, m, rfl⟩ := hpart
      exact evaluateAll_cons_eq_ok.2 ⟨_, fields, _, rfl, ih, rfl⟩

/-- Deconstructing a product, with each field ascribed the type that it has in an application of
the product, recovers the arguments of the parameters that the fields show outside unions: as
they are in the only witness, and with literals widened in the type. -/
theorem extract_ascribed_fields (hlimit : 0 < E.hierarchy.limit) {d : DataId}
    {fields : List Field} (hkind : (E.hierarchy.decls.get d).kind = .product fields)
    {args : List Ty} (hargs : args.length = (E.hierarchy.decls.get d).arity)
    {parts : List Pattern}
    (hparts : List.Forall₂ (fun p f => ∃ n m, p = .typed n (.wildcard m) f.ty) parts
      (E.hierarchy.decls.fieldsOf (.app d args)).value) (n : PatternNode) :
    (E.extract (.variant n d parts)).answer {} =
      some (.ok [⟨.app d (E.hierarchy.decls.shown d (args.map Ty.widen)),
          [.app d (E.hierarchy.decls.shown d args)]⟩],
        (FieldCache.resolve {} E.hierarchy.decls d).2) := by
  have hascribed : List.Forall₂ (fun p t => ∃ n m, p = .typed n (.wildcard m) t) parts
      (E.instances d args) := List.forall₂_map_right_iff.2 hparts
  have hlength : fields.length = (E.instances d args).length := by
    simp [instances, Declarations.fieldsOf, DataType.fields, hkind]
  have hnoRest : ∀ p ∈ parts, p.isRest = false := by
    intro p hp
    obtain ⟨t, -, m, k, rfl⟩ := exists_related hascribed hp
    rfl
  have hcheck : (E.checkRest (.variant n d parts)).answer {} = some (.ok (), {}) := by
    have hnone : misplacedRest? false parts = none := misplacedRest?_false_eq_none_iff.2 hnoRest
    simp [checkRest_eq, restMayClose, Pattern.parts, hnone]
  have hcombined := (answer_combineVariant_product hkind
    (hlength.trans (List.length_map _).symm) n.span {}).trans
      (congrArg _ (combineProduct_instances hlimit hargs))
  have hfound := evaluateAll_ascriptions (E := E) hascribed {}
  rw [extract_eq_ok_iff, evaluate, answer_bind_eq_ok]
  refine ⟨rfl, (), {}, hcheck, answer_bind_eq_ok.2 ⟨_, {}, hfound, ?_⟩⟩
  exact answer_bind_eq_ok.2 ⟨_, _, hcombined, rfl⟩

/-- An extractor that lists no more than one witness, for a product of two parameters: the first
stands for one field and occurs in the type of another, the second occurs in a union only. -/
def nesting : Extractor :=
  let (d, D) := Workspace.initial.decls.declare "P" [⟨"A", .covariant⟩, ⟨"B", .covariant⟩]
    (.product [])
  ⟨⟨D.defineFields d
    [⟨"first", .app Workspace.known.option [.app Workspace.known.list [.param d 0]]⟩,
    ⟨"second", .param d 0⟩, ⟨"third", .union (.prim .int) (.param d 1)⟩], 1⟩, 0⟩

theorem extract_ascribed_fields_nesting :
    (nesting.hierarchy.decls.get ⟨8⟩).isProduct = true ∧
      (nesting.extract (.variant default ⟨8⟩
        [.typed default (.wildcard default) (.app ⟨0⟩ [.app ⟨7⟩ [.lit (.int 1)]]),
          .typed default (.wildcard default) (.lit (.int 1)),
          .typed default (.wildcard default) (.union (.prim .int) (.prim .str))])).answer {} =
        some (.ok [⟨.app ⟨8⟩ [.prim .int, .noType], [.app ⟨8⟩ [.lit (.int 1), .noType]]⟩],
          (FieldCache.resolve {} nesting.hierarchy.decls ⟨8⟩).2) := by
  have hshown : nesting.hierarchy.decls.shown ⟨8⟩ [.lit (.int 1), .prim .str] =
      [.lit (.int 1), .noType] := by decide
  have hwidened : nesting.hierarchy.decls.shown ⟨8⟩
      ([.lit (.int 1), .prim .str].map Ty.widen) = [.prim .int, .noType] := by decide
  have hlimit : 0 < nesting.hierarchy.limit := by decide
  have hkind : (nesting.hierarchy.decls.get ⟨8⟩).kind =
      .product (nesting.hierarchy.decls.get ⟨8⟩).fields := by decide
  have hargs : [Ty.lit (.int 1), .prim .str].length = (nesting.hierarchy.decls.get ⟨8⟩).arity := by
    decide
  have hextracted := extract_ascribed_fields hlimit hkind hargs
    (.cons ⟨default, default, rfl⟩ (.cons ⟨default, default, rfl⟩
      (.cons ⟨default, default, rfl⟩ .nil))) default
  rw [hshown, hwidened] at hextracted
  exact ⟨by decide, hextracted⟩

end Extractor

end CaseCover
