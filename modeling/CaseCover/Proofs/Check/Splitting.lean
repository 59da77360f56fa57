import CaseCover.Proofs.Check.Rows

/-!
The ways of making values into which a column is split leave no value of its type out
(`exists_ctor_of_split`), and from values of the types of the fields each of them makes a value
(`MadeBy.exists_value`).
-/

namespace CaseCover

namespace Checker

variable {C : Checker}

theorem kind_of_isProduct {d : DataType} (hd : d.isProduct = true) :
    ∃ fields, d.kind = .product fields := by
  unfold DataType.isProduct at hd
  split at hd
  · rename_i fields hkind
    exact ⟨fields, hkind⟩
  · exact nomatch hd

/-- The ways in which the values of a closed type without direct subtypes are made. -/
def leafCtors (D : Declarations) (heads : List Pattern) : Ty → Option (List Ctor)
  | .app d args =>
    match (D.get d).kind with
    | .abstractType _ => some []
    | .product _ => some [.product (.app d args)]
    | .singleton => some [.singleton (.app d args)]
    | .sequence => some (sequenceCtors heads)
  | .prim .never => some []
  | .prim .unit => some [.singleton (.prim .unit)]
  | .lit l => some [.singleton (.lit l)]
  | _ => none

/-- A type that is split is closed, and is split into its direct subtypes or, without
any, as its kind says. -/
theorem split_cases {ty : Ty} {heads : List Pattern} {ctors : List Ctor}
    (hsplit : (C.split ty heads).value? = some (some ctors)) :
    C.hierarchy.decls.isClosed ty = true ∧
      ∃ subtypes, C.hierarchy.decls.DirectSubtypes ty subtypes ∧
        (subtypes = [] → leafCtors C.hierarchy.decls heads ty = some ctors) ∧
        (subtypes ≠ [] → ctors = subtypes.map Ctor.subtype) := by
  unfold split at hsplit
  by_cases hclosed : C.hierarchy.decls.isClosed ty = true
  · rw [if_pos hclosed, Query.value?_bind_eq_some] at hsplit
    obtain ⟨subtypes, hsubtypes, hctors⟩ := hsplit
    refine ⟨hclosed, subtypes, Declarations.directSubtypes_of_value? hsubtypes, ?_, ?_⟩
    · rintro rfl
      rw [List.isEmpty_nil, if_pos rfl] at hctors
      cases ty with
      | app d args =>
          rw [leafCtors]
          cases hkind : (C.hierarchy.decls.get d).kind with
          | _ =>
              simp only [hkind] at hctors
              exact Option.some.inj hctors
      | prim p => cases p <;> exact Option.some.inj hctors
      | lit l => exact Option.some.inj hctors
      | union a b => exact Option.some.inj hctors
      | param o i => exact Option.some.inj hctors
    · intro hne
      have hempty : subtypes.isEmpty = false := by
        cases subtypes with
        | nil => exact absurd rfl hne
        | cons t ts => rfl
      rw [hempty, if_neg Bool.false_ne_true] at hctors
      exact (Option.some.inj (Option.some.inj hctors)).symm
  · rw [if_neg hclosed] at hsplit
    exact nomatch Option.some.inj hsplit

/-- Every length of a sequence belongs to a way in which sequences are split. -/
theorem exists_sequenceCtor (heads : List Pattern) (t : Ty) (elements : List Value) :
    ∃ ctor ∈ sequenceCtors heads, ∃ fields, ctor.Makes (.sequence t elements) fields := by
  unfold sequenceCtors
  split
  · exact ⟨_, List.mem_singleton_self _, _, .atLeast t (Nat.zero_le _)⟩
  · rename_i longest _
    by_cases hle : elements.length ≤ longest
    · have hmem : Ctor.exactly elements.length ∈ (List.range (longest + 1)).map Ctor.exactly :=
        List.mem_map_of_mem (List.mem_range.2 (by omega))
      exact ⟨_, List.mem_append_left _ hmem, elements, .exactly t elements⟩
    · have hlonger : longest + 1 ≤ elements.length := by omega
      exact ⟨_, List.mem_append_right _ (List.mem_singleton_self _), _, .atLeast t hlonger⟩

theorem subtypes_eq_nil_of_kind {D : Declarations} {d : DataId} {args subtypes : List Ty}
    (hsubtypes : D.DirectSubtypes (.app d args) subtypes)
    (hkind : (D.get d).isSealed = false) : subtypes = [] := by
  apply hsubtypes.eq_nil nofun nofun
  intro e args' he
  obtain ⟨rfl, -⟩ := Ty.app.inj he
  exact hkind

theorem leafCtors_of_single {D : Declarations} (heads : List Pattern) {t : Ty}
    {subtypes : List Ty} (hsubtypes : D.DirectSubtypes t subtypes)
    (ht : D.hasSingleValue t = true) :
    subtypes = [] ∧ leafCtors D heads t = some [.singleton t] := by
  cases t with
  | lit l => exact ⟨hsubtypes.eq_nil (by simp) (by simp) (by simp), rfl⟩
  | prim p =>
      obtain rfl : p = .unit := eq_of_beq ht
      exact ⟨hsubtypes.eq_nil (by simp) (by simp) (by simp), rfl⟩
  | app d args =>
      have hkind : (D.get d).kind = .singleton := eq_of_beq ht
      constructor
      · exact subtypes_eq_nil_of_kind hsubtypes (by simp [DataType.isSealed, hkind])
      · rw [leafCtors, hkind]
  | union a b => cases ht
  | param o i => cases ht

/-- The elements of a sequence have the types of its fields. -/
theorem types_of_elements {elements : List Value} {n : Nat} {t : Ty}
    (hlength : elements.length = n) (helements : ∀ v ∈ elements, v.ty = t) :
    elements.map Value.ty = List.replicate n t := by
  rw [List.eq_replicate_iff, List.length_map]
  refine ⟨hlength, fun u hu => ?_⟩
  rcases List.mem_map.1 hu with ⟨f, hf, rfl⟩
  exact helements f hf

/-- The fields from which a value is made are values. -/
theorem isValue_of_makes {D : Declarations} {ctor : Ctor} {v : Value} {fields : List Value}
    (hmade : ctor.Makes v fields) (hv : D.IsValue v) : ∀ f ∈ fields, D.IsValue f := by
  intro f hf
  cases hmade with
  | subtype =>
      cases hv with
      | viewed _ _ hinner => rwa [List.mem_singleton.1 hf]
  | product =>
      cases hv with
      | tuple _ _ hparts => exact hparts f hf
  | singleton => exact absurd hf List.not_mem_nil
  | exactly =>
      cases hv with
      | sequence _ _ helements => exact helements f hf
  | atLeast =>
      cases hv with
      | sequence _ _ helements => exact helements f (List.mem_of_mem_take hf)

/-- The fields from which a value is made are of the types of the fields. -/
theorem types_of_makes {ctor : Ctor} {v : Value} {fields : List Value} {types : List Ty}
    (hmade : ctor.Makes v fields) (hv : C.hierarchy.decls.IsValue v)
    (htypes : (C.fieldTypes v.ty ctor).value? = some types) :
    fields.map Value.ty = types := by
  cases hmade with
  | subtype => exact Option.some.inj htypes
  | singleton => exact Option.some.inj htypes
  | product =>
      cases hv with
      | tuple _ hfields => exact hfields.trans (Option.some.inj htypes)
  | exactly =>
      cases hv with
      | sequence _ helements =>
          obtain rfl := Option.some.inj htypes
          exact types_of_elements rfl helements
  | atLeast _ hn =>
      cases hv with
      | sequence _ helements =>
          obtain rfl := Option.some.inj htypes
          exact types_of_elements (List.length_take_of_le hn)
            fun u hu => helements u (List.mem_of_mem_take hu)

/-- Every value of a type that is split is made in one of the ways, from values of the
types of the fields. -/
theorem exists_ctor_of_split {ty : Ty} {heads : List Pattern} {ctors : List Ctor}
    (hsplit : (C.split ty heads).value? = some (some ctors)) {v : Value}
    (hv : C.hierarchy.decls.IsValue v) (hty : v.ty = ty) :
    ∃ ctor ∈ ctors, ∃ fields, ctor.Makes v fields ∧
      (∀ f ∈ fields, C.hierarchy.decls.IsValue f) ∧
      ∀ types, (C.fieldTypes ty ctor).value? = some types → fields.map Value.ty = types := by
  obtain ⟨hclosed, subtypes, hsubtypes, hleaf, hnode⟩ := split_cases hsplit
  subst hty
  have hmade : ∃ ctor ∈ ctors, ∃ fields, ctor.Makes v fields := by
    cases hv with
    | @viewed t found inner hfound hmem =>
        obtain rfl : subtypes = found := hsubtypes.unique hfound
        obtain rfl := hnode (List.ne_nil_of_mem hmem)
        exact ⟨.subtype inner.ty, List.mem_map_of_mem hmem, [inner], .subtype t inner⟩
    | @tuple d args parts hkind =>
        obtain ⟨fields, hproduct⟩ := kind_of_isProduct hkind
        have hctors := hleaf
          (subtypes_eq_nil_of_kind hsubtypes (by simp [DataType.isSealed, hproduct]))
        rw [Value.ty, leafCtors, hproduct] at hctors
        obtain rfl := Option.some.inj hctors
        exact ⟨_, List.mem_singleton_self _, parts, .product _ parts⟩
    | @sequence d args elements hkind =>
        have hsequence : (C.hierarchy.decls.get d).kind = .sequence := eq_of_beq hkind
        have hctors := hleaf
          (subtypes_eq_nil_of_kind hsubtypes (by simp [DataType.isSealed, hsequence]))
        rw [Value.ty, leafCtors, hsequence] at hctors
        obtain rfl := Option.some.inj hctors
        exact exists_sequenceCtor heads (.app d args) elements
    | @single t ht =>
        rcases leafCtors_of_single heads hsubtypes ht with ⟨hempty, hsingle⟩
        obtain rfl := Option.some.inj ((hleaf hempty).symm.trans hsingle)
        exact ⟨_, List.mem_singleton_self _, [], .singleton t⟩
    | @atom t ht => exact absurd hclosed (by simp [Value.ty, ht])
  obtain ⟨ctor, hctor, fields, hmade⟩ := hmade
  exact ⟨ctor, hctor, fields, hmade, isValue_of_makes hmade hv,
    fun types => types_of_makes hmade hv⟩

/-- A way in which the values of a type are made, and the types of the fields. -/
inductive MadeBy (D : Declarations) : Ty → Ctor → List Ty → Prop
  | subtype {t s : Ty} {subtypes : List Ty} (hsubtypes : D.DirectSubtypes t subtypes)
      (hs : s ∈ subtypes) : MadeBy D t (.subtype s) [s]
  | product {d : DataId} (args : List Ty) (hkind : (D.get d).isProduct = true) :
      MadeBy D (.app d args) (.product (.app d args))
        ((D.fieldsOf (.app d args)).value.map Field.ty)
  | singleton {t : Ty} (ht : D.hasSingleValue t = true) : MadeBy D t (.singleton t) []
  | exactly {d : DataId} (args : List Ty) (n : Nat) (hkind : (D.get d).isSequence = true) :
      MadeBy D (.app d args) (.exactly n) (List.replicate n (args.headD .any))
  | atLeast {d : DataId} (args : List Ty) (n : Nat) (hkind : (D.get d).isSequence = true) :
      MadeBy D (.app d args) (.atLeast n) (List.replicate n (args.headD .any))

theorem sequenceCtor_cases {ps : List Pattern} {ctor : Ctor}
    (hctor : ctor ∈ sequenceCtors ps) : ∃ n, ctor = .exactly n ∨ ctor = .atLeast n := by
  unfold sequenceCtors at hctor
  split at hctor
  · exact ⟨0, .inr (List.mem_singleton.1 hctor)⟩
  · rename_i longest _
    rcases List.mem_append.1 hctor with hctor | hctor
    · obtain ⟨n, -, rfl⟩ := List.mem_map.1 hctor
      exact ⟨n, .inl rfl⟩
    · exact ⟨longest + 1, .inr (List.mem_singleton.1 hctor)⟩

theorem madeBy_of_split {ty : Ty} {ps : List Pattern} {ctors : List Ctor}
    (hsplit : (C.split ty ps).value? = some (some ctors)) {ctor : Ctor} (hctor : ctor ∈ ctors)
    {types : List Ty} (htypes : (C.fieldTypes ty ctor).value? = some types) :
    MadeBy C.hierarchy.decls ty ctor types := by
  obtain ⟨-, subtypes, hsubtypes, hleaf, hnode⟩ := split_cases hsplit
  by_cases hempty : subtypes = []
  · have hctors := hleaf hempty
    unfold leafCtors at hctors
    split at hctors
    case h_1 d args =>
      split at hctors
      case h_1 =>
        obtain rfl := Option.some.inj hctors
        exact absurd hctor List.not_mem_nil
      case h_2 fields hkind =>
        obtain rfl := Option.some.inj hctors
        obtain rfl := List.mem_singleton.1 hctor
        obtain rfl := Option.some.inj htypes
        exact .product args (by simp [DataType.isProduct, hkind])
      case h_3 hkind =>
        obtain rfl := Option.some.inj hctors
        obtain rfl := List.mem_singleton.1 hctor
        obtain rfl := Option.some.inj htypes
        exact .singleton (by simp [Declarations.hasSingleValue, DataType.isSingleton, hkind])
      case h_4 hkind =>
        have hsequence : (C.hierarchy.decls.get d).isSequence = true := by
          simp [DataType.isSequence, hkind]
        obtain rfl := Option.some.inj hctors
        rcases sequenceCtor_cases hctor with ⟨n, rfl | rfl⟩
        · obtain rfl := Option.some.inj htypes
          exact .exactly args n hsequence
        · obtain rfl := Option.some.inj htypes
          exact .atLeast args n hsequence
    case h_2 =>
      obtain rfl := Option.some.inj hctors
      exact absurd hctor List.not_mem_nil
    case h_5 => cases hctors
    all_goals
      obtain rfl := Option.some.inj hctors
      obtain rfl := List.mem_singleton.1 hctor
      obtain rfl := Option.some.inj htypes
      exact .singleton rfl
  · rw [hnode hempty] at hctor
    obtain ⟨s, hs, rfl⟩ := List.mem_map.1 hctor
    obtain rfl := Option.some.inj htypes
    exact .subtype hsubtypes hs

theorem MadeBy.components {D : Declarations} {ty : Ty} {ctor : Ctor} {types : List Ty}
    (h : MadeBy D ty ctor types) : ∀ t ∈ types, D.Component ty t := by
  intro t ht
  cases h with
  | subtype hsubtypes hs =>
      rw [List.mem_singleton.1 ht]
      exact .subtype hsubtypes hs
  | product args hkind => exact .field hkind ht
  | singleton => exact absurd ht List.not_mem_nil
  | exactly args n hkind | atLeast args n hkind =>
      rw [List.eq_of_mem_replicate ht]
      exact .element hkind

/-- From values of the types of the fields a value is made. -/
theorem MadeBy.exists_value {D : Declarations} {ty : Ty} {ctor : Ctor} {types : List Ty}
    (h : MadeBy D ty ctor types) {fields : List Value} (hfields : ∀ f ∈ fields, D.IsValue f)
    (htypes : fields.map Value.ty = types) :
    ∃ v, D.IsValue v ∧ v.ty = ty ∧ ctor.Makes v fields := by
  cases h with
  | subtype hsubtypes hs =>
      obtain ⟨inner, rest, rfl, rfl, hrest⟩ := List.map_eq_cons_iff.1 htypes
      obtain rfl := List.map_eq_nil_iff.1 hrest
      exact ⟨_, .viewed hsubtypes hs (hfields inner List.mem_cons_self), rfl, .subtype ty inner⟩
  | product args hkind => exact ⟨_, .tuple hkind htypes hfields, rfl, .product _ fields⟩
  | singleton ht =>
      obtain rfl := List.map_eq_nil_iff.1 htypes
      exact ⟨_, .single ht, rfl, .singleton ty⟩
  | @exactly d args n hkind =>
      obtain ⟨hlength, hall⟩ := List.eq_replicate_iff.1 htypes
      have hvalue : D.IsValue (.sequence (.app d args) fields) :=
        .sequence hkind (fun f hf => hall _ (List.mem_map_of_mem hf)) hfields
      rw [List.length_map] at hlength
      exact ⟨_, hvalue, rfl, hlength ▸ .exactly _ fields⟩
  | @atLeast d args n hkind =>
      obtain ⟨hlength, hall⟩ := List.eq_replicate_iff.1 htypes
      have hvalue : D.IsValue (.sequence (.app d args) fields) :=
        .sequence hkind (fun f hf => hall _ (List.mem_map_of_mem hf)) hfields
      rw [List.length_map] at hlength
      have hmade := Ctor.Makes.atLeast (.app d args) (Nat.le_of_eq hlength.symm)
      rw [← hlength, List.take_length] at hmade
      exact ⟨_, hvalue, rfl, hlength ▸ hmade⟩

end Checker

end CaseCover
