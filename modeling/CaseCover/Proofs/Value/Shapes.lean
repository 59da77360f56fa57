import CaseCover.Proofs.Hierarchy.Children

/-!
The shapes of the values of a type. A type with direct subtypes has the values of those,
viewed through it; a product has tuples, a sequence finite lists, and a singleton, a
literal type or the unit type has one value. A type that is not closed has values of
which nothing is known. `never` and a sealed type without children have none.
-/

namespace CaseCover

/-- The shape of a value. Every shape knows the type that it is a value of. -/
inductive Value
  /-- A value of a direct subtype. -/
  | viewed (ty : Ty) (inner : Value)
  | tuple (ty : Ty) (parts : List Value)
  | sequence (ty : Ty) (elements : List Value)
  /-- The only value of a type. -/
  | single (ty : Ty)
  /-- A value of a type that is not closed. -/
  | atom (ty : Ty)

namespace Value

/-- The type that a shape is a value of. -/
def ty : Value → Ty
  | viewed t _ | tuple t _ | sequence t _ | single t | atom t => t

/-- The shapes at the types through which a value is viewed, its own first. -/
def views : Value → List Value
  | viewed t inner => viewed t inner :: inner.views
  | tuple t parts => [tuple t parts]
  | sequence t elements => [sequence t elements]
  | single t => [single t]
  | atom t => [atom t]

/-- The shape without the types through which it is viewed. -/
def core : Value → Value
  | viewed _ inner => inner.core
  | tuple t parts => tuple t parts
  | sequence t elements => sequence t elements
  | single t => single t
  | atom t => atom t

theorem self_mem_views (v : Value) : v ∈ v.views := by
  cases v <;> exact List.mem_cons_self

theorem mem_views_viewed {t : Ty} {inner u : Value} (hu : u ∈ inner.views) :
    u ∈ (viewed t inner).views :=
  List.mem_cons_of_mem _ hu

theorem views_of_mem {u v w : Value} (hu : u ∈ v.views) (hw : w ∈ u.views) :
    w ∈ v.views := by
  fun_induction views v with
  | case1 t inner ih =>
      rcases List.mem_cons.1 hu with rfl | hinner
      · exact hw
      · exact List.mem_cons_of_mem _ (ih hinner)
  | case2 t parts => rwa [List.mem_singleton.1 hu] at hw
  | case3 t elements => rwa [List.mem_singleton.1 hu] at hw
  | case4 t => rwa [List.mem_singleton.1 hu] at hw
  | case5 t => rwa [List.mem_singleton.1 hu] at hw

theorem core_of_mem_views {u v : Value} (hu : u ∈ v.views) : u.core = v.core := by
  fun_induction views v with
  | case1 t inner ih =>
      rcases List.mem_cons.1 hu with rfl | hinner
      · rfl
      · exact ih hinner
  | case2 t parts => rw [List.mem_singleton.1 hu]
  | case3 t elements => rw [List.mem_singleton.1 hu]
  | case4 t => rw [List.mem_singleton.1 hu]
  | case5 t => rw [List.mem_singleton.1 hu]

theorem core_mem_views (v : Value) : v.core ∈ v.views := by
  induction v using views.induct with
  | case1 t inner ih => exact List.mem_cons_of_mem _ ih
  | case2 | case3 | case4 | case5 => exact List.mem_cons_self

end Value

namespace Declarations

/-- A type with exactly one value. -/
def hasSingleValue (D : Declarations) : Ty → Bool
  | .lit _ => true
  | .prim p => p == .unit
  | .app d _ => (D.get d).isSingleton
  | .union _ _ | .param _ _ => false

/-- The shapes that the declarations give to values. -/
inductive IsValue (D : Declarations) : Value → Prop
  | viewed {t : Ty} {subtypes : List Ty} {inner : Value}
      (hsubtypes : D.DirectSubtypes t subtypes) (hmem : inner.ty ∈ subtypes)
      (hinner : D.IsValue inner) : D.IsValue (.viewed t inner)
  | tuple {d : DataId} {args : List Ty} {parts : List Value}
      (hkind : (D.get d).isProduct = true)
      (htypes : parts.map Value.ty = (D.fieldsOf (.app d args)).value.map Field.ty)
      (hparts : ∀ v ∈ parts, D.IsValue v) : D.IsValue (.tuple (.app d args) parts)
  | sequence {d : DataId} {args : List Ty} {elements : List Value}
      (hkind : (D.get d).isSequence = true)
      (htypes : ∀ v ∈ elements, v.ty = args.headD .any)
      (helements : ∀ v ∈ elements, D.IsValue v) :
      D.IsValue (.sequence (.app d args) elements)
  | single {t : Ty} (ht : D.hasSingleValue t = true) : D.IsValue (.single t)
  | atom {t : Ty} (ht : D.isClosed t = false) : D.IsValue (.atom t)

section Inversion

variable {D : Declarations}

/-- What a value is viewed through is a value, and of no union. -/
theorem IsValue.inner {outer : Ty} {inner : Value} (hv : D.IsValue (.viewed outer inner)) :
    D.IsValue inner ∧ ∀ a b, inner.ty ≠ .union a b := by
  cases hv with
  | viewed hsubtypes hmem hinner => exact ⟨hinner, directSubtype_ne_union hsubtypes hmem⟩

theorem eq_single_of_lit {v : Value} (hv : D.IsValue v) {l : Literal} (hty : v.ty = .lit l) :
    v = .single (.lit l) := by
  cases hv with
  | viewed hsubtypes hmem =>
      subst hty
      rw [hsubtypes.eq_nil (by simp) (by simp) (by simp)] at hmem
      exact absurd hmem List.not_mem_nil
  | tuple => cases hty
  | sequence => cases hty
  | single => exact congrArg Value.single hty
  | atom ht =>
      subst hty
      cases ht

/-- A value that is viewed through a type other than a union is a truth value or one of an
application. -/
theorem IsValue.viewed_cases {t : Ty} {inner : Value} (hv : D.IsValue (.viewed t inner))
    (hunion : ∀ a b, t ≠ .union a b) :
    (∃ b, t = .prim .bool ∧ inner = .single (.lit (.bool b))) ∨ ∃ d args, t = .app d args := by
  cases hv with
  | viewed hsubtypes hmem hinner =>
      rcases hsubtypes.cases (List.ne_nil_of_mem hmem) with rfl | ⟨a, b, rfl⟩ | ⟨d, args, rfl, -⟩
      · obtain ⟨b, hb⟩ := bool_of_directSubtype hsubtypes hmem
        exact .inl ⟨b, rfl, eq_single_of_lit hinner hb⟩
      · exact absurd rfl (hunion a b)
      · exact .inr ⟨d, args, rfl⟩

theorem kind_of_not_closed {d : DataId} {args : List Ty}
    (h : D.isClosed (.app d args) = false) : (D.get d).kind = .abstractType false := by
  simpa [isClosed] using h

/-- Nothing is known of a value of a type that is not closed. -/
theorem eq_atom_of_not_closed {v : Value} (hv : D.IsValue v)
    (hclosed : D.isClosed v.ty = false) : v = .atom v.ty := by
  cases hv with
  | viewed hsubtypes hmem =>
      rcases hsubtypes.cases (List.ne_nil_of_mem hmem) with rfl | ⟨a, b, rfl⟩ | ⟨d, args, rfl, hd⟩
      · cases hclosed
      · cases hclosed
      · simp [DataType.isSealed, kind_of_not_closed hclosed] at hd
  | tuple hkind => simp [DataType.isProduct, kind_of_not_closed hclosed] at hkind
  | sequence hkind => simp [DataType.isSequence, kind_of_not_closed hclosed] at hkind
  | @single t ht =>
      cases t with
      | app d args =>
          simp [hasSingleValue, DataType.isSingleton, kind_of_not_closed hclosed] at ht
      | prim p =>
          obtain rfl : p = .unit := eq_of_beq ht
          cases hclosed
      | lit l => cases hclosed
      | union a b => cases ht
      | param o i => cases ht
  | atom => rfl

/-- A value of a type that has direct subtypes is a value of one of them. -/
theorem eq_viewed {v : Value} (hv : D.IsValue v) {t : Ty} {subtypes : List Ty}
    (hsubtypes : D.DirectSubtypes t subtypes) (hne : subtypes ≠ []) (hty : v.ty = t) :
    ∃ inner, v = .viewed t inner ∧ D.IsValue inner ∧ inner.ty ∈ subtypes := by
  subst hty
  have hsealed : ∀ d args, v.ty = .app d args → (D.get d).kind = .abstractType true := by
    intro d args h
    rw [h] at hsubtypes
    rcases hsubtypes.cases hne with hbool | ⟨a, b, hunion⟩ | ⟨e, es, happ, he⟩
    · cases hbool
    · cases hunion
    · obtain ⟨rfl, -⟩ := Ty.app.inj happ
      exact eq_of_beq he
  cases hv with
  | viewed hfound hmem hinner => exact ⟨_, rfl, hinner, hsubtypes.unique hfound ▸ hmem⟩
  | tuple hkind => simp [DataType.isProduct, hsealed _ _ rfl] at hkind
  | sequence hkind => simp [DataType.isSequence, hsealed _ _ rfl] at hkind
  | @single t ht =>
      rcases hsubtypes.cases hne with rfl | ⟨a, b, rfl⟩ | ⟨d, args, rfl, -⟩
      · cases ht
      · cases ht
      · simp [hasSingleValue, DataType.isSingleton, hsealed _ _ rfl] at ht
  | @atom t ht =>
      rcases hsubtypes.cases hne with rfl | ⟨a, b, rfl⟩ | ⟨d, args, rfl, -⟩
      · cases ht
      · cases ht
      · simp [isClosed, hsealed _ _ rfl] at ht

end Inversion

/-- The types of the parts from which the values of a type are made. -/
inductive Component (D : Declarations) : Ty → Ty → Prop
  | subtype {t s : Ty} {subtypes : List Ty} (hsubtypes : D.DirectSubtypes t subtypes)
      (hs : s ∈ subtypes) : D.Component t s
  | field {d : DataId} {args : List Ty} {s : Ty} (hkind : (D.get d).isProduct = true)
      (hs : s ∈ (D.fieldsOf (.app d args)).value.map Field.ty) : D.Component (.app d args) s
  | element {d : DataId} {args : List Ty} (hkind : (D.get d).isSequence = true) :
      D.Component (.app d args) (args.headD .any)

def HasValue (D : Declarations) (t : Ty) : Prop := ∃ v, D.IsValue v ∧ v.ty = t

/-- A type has a value, and so have the types of all parts and of their parts. -/
def Filled (D : Declarations) (t : Ty) : Prop :=
  ∀ s, Relation.ReflTransGen D.Component t s → D.HasValue s

theorem Filled.hasValue {D : Declarations} {t : Ty} (h : D.Filled t) : D.HasValue t :=
  h t .refl

theorem Filled.component {D : Declarations} {t s : Ty} (h : D.Filled t)
    (hs : D.Component t s) : D.Filled s :=
  fun _ hu => h _ (.head hs hu)

end Declarations

end CaseCover
