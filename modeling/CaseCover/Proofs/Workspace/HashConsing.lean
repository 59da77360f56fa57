import Mathlib.Logic.Relation
import CaseCover.Proofs.Source.NameTable
import CaseCover.Proofs.Ty.Table
import CaseCover.Workspace

/-!
Handles in place of types. Whatever a client declares, names, builds and asks, in any order,
two handles are equal just when the types they denote are the same tree, an entry comes after
its parts, its flags are those of the whole tree, and nothing that was stored changes
(`Workspace.Reachable.hash_consing`).
-/

namespace CaseCover

namespace Workspace

open Relation (ReflTransGen)

variable {w w' w'' : Workspace}

/-- One thing that a client does. -/
inductive Step (w : Workspace) : Workspace → Prop
  | useName (text : String) : Step w (w.useName text)
  /-- A union, an application, a parameter or any other type is put together. -/
  | build (t : Ty) : Step w (w.build t).2
  | literal (value : Literal) : Step w (w.literal value).2
  /-- A question is asked; it may substitute, join and instantiate types on the way. -/
  | answer {α : Type} (q : Query α) : Step w (w.answer q).2
  | declare (name : String) (params : List TypeParam) (kind : DataKind) :
      Step w (w.declare name params kind).2
  | defineFields (id : DataId) (fields : List Field) : Step w (w.defineFields id fields)
  | extend (child : DataId) (parent : Ty) : Step w (w.extend child parent)

/-- A client gets from one workspace to another. -/
abbrev Leads : Workspace → Workspace → Prop := ReflTransGen Step

/-- A workspace that a client can arrive at. -/
def Reachable (w : Workspace) : Prop := initial.Leads w

/-- The handles of a workspace stand for types. -/
structure HashConsed (w : Workspace) : Prop where
  /-- Every handle denotes a type. -/
  denoted : ∀ h < w.types.size, ∃ t, w.types.Denotes h t
  /-- Handles are equal when the types are the same tree: the texts of string literals and
  the bits of floats are compared. -/
  handle_eq_iff : ∀ h h' t t', w.types.Denotes h t → w.types.Denotes h' t' →
    (h = h' ↔ t = t')
  /-- String literals are the same when their texts have the same number. -/
  text_eq_iff : ∀ m n, m < w.names.size → n < w.names.size → ∀ h h',
    w.types.Denotes h (.lit (.str (w.names.lookup m))) →
    w.types.Denotes h' (.lit (.str (w.names.lookup n))) → (h = h' ↔ m = n)
  /-- The text of a string literal has a number once the literal is made. -/
  text_named : ∀ text, ∃ n < (w.literal (.str text)).2.names.size,
    (w.literal (.str text)).2.names.lookup n = text
  /-- What building a type gives is a handle that denotes it. -/
  built : ∀ t, (w.build t).2.types.Denotes (w.types.build t).1 t
  /-- A type is built by looking its entry up among the entries, and it is added at the end
  when it is not there. -/
  interned : ∀ t, ((w.types.build t).1, (w.build t).2.types.entries) =
    (w.types.buildParts t).2.intern (w.types.buildParts t).1
  /-- The handles in an entry are smaller than its own. -/
  parts_lt : ∀ h e, w.types.Stores h e → ∀ p ∈ e.parts, p < h
  /-- The built-in types have the first handles. -/
  prims : ∀ h p, Prim.all[h]? = some p → w.types.Denotes h (.prim p)
  /-- The flags kept with a handle are those found by walking through the whole type. -/
  flags : ∀ h t, w.types.Denotes h t → w.types.flagsAt h = t.flags

/-- What was stored in a workspace is stored in a later one, flags included. -/
structure Kept (w w' : Workspace) : Prop where
  types : w.types.Extends w'.types
  names : w.names.Extends w'.names

theorem Kept.refl (w : Workspace) : w.Kept w := ⟨.refl _, .refl _⟩

theorem Kept.trans (hw : w.Kept w') (hw' : w'.Kept w'') : w.Kept w'' :=
  ⟨hw.types.trans hw'.types, hw.names.trans hw'.names⟩

/-- The invariant of the two tables. -/
structure Consistent (w : Workspace) : Prop where
  types : w.types.Valid
  names : w.names.Distinct

@[simp] theorem names_build (w : Workspace) (t : Ty) : (w.build t).2.names = w.names := rfl

@[simp] theorem names_follow (w : Workspace) (u : Trail) : (w.follow u).names = w.names := by
  unfold follow
  induction u.toList generalizing w with
  | nil => rfl
  | cons t rest ih => rw [List.foldl_cons, ih, names_build]

theorem Consistent.useName (hw : w.Consistent) (text : String) :
    (w.useName text).Consistent ∧ w.Kept (w.useName text) :=
  ⟨⟨hw.types, hw.names.insert text⟩, ⟨.refl _, w.names.extends_insert text⟩⟩

theorem Consistent.build (hw : w.Consistent) (t : Ty) :
    (w.build t).2.Consistent ∧ w.Kept (w.build t).2 := by
  have hgrown := (TypeTable.builds hw.types t).grown
  rw [← types_build] at hgrown
  exact ⟨⟨hgrown.valid, hw.names⟩, ⟨hgrown.keeps, .refl _⟩⟩

theorem Consistent.follow (hw : w.Consistent) (u : Trail) :
    (w.follow u).Consistent ∧ w.Kept (w.follow u) := by
  obtain ⟨hkeeps, hvalid⟩ := TypeTable.follow_keeps hw.types u
  rw [← types_follow] at hkeeps hvalid
  have hnames := names_follow w u
  exact ⟨⟨hvalid, hnames ▸ hw.names⟩, ⟨hkeeps, hnames ▸ .refl _⟩⟩

/-- What one thing that a client does preserves. -/
theorem Step.preserves (hstep : w.Step w') (hw : w.Consistent) : w'.Consistent ∧ w.Kept w' := by
  cases hstep with
  | useName text => exact hw.useName text
  | build t => exact hw.build t
  | literal value =>
      cases value with
      | str text =>
          obtain ⟨hnamed, hkept⟩ := hw.useName text
          obtain ⟨hbuilt, hkept'⟩ := hnamed.build (.ofLiteral (.str text))
          exact ⟨hbuilt, hkept.trans hkept'⟩
      | int value => exact hw.build _
      | float bits => exact hw.build _
      | bool value => exact hw.build _
      | char value => exact hw.build _
      | unit => exact hw.build _
  | answer q => exact hw.follow q.trail
  | declare name params kind =>
      obtain ⟨hkeeps, hdistinct⟩ :=
        NameTable.insertAll_keeps hw.names (name :: params.map TypeParam.name)
      exact ⟨⟨hw.types, hdistinct⟩, ⟨.refl _, hkeeps⟩⟩
  | defineFields id fields =>
      obtain ⟨hkeeps, hdistinct⟩ := NameTable.insertAll_keeps hw.names (fields.map Field.name)
      exact ⟨⟨hw.types, hdistinct⟩, ⟨.refl _, hkeeps⟩⟩
  | extend child parent => exact ⟨⟨hw.types, hw.names⟩, ⟨.refl _, .refl _⟩⟩

/-- What everything that a client does preserves. -/
theorem Leads.preserves (hleads : w.Leads w') (hw : w.Consistent) :
    w'.Consistent ∧ w.Kept w' := by
  induction hleads with
  | refl => exact ⟨hw, .refl w⟩
  | tail _ hstep ih =>
      obtain ⟨hmiddle, hkept⟩ := ih
      obtain ⟨hlast, hkept'⟩ := hstep.preserves hmiddle
      exact ⟨hlast, hkept.trans hkept'⟩

/-! ### The workspace that a client starts with -/

theorem leads_follow (w : Workspace) (u : Trail) : w.Leads (w.follow u) := by
  unfold follow
  induction u.toList generalizing w with
  | nil => exact .refl
  | cons t rest ih => exact .head (.build t) (ih (w.build t).2)

theorem leads_declareTuple (w : Workspace) (name : String) (fields : List (String × String)) :
    w.Leads (w.declareTuple name fields).2 :=
  (ReflTransGen.single (.declare name _ _)).trans
    ((leads_follow _ _).tail (.defineFields _ _))

theorem leads_extendBy (w : Workspace) (child : DataId) (parent : Ty) :
    w.Leads (w.extendBy child parent) :=
  (ReflTransGen.single (.build parent)).tail (.extend child parent)

theorem leads_initial : Leads {} initial := by
  refine .tail ?_ (.declare "List" [⟨"A", .covariant⟩] .sequence)
  refine .trans ?_ (leads_declareTuple _ "Tuple2" [("_1", "A"), ("_2", "B")])
  refine .trans ?_ (leads_extendBy _ _ _)
  refine .trans ?_ (leads_declareTuple _ "Right" [("value", "R")])
  refine .trans ?_ (leads_extendBy _ _ _)
  refine .trans ?_ (leads_declareTuple _ "Left" [("value", "L")])
  refine .tail ?_ (.declare "Either" _ _)
  refine .trans ?_ (leads_extendBy _ _ _)
  refine .tail ?_ (.declare "None" [] .singleton)
  refine .trans ?_ (leads_extendBy _ _ _)
  refine .trans ?_ (leads_declareTuple _ "Some" [("value", "A")])
  exact .single (.declare "Option" _ _)

theorem Reachable.consistent (hw : w.Reachable) : w.Consistent ∧ Kept {} w :=
  Leads.preserves (leads_initial.trans hw)
    ⟨TypeTable.valid_initial, NameTable.distinct_initial⟩

/-- In every workspace that a client can arrive at, handles stand for
types, and whatever the client does next, what is stored stays as it is. -/
theorem Reachable.hash_consing (hw : w.Reachable) (hlater : w.Leads w') :
    w.HashConsed ∧ w.Kept w' := by
  obtain ⟨hconsistent, hkept⟩ := hw.consistent
  have hT := hconsistent.types
  refine ⟨?_, (hlater.preserves hconsistent).2⟩
  exact {
    denoted := hT.denoted
    handle_eq_iff := fun h h' t t' ht ht' => hT.handle_eq_iff ht ht'
    text_eq_iff := by
      intro m n hm hn h h' ht ht'
      rw [hT.handle_eq_iff ht ht', Ty.lit.injEq, Literal.str.injEq]
      exact hconsistent.names.lookup_eq_iff hm hn
    text_named := fun text => w.names.exists_lookup_insert text
    built := fun t => types_build w t ▸ (TypeTable.builds hT t).denotes
    interned := fun t => types_build w t ▸ TypeTable.build_eq_intern hT t
    parts_lt := hT.parts_lt
    prims := fun h p hp => (TypeTable.denotes_initial hp).mono hkept.types
    flags := hT.flags }

/-- The workspace of a client that has made one string literal. -/
def spelling : Workspace := (initial.literal (.str "a")).2

theorem hash_consing_spelling :
    spelling.Reachable ∧ spelling.Leads (spelling.build (.union .unit (.lit (.str "a")))).2 ∧
      spelling.HashConsed ∧ spelling.Kept (spelling.build (.union .unit (.lit (.str "a")))).2 := by
  have hw : spelling.Reachable := .single (.literal (.str "a"))
  have hlater : spelling.Leads (spelling.build (.union .unit (.lit (.str "a")))).2 :=
    .single (.build _)
  exact ⟨hw, hlater, hw.hash_consing hlater⟩

end Workspace

end CaseCover
