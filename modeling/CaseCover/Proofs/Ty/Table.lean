import Mathlib.Data.List.Forall2
import Mathlib.Data.List.Induction
import CaseCover.Proofs.Ty.Flags
import CaseCover.Ty.Table

/-!
The table of types and the trees in it. A handle denotes the tree that is read off the
entries from it downwards (`TypeTable.Denotes`). In a valid table every handle denotes one
tree and every tree has at most one handle, so handles can be compared in place of trees, and
the flags of an entry are what walking through the tree would find. Building a type keeps
all this and what was there before (`TypeTable.builds`), and although types are looked
up by their trees, it does what looking up the entry by its own data would do
(`TypeTable.build_eq_intern`).
-/

namespace CaseCover

namespace Ty

theorem sizeOf_left_lt (a b : Ty) : sizeOf a < sizeOf (Ty.union a b) := by
  rw [Ty.union.sizeOf_spec]
  omega

theorem sizeOf_right_lt (a b : Ty) : sizeOf b < sizeOf (Ty.union a b) := by
  rw [Ty.union.sizeOf_spec]
  omega

theorem sizeOf_args_lt (adt : DataId) (args : List Ty) :
    sizeOf args < sizeOf (Ty.app adt args) := by
  rw [Ty.app.sizeOf_spec]
  omega

theorem sizeOf_arg_lt (adt : DataId) {args : List Ty} {a : Ty} (ha : a ∈ args) :
    sizeOf a < sizeOf (Ty.app adt args) :=
  Nat.lt_trans (List.sizeOf_lt_of_mem ha) (sizeOf_args_lt adt args)

end Ty

/-- An entry describes a type when they have the same root and the handles in the entry stand
for the parts of the type. -/
inductive TypeEntry.Describes (stands : Handle → Ty → Prop) : TypeEntry → Ty → Prop
  | prim (p : Prim) : Describes stands (.prim p) (.prim p)
  | lit (v : Literal) : Describes stands (.lit v) (.lit v)
  | union {l r : Handle} {a b : Ty} (hleft : stands l a) (hright : stands r b) :
      Describes stands (.union l r) (.union a b)
  | app {adt : DataId} {handles : List Handle} {args : List Ty}
      (hargs : List.Forall₂ stands handles args) :
      Describes stands (.app adt handles) (.app adt args)
  | param (o : DataId) (i : Nat) : Describes stands (.param o i) (.param o i)

namespace TypeEntry.Describes

variable {R S : Handle → Ty → Prop} {e : TypeEntry} {t u : Ty}

theorem imp (he : e.Describes R t)
    (hRS : ∀ a : Ty, sizeOf a < sizeOf t → ∀ h, R h a → S h a) : e.Describes S t := by
  cases he with
  | prim p => exact .prim p
  | lit v => exact .lit v
  | @union l r a b hleft hright =>
      exact .union (hRS a (Ty.sizeOf_left_lt a b) l hleft)
        (hRS b (Ty.sizeOf_right_lt a b) r hright)
  | @app adt handles args hargs =>
      refine .app ?_
      have hsmall : ∀ a ∈ args, ∀ h, R h a → S h a :=
        fun a ha => hRS a (Ty.sizeOf_arg_lt adt ha)
      clear hRS
      induction hargs with
      | nil => exact .nil
      | cons h _ ih =>
          exact .cons (hsmall _ List.mem_cons_self _ h)
            (ih fun a ha => hsmall a (List.mem_cons_of_mem _ ha))
  | param o i => exact .param o i

/-- An entry describes one type when its handles stand for one type each. -/
theorem unique (ht : e.Describes R t) (hu : e.Describes R u)
    (hR : ∀ a : Ty, sizeOf a < sizeOf t → ∀ h b, R h a → R h b → a = b) : t = u := by
  cases ht with
  | prim p => cases hu; rfl
  | lit v => cases hu; rfl
  | @union l r a b hleft hright =>
      cases hu with
      | union hleft' hright' =>
          rw [hR a (Ty.sizeOf_left_lt a b) l _ hleft hleft',
            hR b (Ty.sizeOf_right_lt a b) r _ hright hright']
  | @app adt handles args hargs =>
      cases hu with
      | @app _ _ args' hargs' =>
          have hsmall : ∀ a ∈ args, ∀ h b, R h a → R h b → a = b :=
            fun a ha => hR a (Ty.sizeOf_arg_lt adt ha)
          clear hR
          have hsame : args = args' := by
            induction hargs generalizing args' with
            | nil => cases hargs'; rfl
            | cons h _ ih =>
                cases hargs' with
                | cons h' hrest' =>
                    rw [hsmall _ List.mem_cons_self _ _ h h',
                      ih hrest' fun a ha => hsmall a (List.mem_cons_of_mem _ ha)]
          rw [hsame]
  | param o i => cases hu; rfl

theorem parts_lt {n : Nat} (he : e.Describes R t) (hR : ∀ h a, R h a → h < n) :
    ∀ p ∈ e.parts, p < n := by
  cases he with
  | prim p => exact fun _ hp => absurd hp List.not_mem_nil
  | lit v => exact fun _ hp => absurd hp List.not_mem_nil
  | @union l r a b hleft hright =>
      intro p hp
      rcases List.mem_pair.1 hp with rfl | rfl
      · exact hR _ a hleft
      · exact hR _ b hright
  | app hargs =>
      change ∀ p ∈ _, p < n
      induction hargs with
      | nil => exact fun _ hp => absurd hp List.not_mem_nil
      | cons h _ ih => exact List.forall_mem_cons.2 ⟨hR _ _ h, ih⟩
  | param o i => exact fun _ hp => absurd hp List.not_mem_nil

/-- The properties of a type are found from those of its parts. -/
theorem flags {flagsAt : Handle → TypeFlags} (he : e.Describes R t)
    (hR : ∀ h a, R h a → flagsAt h = a.flags) :
    e.tag.flags.withParts (e.parts.map flagsAt) = t.flags := by
  cases he with
  | prim p => exact (Ty.flags_prim p).symm
  | lit v => exact (Ty.flags_lit v).symm
  | @union l r a b hleft hright =>
      rw [Ty.flags_union, ← hR l a hleft, ← hR r b hright]
      rfl
  | @app adt handles args hargs =>
      have hmap : List.Forall₂ Eq (handles.map flagsAt) (args.map Ty.flags) := by
        rw [List.forall₂_map_left_iff, List.forall₂_map_right_iff]
        exact hargs.imp hR
      rw [List.forall₂_eq_eq_eq] at hmap
      rw [Ty.flags_app, ← hmap]
      rfl
  | param o i => exact (Ty.flags_param o i).symm

end TypeEntry.Describes

namespace TypeTable

variable {T T' T'' : TypeTable} {h h' : Handle} {e : TypeEntry} {t u : Ty}

/-- An entry is the one of a handle. -/
def Stores (T : TypeTable) (h : Handle) (e : TypeEntry) : Prop := entry? T h = some e

/-- The tree that is read off the entries from a handle downwards. -/
inductive Denotes (T : TypeTable) : Handle → Ty → Prop
  | intro {h : Handle} {e : TypeEntry} {t : Ty} (hentry : T.Stores h e)
      (hdescribes : e.Describes (Denotes T) t) : Denotes T h t

/-- What is stored under a handle stays, flags included. -/
def Extends (T T' : TypeTable) : Prop :=
  ∀ ⦃h : Handle⦄ ⦃x : TypeEntry × TypeFlags⦄,
    T.entries[h]? = some x → T'.entries[h]? = some x

theorem stores_iff : T.Stores h e ↔ ∃ flags, T.entries[h]? = some (e, flags) := by
  simp [Stores, entry?]

theorem exists_stores (hh : h < T.size) : ∃ e, T.Stores h e :=
  ⟨_, stores_iff.2 ⟨_, Array.getElem?_eq_getElem hh⟩⟩

namespace Stores

theorem lt_size (he : T.Stores h e) : h < T.size := by
  obtain ⟨flags, hat⟩ := stores_iff.1 he
  exact (Array.getElem?_eq_some_iff.1 hat).1

theorem unique {e' : TypeEntry} (he : T.Stores h e) (he' : T.Stores h e') : e = e' :=
  Option.some.inj (he.symm.trans he')

end Stores

namespace Extends

theorem refl (T : TypeTable) : T.Extends T := fun _ _ hx => hx

theorem trans (hT : T.Extends T') (hT' : T'.Extends T'') : T.Extends T'' :=
  fun _ _ hx => hT' (hT hx)

theorem stores (hT : T.Extends T') (he : T.Stores h e) : T'.Stores h e := by
  obtain ⟨flags, hat⟩ := stores_iff.1 he
  exact stores_iff.2 ⟨flags, hT hat⟩

theorem flagsAt (hT : T.Extends T') (hh : h < T.size) : T'.flagsAt h = T.flagsAt h := by
  have hat : T.entries[h]? = some T.entries[h] := Array.getElem?_eq_getElem hh
  rw [TypeTable.flagsAt, TypeTable.flagsAt, hat, hT hat]

end Extends

namespace Denotes

theorem lt_size (ht : T.Denotes h t) : h < T.size := by
  cases ht with
  | intro hentry hdescribes => exact hentry.lt_size

theorem describes (ht : T.Denotes h t) (he : T.Stores h e) : e.Describes T.Denotes t := by
  cases ht with
  | intro hentry hdescribes =>
      cases hentry.unique he
      exact hdescribes

/-- A handle denotes at most one tree. The induction is on the size of the tree, as entries
need not come after their parts in every table. -/
theorem unique {h : Handle} {t u : Ty} (ht : T.Denotes h t) (hu : T.Denotes h u) : t = u := by
  cases ht with
  | intro hentry hdescribes =>
      exact hdescribes.unique (hu.describes hentry) fun a ha h b => Denotes.unique
termination_by sizeOf t

/-- A handle keeps the tree that it denotes. -/
theorem mono {h : Handle} {t : Ty} (ht : T.Denotes h t) (hT : T.Extends T') :
    T'.Denotes h t := by
  cases ht with
  | intro hentry hdescribes =>
      exact .intro (hT.stores hentry) (hdescribes.imp fun a ha h hdenotes => hdenotes.mono hT)
termination_by sizeOf t

end Denotes

/-- A table in which handles stand for trees. -/
structure Valid (T : TypeTable) : Prop where
  /-- A type is found under the handle that denotes it. -/
  known : ∀ t h, T.handles[t]? = some h ↔ T.Denotes h t
  /-- Every handle denotes a tree. -/
  denoted : ∀ h < T.size, ∃ t, T.Denotes h t
  /-- The parts of a type come before it. -/
  parts_lt : ∀ h e, T.Stores h e → ∀ p ∈ e.parts, p < h
  /-- The flags of an entry are those of the whole tree. -/
  flags : ∀ h t, T.Denotes h t → T.flagsAt h = t.flags

/-- Handles are equal when the trees are. -/
theorem Valid.handle_eq_iff (hT : T.Valid) (ht : T.Denotes h t) (hu : T.Denotes h' u) :
    h = h' ↔ t = u := by
  constructor
  · rintro rfl
    exact ht.unique hu
  · rintro rfl
    exact Option.some.inj (((hT.known t h).2 ht).symm.trans ((hT.known t h').2 hu))

/-- No two handles have the same entry. -/
theorem Valid.entry_injective (hT : T.Valid) (he : T.Stores h e)
    (he' : T.Stores h' e) : h = h' := by
  obtain ⟨t, ht⟩ := hT.denoted h he.lt_size
  exact (hT.handle_eq_iff ht (.intro he' (ht.describes he))).2 rfl

/-! ### A new type at the end -/

section Push

variable (hT : T.Valid) (hnew : T.handles[t]? = none) (he : e.Describes T.Denotes t)

theorem entries_push :
    (T.push t e).2.entries =
      T.entries.push (e, e.tag.flags.withParts (e.parts.map T.flagsAt)) := rfl

theorem handles_push : (T.push t e).2.handles = T.handles.insert t T.size := rfl

theorem lt_size_push (hh : h < (T.push t e).2.size) : h < T.size ∨ h = T.size := by
  rw [size, entries_push, Array.size_push] at hh
  exact Nat.lt_succ_iff_lt_or_eq.1 hh

theorem extends_push : T.Extends (T.push t e).2 := by
  intro h x hx
  have hlt := (Array.getElem?_eq_some_iff.1 hx).1
  rw [entries_push, Array.getElem?_push_lt hlt, ← Array.getElem?_eq_getElem hlt]
  exact hx

theorem stores_push_size : (T.push t e).2.Stores T.size e := by
  rw [stores_iff, entries_push, size, Array.getElem?_push_size]
  exact ⟨_, rfl⟩

include hT he

/-- A new type adds what its own handle denotes. -/
theorem denotes_push :
    (T.push t e).2.Denotes h u ↔ T.Denotes h u ∨ h = T.size ∧ u = t := by
  have hlast : (T.push t e).2.Denotes T.size t :=
    .intro stores_push_size (he.imp fun a _ h ha => ha.mono extends_push)
  constructor
  · intro hu
    rcases lt_size_push hu.lt_size with hold | rfl
    · obtain ⟨s, hs⟩ := hT.denoted h hold
      rw [hu.unique (hs.mono extends_push)]
      exact .inl hs
    · exact .inr ⟨rfl, hu.unique hlast⟩
  · rintro (hu | ⟨rfl, rfl⟩)
    · exact hu.mono extends_push
    · exact hlast

include hnew

theorem Valid.push : (T.push t e).2.Valid := by
  refine ⟨fun u h => ?_, fun h hh => ?_, fun h e' he' => ?_, fun h u hu => ?_⟩
  · -- The new handle is found under the new type, which had none before.
    rw [denotes_push hT he, handles_push, Std.HashMap.getElem?_insert, ← hT.known]
    by_cases htu : t = u
    · subst htu
      simp [hnew, eq_comm]
    · simp [htu, Ne.symm htu]
  · rcases lt_size_push hh with hold | rfl
    · obtain ⟨s, hs⟩ := hT.denoted h hold
      exact ⟨s, (denotes_push hT he).2 (.inl hs)⟩
    · exact ⟨t, (denotes_push hT he).2 (.inr ⟨rfl, rfl⟩)⟩
  · rcases lt_size_push he'.lt_size with hold | rfl
    · obtain ⟨e₀, he₀⟩ := exists_stores hold
      cases (extends_push.stores he₀).unique he'
      exact hT.parts_lt h _ he₀
    · cases he'.unique stores_push_size
      exact he.parts_lt fun h a ha => ha.lt_size
  · rcases (denotes_push hT he).1 hu with hold | ⟨rfl, rfl⟩
    · rw [extends_push.flagsAt hold.lt_size, hT.flags h u hold]
    · rw [flagsAt, entries_push, size, Array.getElem?_push_size]
      exact he.flags hT.flags

end Push

/-! ### Building types -/

/-- A table after types smaller than a bound were built. -/
structure Grown (T T' : TypeTable) (bound : Nat) : Prop where
  keeps : T.Extends T'
  valid : T'.Valid
  small : ∀ h t, T'.Denotes h t → T.Denotes h t ∨ sizeOf t < bound

namespace Grown

variable {m n : Nat}

theorem refl (hT : T.Valid) (n : Nat) : T.Grown T n :=
  ⟨.refl T, hT, fun _ _ ht => .inl ht⟩

theorem trans (hT : T.Grown T' m) (hT' : T'.Grown T'' n) : T.Grown T'' (max m n) := by
  refine ⟨hT.keeps.trans hT'.keeps, hT'.valid, fun h t ht => ?_⟩
  rcases hT'.small h t ht with ht | hsmall
  · rcases hT.small h t ht with ht | hsmall
    · exact .inl ht
    · exact .inr (by omega)
  · exact .inr (by omega)

theorem le (hT : T.Grown T' m) (hmn : m ≤ n) : T.Grown T' n :=
  ⟨hT.keeps, hT.valid, fun h t ht => (hT.small h t ht).imp_right fun hsmall => by omega⟩

/-- A type that is at least as large as the bound is still new. -/
theorem new (hT : T.Grown T' (sizeOf t)) (hold : T.Valid) (hnew : T.handles[t]? = none) :
    T'.handles[t]? = none := by
  rw [Option.eq_none_iff_forall_ne_some] at hnew ⊢
  intro h hh
  rcases hT.small h t ((hT.valid.known t h).1 hh) with ht | hsmall
  · exact hnew h ((hold.known t h).2 ht)
  · exact Nat.lt_irrefl _ hsmall

end Grown

/-- The entry of a type, with its parts built from left to right. -/
def buildParts (T : TypeTable) : Ty → TypeEntry × TypeTable
  | .prim p => (.prim p, T)
  | .lit v => (.lit v, T)
  | .union a b =>
    let (left, T) := T.build a
    let (right, T) := T.build b
    (.union left right, T)
  | .app adt args =>
    let (handles, T) := T.buildAll args
    (.app adt handles, T)
  | .param o i => (.param o i, T)

theorem build_of_known (hknown : T.handles[t]? = some h) : T.build t = (h, T) := by
  cases t <;> rw [build, hknown]

theorem build_of_new (hnew : T.handles[t]? = none) :
    T.build t = (T.buildParts t).2.push t (T.buildParts t).1 := by
  cases t <;> rw [build, hnew] <;> rfl

/-- The types of a list, built one after another. -/
theorem buildAll_cons (T : TypeTable) (t : Ty) (rest : List Ty) :
    T.buildAll (t :: rest) =
      ((T.build t).1 :: ((T.build t).2.buildAll rest).1, ((T.build t).2.buildAll rest).2) := by
  rw [buildAll]

/-- What building a type does to a table: only the type and its parts are new, and the
handle denotes the type. -/
structure Builds (T : TypeTable) (t : Ty) : Prop where
  grown : T.Grown (T.build t).2 (sizeOf t + 1)
  denotes : (T.build t).2.Denotes (T.build t).1 t

/-- What building the parts of a type does to a table. -/
structure BuildsParts (T : TypeTable) (t : Ty) : Prop where
  grown : T.Grown (T.buildParts t).2 (sizeOf t)
  describes : (T.buildParts t).1.Describes (T.buildParts t).2.Denotes t

theorem BuildsParts.builds (hT : T.Valid) (hparts : T.BuildsParts t) : T.Builds t := by
  cases hknown : T.handles[t]? with
  | some h =>
      constructor <;> rw [build_of_known hknown]
      · exact .refl hT _
      · exact (hT.known t h).1 hknown
  | none =>
      have hvalid := hparts.grown.valid
      -- The parts are smaller than the type, so building them has not added it.
      have hnew := hparts.grown.new hT hknown
      have hpush : (T.buildParts t).2.Grown
          ((T.buildParts t).2.push t (T.buildParts t).1).2 (sizeOf t + 1) := by
        refine ⟨extends_push, hvalid.push hnew hparts.describes, fun h u hu => ?_⟩
        rcases (denotes_push hvalid hparts.describes).1 hu with hu | ⟨-, rfl⟩
        · exact .inl hu
        · exact .inr (Nat.lt_succ_self _)
      constructor <;> rw [build_of_new hknown]
      · exact (hparts.grown.trans hpush).le (by omega)
      · exact (denotes_push hvalid hparts.describes).2 (.inr ⟨rfl, rfl⟩)

theorem grown_buildAll {args : List Ty} (hargs : ∀ a ∈ args, ∀ T : TypeTable, T.Valid → T.Builds a)
    (hT : T.Valid) :
    T.Grown (T.buildAll args).2 (sizeOf args) ∧
      List.Forall₂ (T.buildAll args).2.Denotes (T.buildAll args).1 args := by
  induction args generalizing T with
  | nil => exact ⟨.refl hT _, .nil⟩
  | cons t rest ih =>
      rw [buildAll_cons]
      obtain ⟨hgrown, hdenotes⟩ := hargs t List.mem_cons_self T hT
      obtain ⟨hgrown', hrest⟩ :=
        ih (fun a ha => hargs a (List.mem_cons_of_mem _ ha)) hgrown.valid
      refine ⟨(hgrown.trans hgrown').le ?_, .cons (hdenotes.mono hgrown'.keeps) hrest⟩
      rw [List.cons.sizeOf_spec]
      omega

theorem buildsParts (hT : T.Valid) (t : Ty) : T.BuildsParts t := by
  induction t generalizing T with
  | prim p => exact ⟨.refl hT _, .prim p⟩
  | lit v => exact ⟨.refl hT _, .lit v⟩
  | union a b iha ihb =>
      obtain ⟨hgrown, hleft⟩ := (iha hT).builds hT
      obtain ⟨hgrown', hright⟩ := (ihb hgrown.valid).builds hgrown.valid
      exact ⟨(hgrown.trans hgrown').le
        (Nat.max_le.2 ⟨Ty.sizeOf_left_lt a b, Ty.sizeOf_right_lt a b⟩),
        .union (hleft.mono hgrown'.keeps) hright⟩
  | app adt args ih =>
      obtain ⟨hgrown, hargs⟩ := grown_buildAll (fun a ha T hT => (ih a ha hT).builds hT) hT
      exact ⟨hgrown.le (Nat.le_of_lt (Ty.sizeOf_args_lt adt args)), .app hargs⟩
  | param o i => exact ⟨.refl hT _, .param o i⟩

/-- Building a type adds at most the type and its parts, and the handle denotes the type. -/
theorem builds (hT : T.Valid) (t : Ty) : T.Builds t := (buildsParts hT t).builds hT

/-- A type that was built has one handle for good. -/
theorem build_of_denotes (hT : T.Valid) (ht : T.Denotes h t) : T.build t = (h, T) :=
  build_of_known ((hT.known t h).2 ht)

theorem buildParts_of_describes (hT : T.Valid) (he : e.Describes T.Denotes t) :
    T.buildParts t = (e, T) := by
  cases he with
  | prim p => rfl
  | lit v => rfl
  | union hleft hright =>
      simp only [buildParts, build_of_denotes hT hleft, build_of_denotes hT hright]
  | @app adt handles args hargs =>
      have hall : T.buildAll args = (handles, T) := by
        induction hargs with
        | nil => rfl
        | cons h _ ih => rw [buildAll_cons, build_of_denotes hT h, ih]
      rw [buildParts, hall]
  | param o i => rfl

/-! ### Entries looked up by their own data -/

/-- The handle of an entry, which is added at the end when no equal one is there. -/
def intern (T : TypeTable) (e : TypeEntry) : Handle × Array (TypeEntry × TypeFlags) :=
  match T.entries.findIdx? fun x => x.1 == e with
  | some h => (h, T.entries)
  | none => (T.size, T.entries.push (e, e.tag.flags.withParts (e.parts.map T.flagsAt)))

theorem intern_of_stores (hT : T.Valid) (he : T.Stores h e) :
    T.intern e = (h, T.entries) := by
  have hfound : T.entries.findIdx? (fun x => x.1 == e) = some h := by
    obtain ⟨flags, hat⟩ := stores_iff.1 he
    obtain ⟨hlt, hget⟩ := Array.getElem?_eq_some_iff.1 hat
    refine Array.findIdx?_eq_some_iff_getElem.2 ⟨hlt, by simp [hget], fun k hk hsame => ?_⟩
    have hk' : T.Stores k e := by
      rw [Stores, entry?, Array.getElem?_eq_getElem (Nat.lt_trans hk hlt), Option.map_some,
        eq_of_beq hsame]
    exact Nat.ne_of_lt hk (hT.entry_injective hk' he)
  rw [intern, hfound]

theorem intern_of_new (hnew : ∀ h, ¬ T.Stores h e) :
    T.intern e =
      (T.size, T.entries.push (e, e.tag.flags.withParts (e.parts.map T.flagsAt))) := by
  have hnone : T.entries.findIdx? (fun x => x.1 == e) = none := by
    rw [Array.findIdx?_eq_none_iff]
    intro x hx
    obtain ⟨h, hlt, rfl⟩ := Array.getElem_of_mem hx
    have hne := hnew h
    rw [Stores, entry?, Array.getElem?_eq_getElem hlt, Option.map_some] at hne
    simpa using hne
  rw [intern, hnone]

/-- Looking a type up by its tree does what looking up its entry would do, once the parts
are built. -/
theorem build_eq_intern (hT : T.Valid) (t : Ty) :
    ((T.build t).1, (T.build t).2.entries) =
      (T.buildParts t).2.intern (T.buildParts t).1 := by
  cases hknown : T.handles[t]? with
  | some h =>
      have ht := (hT.known t h).1 hknown
      obtain ⟨e, he⟩ := exists_stores ht.lt_size
      rw [build_of_known hknown, buildParts_of_describes hT (ht.describes he),
        intern_of_stores hT he]
  | none =>
      obtain ⟨hgrown, hdescribes⟩ := buildsParts hT t
      have hnew := hgrown.new hT hknown
      rw [build_of_new hknown, intern_of_new]
      · rfl
      · intro h he
        have ht := (hgrown.valid.known t h).2 (.intro he hdescribes)
        exact absurd (hnew.symm.trans ht) nofun

/-! ### The built-in types and whole trails -/

theorem valid_empty : empty.Valid := by
  refine ⟨fun t h => ?_, fun h hh => absurd hh (Nat.not_lt_zero h), fun h e he => ?_,
    fun h t ht => absurd ht.lt_size (Nat.not_lt_zero h)⟩
  · have hempty : empty.handles[t]? = none := Std.HashMap.getElem?_empty
    rw [hempty]
    exact ⟨fun hh => absurd hh nofun, fun ht => absurd ht.lt_size (Nat.not_lt_zero h)⟩
  · exact absurd he.lt_size (Nat.not_lt_zero h)

/-- Different built-in types that are built first have their positions as handles. -/
theorem built_prims (prims : List Prim) (hprims : prims.Nodup) :
    let T := prims.foldl (fun T p => (T.build (.prim p)).2) empty
    T.Valid ∧ T.size = prims.length ∧
      ∀ h p, prims[h]? = some p → T.Denotes h (.prim p) := by
  induction prims using List.reverseRecOn with
  | nil => exact ⟨valid_empty, rfl, fun h p hp => absurd hp nofun⟩
  | append_singleton prims p ih =>
      obtain ⟨hprims, hp⟩ : prims.Nodup ∧ p ∉ prims := by
        rw [List.nodup_append] at hprims
        exact ⟨hprims.1, fun hp => hprims.2.2 p hp p List.mem_cons_self rfl⟩
      obtain ⟨hT, hsize, hdenotes⟩ := ih hprims
      rw [List.foldl_append, List.foldl_cons, List.foldl_nil]
      generalize prims.foldl (fun T p => (T.build (.prim p)).2) empty = T at hT hsize hdenotes
      -- Every handle given out so far denotes one of the others.
      have hnew : T.handles[Ty.prim p]? = none := by
        rw [Option.eq_none_iff_forall_ne_some]
        intro h hh
        have hold := (hT.known _ h).1 hh
        have hlt : h < prims.length := hsize ▸ hold.lt_size
        have hsame := hold.unique (hdenotes h _ (List.getElem?_eq_getElem hlt))
        cases hsame
        exact hp (List.getElem_mem hlt)
      rw [build_of_new hnew]
      refine ⟨hT.push hnew (.prim p), ?_, fun h q hq => (denotes_push hT (.prim p)).2 ?_⟩
      · rw [size, entries_push, Array.size_push, List.length_append]
        exact congrArg (· + 1) hsize
      · by_cases hlt : h < prims.length
        · rw [List.getElem?_append_left hlt] at hq
          exact .inl (hdenotes h q hq)
        · rw [List.getElem?_append_right (Nat.le_of_not_lt hlt)] at hq
          obtain ⟨hone, hget⟩ := List.getElem?_eq_some_iff.1 hq
          rw [List.getElem_singleton] at hget
          have hlast : h = prims.length :=
            Nat.le_antisymm (Nat.le_of_sub_eq_zero (Nat.lt_one_iff.1 hone))
              (Nat.le_of_not_lt hlt)
          exact .inr ⟨hlast.trans hsize.symm, congrArg Ty.prim hget.symm⟩

theorem valid_initial : initial.Valid := (built_prims Prim.all (by decide)).1

/-- The built-in types have the first handles. -/
theorem denotes_initial {p : Prim} (hp : Prim.all[h]? = some p) : initial.Denotes h (.prim p) :=
  (built_prims Prim.all (by decide)).2.2 h p hp

/-- Building the types of a trail keeps what is stored. -/
theorem follow_keeps (hT : T.Valid) (u : Trail) : T.Extends (T.follow u) ∧ (T.follow u).Valid := by
  unfold follow
  induction u.toList generalizing T with
  | nil => exact ⟨.refl T, hT⟩
  | cons t rest ih =>
      have hgrown := (builds hT t).grown
      obtain ⟨hkeeps, hvalid⟩ := ih hgrown.valid
      exact ⟨hgrown.keeps.trans hkeeps, hvalid⟩

end TypeTable

end CaseCover
