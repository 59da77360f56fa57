import CaseCover.Proofs.Ty.Made
import CaseCover.Proofs.Union.Agreement

/-!
What the expansion of a union is. The parts of a union, met from left to right with a stack of
those still to be visited, are collected into an ordered set (`traverses_ofUnion`), so the
members of a type that clients can build are its parts in the order of their first occurrence.
Expanding turns the union of two types into the members of the one followed by the new ones of
the other, and the union of the members of an expansion expands to them again
(`Asked.expand_join`), whatever was asked, and remembered, before.
-/

namespace CaseCover

namespace TypeSet

/-- The visit of the types on a stack, which adds those that are no unions to a set. -/
inductive Traverses : List Ty → TypeSet → TypeSet → Prop
  | done (s : TypeSet) : Traverses [] s s
  | union {a b : Ty} {rest : List Ty} {s s' : TypeSet} (h : Traverses (a :: b :: rest) s s') :
      Traverses (.union a b :: rest) s s'
  | leaf {t : Ty} {rest : List Ty} {s s' : TypeSet} (ht : ∀ a b, t ≠ .union a b)
      (h : Traverses rest (s.insert t) s') : Traverses (t :: rest) s s'

/-- Visiting a type adds its parts from left to right before the rest is visited. -/
theorem Traverses.cons {t : Ty} {rest : List Ty} {s s' : TypeSet}
    (hrest : Traverses rest (t.leaves.foldl insert s) s') : Traverses (t :: rest) s s' := by
  induction t generalizing rest s with
  | union a b iha ihb =>
      rw [Ty.leaves, List.foldl_append] at hrest
      exact .union (iha (ihb hrest))
  | prim _ | lit _ | app _ _ | param _ _ => exact .leaf (by simp) hrest

/-- The visit of a type ends, with the set of its parts. -/
theorem traverses_ofUnion (t : Ty) : Traverses [t] .empty (ofUnion t) := (Traverses.done _).cons

/-- The members of a type, as they are listed without a set. -/
theorem members_ofUnion (t : Ty) : (ofUnion t).members = t.members := members_ofList t.leaves

theorem eraseDups_of_nodup {types : List Ty} (h : types.Nodup) : types.eraseDups = types := by
  induction types using List.reverseRecOn with
  | nil => rfl
  | append_singleton types t ih =>
      rw [← List.concat_eq_append, List.nodup_concat] at h
      simp [eraseDups_concat, ih h.2, h.1]

theorem eraseDups_append_self (types : List Ty) :
    (types ++ types).eraseDups = types.eraseDups := by
  have hnone : types.removeAll types = [] := by simp [List.removeAll, List.filter_eq_nil_iff]
  simp [List.eraseDups_append, hnone]

/-- Dropping repetitions in both halves of a list first makes no difference. -/
theorem eraseDups_append_eraseDups (as bs : List Ty) :
    (as.eraseDups ++ bs.eraseDups).eraseDups = (as ++ bs).eraseDups := by
  induction bs using List.reverseRecOn with
  | nil => simpa using eraseDups_of_nodup (nodup_eraseDups as)
  | append_singleton bs t ih =>
      rw [← List.append_assoc, eraseDups_concat, eraseDups_concat]
      by_cases hbs : t ∈ bs
      · simp [hbs, ih]
      · rw [if_neg hbs, ← List.append_assoc, eraseDups_concat, ih]
        simp [hbs]

end TypeSet

namespace Ty

variable {a b t : Ty}

/-- The members of a type; the empty type counts as having none. -/
def inhabited (t : Ty) : List Ty := if t = never then [] else t.members

theorem leaves_eq_singleton (ht : ∀ a b, t ≠ .union a b) : t.leaves = [t] := by
  cases t with
  | union a b => exact absurd rfl (ht a b)
  | prim _ | lit _ | app _ _ | param _ _ => rfl

theorem nodup_members (t : Ty) : t.members.Nodup := TypeSet.nodup_eraseDups t.leaves

theorem members_join (a b : Ty) : (join a b).members =
    if join a b = never then [never] else (a.inhabited ++ b.inhabited).eraseDups := by
  have hnever : never.members = [never] := by simp [members, leaves, List.eraseDups_cons]
  have herase : ∀ t : Ty, t.members.eraseDups = t.members := fun t =>
    TypeSet.eraseDups_of_nodup t.nodup_members
  by_cases ha : a = never
  · by_cases hb : b = never
    · simp [ha, hb, hnever]
    · simp [ha, hb, inhabited, herase]
  by_cases hb : b = never
  · simp [ha, hb, inhabited, herase]
  by_cases hab : a = b
  · simp [← hab, ha, inhabited, TypeSet.eraseDups_append_self, herase]
  · simp only [join_eq_union hab ha hb, reduceCtorEq, if_false, inhabited, ha, hb]
    exact (TypeSet.eraseDups_append_eraseDups a.leaves b.leaves).symm

/-- Joining different types that are not empty and no unions lists them as the parts. -/
theorem leaves_foldl_join {types : List Ty} {t : Ty} (ht : t ≠ never)
    (hnever : never ∉ types) (hunion : ∀ u ∈ types, ∀ x y, u ≠ .union x y)
    (hnodup : (t.leaves ++ types).Nodup) :
    (types.foldl join t).leaves = t.leaves ++ types := by
  induction types generalizing t with
  | nil => simp
  | cons u types ih =>
      obtain ⟨hu, hnever⟩ := List.ne_and_not_mem_of_not_mem_cons hnever
      obtain ⟨huUnion, hunion⟩ := List.forall_mem_cons.1 hunion
      have hleaf : u.leaves = [u] := leaves_eq_singleton huUnion
      have hdiffer : t ≠ u := by
        rintro rfl
        simp [hleaf] at hnodup
      rw [List.foldl_cons, join_eq_union hdiffer ht hu.symm]
      rw [← List.singleton_append, ← List.append_assoc, ← hleaf] at hnodup ⊢
      exact ih nofun hnever hunion hnodup

/-- The parts of the union of different types that are not empty and no unions are these
types. -/
theorem leaves_joinAll {types : List Ty} (hnil : types ≠ []) (hnever : never ∉ types)
    (hunion : ∀ u ∈ types, ∀ x y, u ≠ .union x y) (hnodup : types.Nodup) :
    (joinAll types).leaves = types := by
  cases types with
  | nil => exact absurd rfl hnil
  | cons t types =>
      obtain ⟨ht, hnever⟩ := List.ne_and_not_mem_of_not_mem_cons hnever
      obtain ⟨htUnion, hunion⟩ := List.forall_mem_cons.1 hunion
      have hleaf : t.leaves = [t] := leaves_eq_singleton htUnion
      rw [joinAll, leaves_foldl_join ht.symm hnever hunion (by simpa [hleaf] using hnodup), hleaf,
        List.singleton_append]

/-- The members of a type are different types that are no unions; when the empty type is one of
them, it is the type itself. -/
theorem Reduced.members_joinAll (ht : t.Reduced) : (joinAll t.members).members = t.members := by
  have hmem : ∀ u, u ∈ t.members ↔ u ∈ t.leaves := fun u => List.mem_eraseDups
  by_cases hnever : never ∈ t.members
  · rw [ht.eq_never_of_mem_leaves ((hmem _).1 hnever)]
    decide
  · have hunion : ∀ u ∈ t.members, ∀ x y, u ≠ .union x y := fun u hu =>
      ne_union_of_mem_leaves ((hmem u).1 hu)
    obtain ⟨u, hu⟩ := TypeSet.exists_mem_ofUnion t
    have hnil : t.members ≠ [] := List.ne_nil_of_mem (TypeSet.members_ofUnion t ▸ hu)
    rw [members, leaves_joinAll hnil hnever hunion t.nodup_members]
    exact TypeSet.eraseDups_of_nodup t.nodup_members

end Ty

namespace UnionCache

/-- What is remembered after questions were asked, of one hierarchy or of several. -/
inductive Asked : UnionCache → Prop
  | start : Asked {}
  | expand {cache : UnionCache} (h : cache.Asked) (t : Ty) : Asked (cache.expand t).2
  | partOf {cache later : UnionCache} {H : Hierarchy} {t : Ty} {target : TypeSet}
      {result : Option Mismatch} (h : cache.Asked)
      (hresult : (H.partOf cache t target).value? = some (result, later)) : Asked later
  | partOfUnion {cache later : UnionCache} {H : Hierarchy} {t union : Ty}
      {result : Option Mismatch} (h : cache.Asked)
      (hresult : (H.partOfUnion cache t union).value? = some (result, later)) : Asked later
  | containsSome {cache later : UnionCache} {H : Hierarchy} {a b : Ty} {result : Bool}
      (h : cache.Asked)
      (hresult : (H.containsSome cache a b).value? = some (result, later)) : Asked later
  | containsAll {cache later : UnionCache} {H : Hierarchy} {superset subset : Ty}
      {result : Option Mismatch} (h : cache.Asked)
      (hresult : (H.containsAll cache superset subset).value? = some (result, later)) :
      Asked later

variable {cache left right : UnionCache}

theorem Asked.valid (h : cache.Asked) : cache.Valid := by
  induction h with
  | start => exact valid_empty
  | expand _ t ih => exact (ih.expand t).2
  | partOf _ hresult ih => exact (Hierarchy.partOf_sound ih hresult).1
  | partOfUnion _ hresult ih => exact (Hierarchy.containsAll_sound ih hresult).1
  | @containsSome cache later H a b result _ hresult ih =>
      obtain ⟨found, -, hanswer⟩ := Query.value?_bind_eq_some.1 hresult
      obtain ⟨-, rfl⟩ := Prod.mk.inj (Option.some.inj hanswer)
      exact ((ih.expand a).2.expand b).2
  | containsAll _ hresult ih => exact (Hierarchy.containsAll_sound ih hresult).1

/-- What the expansion of a type lists; the empty type counts as having no members. -/
def contents (cache : UnionCache) (t : Ty) : List Ty :=
  if t = .never then [] else (cache.expand t).1.members

theorem Valid.expand_members (h : cache.Valid) (t : Ty) :
    (cache.expand t).1.members = t.members := by
  rw [(h.expand t).1, TypeSet.members_ofUnion]

theorem Valid.contents_eq (h : cache.Valid) (t : Ty) : cache.contents t = t.inhabited := by
  rw [contents, Ty.inhabited, h.expand_members]

/-- Whatever was asked before, the expansion of the union of two types has the members of the
one and then those of the other, without repetitions. The members of a type that clients can
build are no unions, they are what flattening the type lists, in the order in which its parts
are visited, and their union expands to them. -/
theorem Asked.expand_join (hcache : cache.Asked) (hleft : left.Asked) (hright : right.Asked)
    {a : Ty} (ha : a.Made) (b : Ty) :
    (cache.expand (.join a b)).1.members =
        (if Ty.join a b = .never then [.never]
          else (left.contents a ++ right.contents b).eraseDups) ∧
      (∀ m ∈ (left.expand a).1.members, (∀ x y, m ≠ .union x y) ∧ (m = .never → a = .never)) ∧
      (left.expand a).1.members = a.members ∧
      TypeSet.Traverses [a] .empty (left.expand a).1 ∧
      (cache.expand (.joinAll (left.expand a).1.members)).1 = (left.expand a).1 := by
  have hcache := hcache.valid
  have hleft := hleft.valid
  refine ⟨?_, fun m hm => ?_, hleft.expand_members a, ?_, ?_⟩
  · rw [hcache.expand_members, hleft.contents_eq, hright.valid.contents_eq, Ty.members_join]
  · rw [hleft.expand_members, Ty.members, List.mem_eraseDups] at hm
    exact ⟨Ty.ne_union_of_mem_leaves hm, fun h => ha.reduced.eq_never_of_mem_leaves (h ▸ hm)⟩
  · rw [(hleft.expand a).1]
    exact TypeSet.traverses_ofUnion a
  · refine congrArg TypeSet.mk ?_
    rw [hcache.expand_members, hleft.expand_members, ha.reduced.members_joinAll]

/-- What is remembered after an expansion and a question that was answered with it. -/
def consulted : UnionCache :=
  ((({} : UnionCache).expand (.union (.prim .int) (.prim .str))).2.expand (.prim .bool)).2

theorem expand_join_consulted :
    consulted.Asked ∧ (Ty.join (.prim .int) (.prim .str)).Made ∧
      (consulted.expand (.join (.join (.prim .int) (.prim .str))
        (.join (.prim .str) (.prim .bool)))).1.members =
          [.prim .int, .prim .str, .prim .bool] ∧
      (({} : UnionCache).expand (.joinAll (consulted.expand
        (.join (.prim .int) (.prim .str))).1.members)).1 =
          (consulted.expand (.join (.prim .int) (.prim .str))).1 := by
  have hasked : consulted.Asked := by
    have hexpanded := Asked.start.expand (.union (.prim .int) (.prim .str))
    have hanswer : (Hierarchy.containsSome ⟨.empty, 2⟩
        (({} : UnionCache).expand (.union (.prim .int) (.prim .str))).2
        (.union (.prim .int) (.prim .str)) (.prim .bool)).value? = some (false, consulted) := rfl
    exact hexpanded.containsSome hanswer
  have ha : (Ty.join (.prim .int) (.prim .str)).Made := .join (.prim .int) (.prim .str)
  have hjoin := hasked.expand_join hasked .start ha (.join (.prim .str) (.prim .bool))
  have hback := Asked.start.expand_join hasked .start ha .never
  exact ⟨hasked, ha, hjoin.1.trans (by decide), hback.2.2.2.2⟩

end UnionCache

end CaseCover
