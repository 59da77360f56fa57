import Mathlib.Data.List.Induction
import CaseCover.Proofs.Check.RowOrder
import CaseCover.Proofs.Hierarchy.Comparison
import CaseCover.Union.Membership

/-!
Membership in unions as a relation. A type is part of a set when each of its members is
below a member of the set (`Declarations.PartOf`); that is what the questions about
membership answer, whatever expansions are remembered (`partOf_sound`).
-/

namespace CaseCover

namespace TypeSet

theorem eraseDups_concat (types : List Ty) (t : Ty) :
    (types ++ [t]).eraseDups = if t ∈ types then types.eraseDups else types.eraseDups ++ [t] := by
  rw [List.eraseDups_append, List.removeAll, List.filter_singleton]
  by_cases h : t ∈ types
  · simp [h]
  · simp [h, List.eraseDups_cons]

theorem nodup_eraseDups (types : List Ty) : types.eraseDups.Nodup := by
  induction types using List.reverseRecOn with
  | nil => exact List.nodup_nil
  | append_singleton types t ih =>
      rw [eraseDups_concat]
      by_cases h : t ∈ types
      · rwa [if_pos h]
      · rw [if_neg h, ← List.concat_eq_append]
        exact ih.concat (by simpa using h)

/-- The members of a set are the different types of the list, each where it stands first. -/
theorem members_ofList (types : List Ty) : (ofList types).members = types.eraseDups := by
  induction types using List.reverseRecOn with
  | nil => rfl
  | append_singleton types t ih =>
      have hinsert : ofList (types ++ [t]) = (ofList types).insert t := List.foldl_append
      rw [hinsert, eraseDups_concat, insert, contains]
      by_cases h : t ∈ types
      · simp [ih, h]
      · simp [ih, h]

theorem mem_ofList {types : List Ty} {t : Ty} : t ∈ (ofList types).members ↔ t ∈ types := by
  rw [members_ofList, List.mem_eraseDups]

/-- The members of a union are different. -/
theorem nodup_ofUnion (t : Ty) : (ofUnion t).members.Nodup :=
  members_ofList t.leaves ▸ nodup_eraseDups t.leaves

/-- Every type has a member: itself when it is no union. -/
theorem exists_mem_ofUnion (t : Ty) : ∃ u, u ∈ (ofUnion t).members := by
  simp only [ofUnion, mem_ofList]
  induction t with
  | union a b iha _ =>
      obtain ⟨u, hu⟩ := iha
      exact ⟨u, List.mem_append_left _ hu⟩
  | prim p => exact ⟨_, List.mem_singleton_self _⟩
  | lit v => exact ⟨_, List.mem_singleton_self _⟩
  | app d args _ => exact ⟨_, List.mem_singleton_self _⟩
  | param o i => exact ⟨_, List.mem_singleton_self _⟩

end TypeSet

/-- Every expansion that is remembered is that of its type. -/
def UnionCache.Valid (cache : UnionCache) : Prop :=
  ∀ t found, cache.expanded.lookup t = some found → found = TypeSet.ofUnion t

theorem UnionCache.valid_empty : ({} : UnionCache).Valid := fun _ _ h => nomatch h

theorem UnionCache.Valid.expand {cache : UnionCache} (hcache : cache.Valid) (t : Ty) :
    (cache.expand t).1 = TypeSet.ofUnion t ∧ (cache.expand t).2.Valid := by
  unfold UnionCache.expand
  cases hfound : cache.expanded.lookup t with
  | some found => exact ⟨hcache t found hfound, hcache⟩
  | none =>
      refine ⟨rfl, fun u found hlookup => ?_⟩
      rw [List.lookup_cons] at hlookup
      by_cases hu : u = t
      · subst hu
        simpa using hlookup.symm
      · have hne : (u == t) = false := by simpa using hu
        rw [hne] at hlookup
        exact hcache u found hlookup

namespace Declarations

/-- Every member of a type is below a member of a set, or empty. -/
def PartOf (D : Declarations) (t : Ty) (s : TypeSet) : Prop :=
  ∀ u ∈ (TypeSet.ofUnion t).members, u = .never ∨ ∃ m ∈ s.members, D.Below u m

end Declarations

namespace Hierarchy

variable {H : Hierarchy}

theorem memberFits_sound {t : Ty} {s : TypeSet} {r : Bool}
    (hr : (H.memberFits t s).value? = some r) :
    r = true ↔ t = .never ∨ ∃ m ∈ s.members, H.decls.Below t m := by
  unfold memberFits at hr
  by_cases hnever : t = .never
  · rw [if_pos hnever] at hr
    simp [hnever, ← Option.some.inj hr]
  rw [if_neg hnever] at hr
  have hmember : ∀ {m : Ty} {b : Bool}, (if m = .noType ∨ t = m then (pure true : Query Bool)
      else H.isSubtype t m).value? = some b → (H.decls.Below t m ↔ b = true) := by
    intro m b hb
    split at hb
    · rename_i hat
      obtain rfl : true = b := Option.some.inj hb
      refine iff_of_true ?_ rfl
      rcases hat with rfl | rfl
      · exact H.decls.below_noType t
      · exact H.decls.below_self t
    · exact Declarations.below_iff_of_isSubtype hb
  obtain ⟨hexists, hall⟩ := Query.value?_any_eq_some hr
  cases r with
  | true =>
      obtain ⟨m, hm, hpass⟩ := hexists rfl
      exact iff_of_true rfl (.inr ⟨m, hm, (hmember hpass).2 rfl⟩)
  | false =>
      refine iff_of_false Bool.false_ne_true ?_
      rintro (h | ⟨m, hm, hbelow⟩)
      · exact hnever h
      · exact Bool.false_ne_true ((hmember (hall rfl m hm)).1 hbelow)

theorem mismatch?_sound {candidates target : TypeSet} {result : Option Mismatch}
    (hresult : (H.mismatch? candidates target).value? = some result) :
    result = none ↔ ∀ u ∈ candidates.members,
      u = .never ∨ ∃ m ∈ target.members, H.decls.Below u m := by
  obtain ⟨missing, hmissing, hanswer⟩ := Query.value?_bind_eq_some.1 hresult
  obtain ⟨hanswered, hfilter⟩ := Query.value?_filter_eq_some hmissing
  have hfits : ∀ u ∈ candidates.members,
      (u ∈ missing ↔ ¬ (u = .never ∨ ∃ m ∈ target.members, H.decls.Below u m)) := by
    intro u hu
    obtain ⟨b, hb⟩ := hanswered u hu
    obtain ⟨fits, hfitsValue, hnot⟩ := Query.value?_bind_eq_some.1 hb
    obtain rfl : (!fits) = b := Option.some.inj hnot
    rw [hfilter, List.mem_filter, hb, ← memberFits_sound hfitsValue]
    cases fits <;> simp [hu]
  have hresult : (if missing.isEmpty then none else some ⟨missing, target⟩) = result :=
    Option.some.inj hanswer
  have hempty : result = none ↔ missing = [] := by
    rw [← hresult]
    cases missing with
    | nil => simp
    | cons u rest => simp
  rw [hempty]
  constructor
  · intro hnil u hu
    by_contra hbad
    have hmem := (hfits u hu).2 hbad
    rw [hnil] at hmem
    exact List.not_mem_nil hmem
  · intro hall
    apply List.eq_nil_iff_forall_not_mem.2
    intro u hmem
    have hu : u ∈ candidates.members := by
      rw [hfilter] at hmem
      exact (List.mem_filter.1 hmem).1
    exact (hfits u hu).1 hmem (hall u hu)

/-- Whether a type is part of a set is answered rightly, whatever is remembered. -/
theorem partOf_sound {cache cache' : UnionCache} (hcache : cache.Valid) {t : Ty}
    {target : TypeSet} {result : Option Mismatch}
    (hresult : (H.partOf cache t target).value? = some (result, cache')) :
    cache'.Valid ∧ (result = none ↔ H.decls.PartOf t target) := by
  obtain ⟨hmembers, hvalid⟩ := hcache.expand t
  obtain ⟨found, hfound, hanswer⟩ := Query.value?_bind_eq_some.1 hresult
  obtain ⟨hresult, hcache'⟩ := Prod.mk.inj (Option.some.inj hanswer)
  have hfound : (H.mismatch? (cache.expand t).1 target).value? = some found := hfound
  rw [hmembers] at hfound
  rw [← hresult, ← hcache']
  exact ⟨hvalid, mismatch?_sound hfound⟩

theorem containsAll_sound {cache cache' : UnionCache} (hcache : cache.Valid)
    {superset subset : Ty} {result : Option Mismatch}
    (hresult : (H.containsAll cache superset subset).value? = some (result, cache')) :
    cache'.Valid ∧ (result = none ↔ H.decls.PartOf subset (TypeSet.ofUnion superset)) := by
  obtain ⟨hmembers, hvalid⟩ := hcache.expand superset
  have hpart : (H.partOf (cache.expand superset).2 subset (cache.expand superset).1).value? =
      some (result, cache') := hresult
  rw [hmembers] at hpart
  exact partOf_sound hvalid hpart

end Hierarchy

end CaseCover
