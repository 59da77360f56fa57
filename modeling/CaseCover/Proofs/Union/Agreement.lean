import CaseCover.Proofs.Hierarchy.Children
import CaseCover.Proofs.Union.Membership

/-!
Membership and subtyping. Membership flattens both types and compares members; subtyping takes
the two unions apart as they are nested. A member that is not top fits the flattened union
exactly when it is below the union (`memberFits_agrees`), so the two agree but for one thing: top
is a member of a union that has it, and is not below it (`partOfUnion_agrees`).
-/

namespace CaseCover

namespace TypeSet

/-- A search through a set asks a repeated member only once, where it stands first. -/
theorem value?_any_insert (p : Ty → Query Bool) (s : TypeSet) (t : Ty) :
    (Query.any p (s.insert t).members).value? =
      (Query.either (Query.any p s.members) (p t)).value? := by
  unfold insert contains
  split
  · rename_i ht
    have hmem : t ∈ s.members := by simpa using ht
    rw [Query.value?_either]
    cases hs : (Query.any p s.members).value? with
    | none => rfl
    | some found =>
        cases found with
        | true => rfl
        | false => exact ((Query.value?_any_eq_some hs).2 rfl t hmem).symm
  · rw [Query.value?_any_append]
    exact Query.value?_either_congr rfl (Query.value?_either_false _)

theorem value?_any_ofList (p : Ty → Query Bool) (types : List Ty) :
    (Query.any p (ofList types).members).value? = (Query.any p types).value? := by
  have hfold : ∀ s : TypeSet, (Query.any p (types.foldl insert s).members).value? =
      (Query.either (Query.any p s.members) (Query.any p types)).value? := by
    induction types with
    | nil => exact fun s => (Query.value?_either_false _).symm
    | cons t types ih =>
        intro s
        rw [List.foldl_cons, ih, Query.any, ← Query.value?_either_assoc]
        exact Query.value?_either_congr (value?_any_insert p s t) rfl
  rw [ofList, hfold, Query.value?_either]
  rfl

/-- Everything fits a set that has top or the unconstrained position as a member. -/
def AcceptsAll (s : TypeSet) : Prop := .any ∈ s.members ∨ .noType ∈ s.members

end TypeSet

namespace Ty

/-- A part of a union is no union. -/
theorem ne_union_of_mem_leaves {t u : Ty} (ht : t ∈ u.leaves) (x y : Ty) : t ≠ .union x y := by
  induction u with
  | union a b iha ihb =>
      rcases List.mem_append.1 ht with ha | hb
      · exact iha ha
      · exact ihb hb
  | prim _ | lit _ | app _ _ | param _ _ =>
      rw [List.mem_singleton.1 ht]
      exact nofun

end Ty

namespace Declarations

open Query (Settles Ends)

variable {D : Declarations}

theorem ends_of_holdsAtOnce {a b : Ty} (hab : HoldsAtOnce a b) :
    Ends fun n => D.subtypeWithin n a b :=
  Settles.ends (D.below_of_holdsAtOnce hab)

section Leaves

variable {a u : Ty}

theorem below_of_leaves (h : ∀ t ∈ a.leaves, D.Below t u) : D.Below a u := by
  induction a with
  | union x y ihx ihy =>
      exact below_union (ihx fun t ht => h t (List.mem_append_left _ ht))
        (ihy fun t ht => h t (List.mem_append_right _ ht))
  | prim _ | lit _ | app _ _ | param _ _ => exact h _ (List.mem_singleton_self _)

theorem ends_of_leaves (h : ∀ t ∈ a.leaves, Ends fun n => D.subtypeWithin n t u) :
    Ends fun n => D.subtypeWithin n a u := by
  induction a with
  | union x y ihx ihy =>
      have hx := ihx fun t ht => h t (List.mem_append_left _ ht)
      have hy := ihy fun t ht => h t (List.mem_append_right _ ht)
      by_cases hat : HoldsAtOnce (.union x y) u
      · exact ends_of_holdsAtOnce hat
      · apply Ends.of_succ
        simp only [D.subtypeWithin_union _ (not_decidedAtOnce hat nofun)]
        exact hx.both fun _ => hy
  | prim _ | lit _ | app _ _ | param _ _ => exact h _ (List.mem_singleton_self _)

/-- What is no union and below a union is empty or below one of its parts. -/
theorem exists_leaf_of_below {t : Ty} (ht : ∀ x y, t ≠ .union x y) (h : D.Below t u) :
    t = .never ∨ ∃ m ∈ u.leaves, D.Below t m := by
  induction u with
  | union x y ihx ihy =>
      cases h.comparison with
      | atOnce hat =>
          rcases hat with rfl | rfl | hno | rfl | hany
          · exact absurd rfl (ht x y)
          · obtain ⟨m, hm⟩ := TypeSet.exists_mem_ofUnion (.union x y)
            exact .inr ⟨m, TypeSet.mem_ofList.1 hm, D.noType_below m⟩
          · exact nomatch hno
          · exact .inl rfl
          · exact nomatch hany
      | union _ _ => exact absurd rfl (ht _ _)
      | literal hunion _ => exact absurd rfl (hunion x y)
      | intoUnion _ _ hside =>
          rcases hside with hx | hy
          · refine (ihx hx).imp_right fun ⟨m, hm, hbelow⟩ => ?_
            exact ⟨m, List.mem_append_left _ hm, hbelow⟩
          · refine (ihy hy).imp_right fun ⟨m, hm, hbelow⟩ => ?_
            exact ⟨m, List.mem_append_right _ hm, hbelow⟩
  | prim _ | lit _ | app _ _ | param _ _ => exact .inr ⟨_, List.mem_singleton_self _, h⟩

/-- Every type that is below another is part of it. -/
theorem partOf_of_below (h : D.Below a u) : D.PartOf a (TypeSet.ofUnion u) := by
  have leaf : ∀ t ∈ a.leaves, t = .never ∨ ∃ m ∈ u.leaves, D.Below t m := by
    induction a with
    | union x y ihx ihy =>
        cases h.comparison with
        | atOnce hat =>
            rcases hat with rfl | hno | rfl | hnever | rfl
            · exact fun t ht => .inr ⟨t, ht, D.below_self t⟩
            · exact nomatch hno
            · exact fun t _ => .inr ⟨_, List.mem_singleton_self _, D.below_noType t⟩
            · exact nomatch hnever
            · exact fun t _ => .inr ⟨_, List.mem_singleton_self _, D.below_any t⟩
        | union hx hy =>
            intro t ht
            rcases List.mem_append.1 ht with ht | ht
            · exact ihx hx t ht
            · exact ihy hy t ht
        | intoUnion hne _ _ => exact absurd rfl (hne x y)
    | prim _ | lit _ | app _ _ | param _ _ =>
        intro t ht
        rw [List.mem_singleton.1 ht]
        exact exists_leaf_of_below nofun h
  intro t ht
  refine (leaf t (TypeSet.mem_ofList.1 ht)).imp_right fun ⟨m, hm, hbelow⟩ => ?_
  exact ⟨m, TypeSet.mem_ofList.2 hm, hbelow⟩

theorem partOf_of_acceptsAll {s : TypeSet} (hs : s.AcceptsAll) (a : Ty) : D.PartOf a s := by
  intro t _
  rcases hs with hany | hno
  · exact .inr ⟨_, hany, D.below_any t⟩
  · exact .inr ⟨_, hno, D.below_noType t⟩

/-- A search through the parts of a union settles the question about the union, if what is
searched for is no union and does not hold at once. -/
theorem settles_of_any_leaves {t : Ty} (ht : ∀ x y, t ≠ .union x y) (hany : t ≠ .any)
    (hno : t ≠ .noType) (hnever : t ≠ .never) {n : Nat} {r : Bool}
    (hr : (Query.any (D.subtypeWithin n t) u.leaves).value? = some r) :
    Settles (fun n => D.subtypeWithin n t u) r := by
  have single : ∀ {u : Ty} {r : Bool},
      (Query.any (D.subtypeWithin n t) [u]).value? = some r →
        Settles (fun n => D.subtypeWithin n t u) r := by
    intro u r hr
    rw [Query.any, Query.any, Query.value?_either_false] at hr
    exact Query.settles_of_refines (fun n => D.subtypeWithin_refines n t u) hr
  induction u generalizing r with
  | union x y ihx ihy =>
      rw [Ty.leaves, Query.value?_any_append] at hr
      obtain ⟨b, hb, hfalse, htrue⟩ := Query.value?_either_eq_some hr
      have hopen : ¬ HoldsAtOnce t (.union x y) := by
        rintro (h | h | h | h | h)
        · exact ht x y h
        · exact hno h
        · cases h
        · exact hnever h
        · cases h
      refine settles_intoUnion ht hany hopen ((ihx hb).bind ?_)
      cases b with
      | true =>
          rw [htrue rfl]
          exact Query.settles_of_value? fun _ => rfl
      | false => exact ihy (hfalse rfl)
  | prim _ | lit _ | app _ _ | param _ _ => exact single hr

end Leaves

theorem below_any_iff {m : Ty} : D.Below .any m ↔ m = .any ∨ m = .noType := by
  constructor
  · intro h
    by_contra hm
    refine not_below_any ?_ h
    rintro (h | h | h | h | h)
    · exact hm (.inl h.symm)
    · exact nomatch h
    · exact hm (.inr h)
    · exact nomatch h
    · exact hm (.inl h)
  · rintro (rfl | rfl)
    · exact D.below_any _
    · exact D.below_noType _

/-- Top is below some member of exactly the sets that accept all. -/
theorem acceptsAll_iff {s : TypeSet} : s.AcceptsAll ↔ ∃ m ∈ s.members, D.Below .any m := by
  constructor
  · rintro (h | h)
    · exact ⟨_, h, D.below_any _⟩
    · exact ⟨_, h, D.below_noType _⟩
  · rintro ⟨m, hm, h⟩
    rcases below_any_iff.1 h with rfl | rfl
    · exact .inl hm
    · exact .inr hm

theorem any_ends (u : Ty) : Ends fun n => D.subtypeWithin n .any u := by
  by_cases hat : HoldsAtOnce .any u
  · exact ends_of_holdsAtOnce hat
  · exact (D.any_refused hat).ends

/-- An answered test of a member has searched through the parts of the union. -/
theorem any_leaves_of_memberFits {t u : Ty} (hnever : t ≠ .never) {n : Nat} {b : Bool}
    (hb : ((D.within n).memberFits t (TypeSet.ofUnion u)).value? = some b) :
    (Query.any (D.subtypeWithin (n + 1) t) u.leaves).value? = some b := by
  unfold Hierarchy.memberFits at hb
  rw [if_neg hnever, TypeSet.ofUnion, TypeSet.value?_any_ofList] at hb
  refine Query.any_refines (fun m r hr => ?_) u.leaves b hb
  split at hr
  · rename_i hat
    obtain rfl : true = r := Option.some.inj hr
    unfold subtypeWithin
    rw [if_pos, Query.value?_pure]
    rcases hat with hno | heq
    · exact .inr (.inr (.inl hno))
    · exact .inl heq
  · exact D.subtypeWithin_refines n t m r hr

/-- A member fits a union when it is below it, and top also when the union accepts all. -/
theorem memberFits_agrees {t u : Ty} (ht : ∀ x y, t ≠ .union x y) {n : Nat} {b : Bool}
    (hb : ((D.within n).memberFits t (TypeSet.ofUnion u)).value? = some b) :
    (Ends fun n => D.subtypeWithin n t u) ∧
      (b = true ↔ D.Below t u ∨ t = .any ∧ (TypeSet.ofUnion u).AcceptsAll) := by
  have hsound := Hierarchy.memberFits_sound hb
  have fits_of_below : D.Below t u → b = true := by
    intro h
    refine hsound.2 ((exists_leaf_of_below ht h).imp_right fun ⟨m, hm, hbelow⟩ => ?_)
    exact ⟨m, TypeSet.mem_ofList.2 hm, hbelow⟩
  by_cases hany : t = .any
  · subst hany
    refine ⟨any_ends u, ?_⟩
    constructor
    · intro htrue
      rcases hsound.1 htrue with h | hexists
      · exact nomatch h
      · exact .inr ⟨rfl, (acceptsAll_iff (D := D)).2 hexists⟩
    · rintro (hbelow | ⟨-, haccepts⟩)
      · exact fits_of_below hbelow
      · exact hsound.2 (.inr ((acceptsAll_iff (D := D)).1 haccepts))
  simp only [hany, false_and, or_false]
  have below_of_once : HoldsAtOnce t u → (Ends fun n => D.subtypeWithin n t u) ∧
      (b = true ↔ D.Below t u) := by
    intro hat
    have hbelow := D.below_of_holdsAtOnce hat
    exact ⟨hbelow.ends, iff_of_true (fits_of_below hbelow) hbelow⟩
  by_cases hno : t = .noType
  · exact below_of_once (.inr (.inl hno))
  by_cases hnever : t = .never
  · exact below_of_once (.inr (.inr (.inr (.inl hnever))))
  have hsettles := settles_of_any_leaves ht hany hno hnever (any_leaves_of_memberFits hnever hb)
  refine ⟨hsettles.ends, ?_⟩
  constructor
  · rintro rfl
    exact hsettles
  · exact fun hbelow => hsettles.unique hbelow

end Declarations

namespace Hierarchy

variable {H : Hierarchy}

/-- An answered comparison of two sets has tested every candidate, and reports those that do not
fit. -/
theorem mismatch?_eq {candidates target : TypeSet} {result : Option Mismatch}
    (hresult : (H.mismatch? candidates target).value? = some result) :
    (∀ t ∈ candidates.members, ∃ b, (H.memberFits t target).value? = some b) ∧
      ∀ m, result = some m → m.missing =
        candidates.members.filter fun t => (H.memberFits t target).value? == some false := by
  obtain ⟨missing, hmissing, hanswer⟩ := Query.value?_bind_eq_some.1 hresult
  obtain ⟨hanswered, hfilter⟩ := Query.value?_filter_eq_some hmissing
  have hnot : ∀ t, (do return !(← H.memberFits t target) : Query Bool).value? =
      (H.memberFits t target).value?.map (!·) := fun t => Query.value?_map _ _
  refine ⟨fun t ht => ?_, ?_⟩
  · obtain ⟨b, hb⟩ := hanswered t ht
    rw [hnot, Option.map_eq_some_iff] at hb
    obtain ⟨fits, hfits, -⟩ := hb
    exact ⟨fits, hfits⟩
  · rintro m rfl
    have hresult : (if missing.isEmpty then none else some ⟨missing, target⟩) = some m :=
      Option.some.inj hanswer
    split at hresult
    · exact nomatch hresult
    · rw [← Option.some.inj hresult, hfilter]
      apply List.filter_congr
      intro t _
      rw [hnot]
      cases (H.memberFits t target).value? with
      | none => rfl
      | some b => cases b <;> rfl

/-- Whatever is remembered, membership compares the flattened types. -/
theorem value?_partOfUnion {cache : UnionCache} (hcache : cache.Valid) (a u : Ty) :
    (H.partOfUnion cache a u).value? =
      (H.mismatch? (TypeSet.ofUnion a) (TypeSet.ofUnion u)).value?.map
        (·, ((cache.expand u).2.expand a).2) := by
  obtain ⟨htarget, hvalid⟩ := hcache.expand u
  obtain ⟨hcandidates, -⟩ := hvalid.expand a
  rw [← htarget, ← hcandidates]
  exact Query.value?_map _ _

end Hierarchy

namespace Declarations

open Query (Ends)

variable {D : Declarations}

theorem memberFits_ends {t : Ty} {s : TypeSet} (hs : ∀ m ∈ s.members, D.SubtypeFinite t m) :
    Ends fun n => (D.within n).memberFits t s := by
  unfold Hierarchy.memberFits
  by_cases hnever : t = .never
  · simp only [if_pos hnever]
    exact Query.ends_pure true
  · simp only [if_neg hnever]
    refine Query.any_ends_of_mem fun m hm => ?_
    by_cases hat : m = .noType ∨ t = m
    · simp only [if_pos hat]
      exact Query.ends_pure true
    · simp only [if_neg hat]
      exact (hs m hm).ends

theorem mismatch?_ends {candidates target : TypeSet}
    (h : ∀ t ∈ candidates.members, ∀ m ∈ target.members, D.SubtypeFinite t m) :
    Ends fun n => (D.within n).mismatch? candidates target := by
  refine Ends.bind (Query.filter_ends_of_mem fun t ht => ?_) fun missing _ => Query.ends_pure _
  exact (memberFits_ends (h t ht)).map _

section Answered

variable {a u : Ty} {n : Nat}
  (hanswered : ∀ t ∈ (TypeSet.ofUnion a).members,
    ∃ b, ((D.within n).memberFits t (TypeSet.ofUnion u)).value? = some b)
include hanswered

/-- Where every member has been tested, the question about the whole type ends. -/
theorem ends_of_tested : Ends fun n => D.subtypeWithin n a u := by
  refine ends_of_leaves fun t ht => ?_
  obtain ⟨b, hb⟩ := hanswered t (TypeSet.mem_ofList.2 ht)
  exact (memberFits_agrees (Ty.ne_union_of_mem_leaves ht) hb).1

/-- What is part of a union is below it, or has top where the union accepts all. -/
theorem partOf_iff : D.PartOf a (TypeSet.ofUnion u) ↔
    D.Below a u ∨ .any ∈ (TypeSet.ofUnion a).members ∧ (TypeSet.ofUnion u).AcceptsAll := by
  constructor
  · intro hpart
    by_cases htop : .any ∈ (TypeSet.ofUnion a).members ∧ (TypeSet.ofUnion u).AcceptsAll
    · exact .inr htop
    refine .inl (below_of_leaves fun t ht => ?_)
    have hmem := TypeSet.mem_ofList.2 ht
    obtain ⟨b, hb⟩ := hanswered t hmem
    have hfits := (Hierarchy.memberFits_sound hb).2 (hpart t hmem)
    rcases (memberFits_agrees (Ty.ne_union_of_mem_leaves ht) hb).2.1 hfits with
      hbelow | ⟨rfl, haccepts⟩
    · exact hbelow
    · exact absurd ⟨hmem, haccepts⟩ htop
  · rintro (hbelow | ⟨-, haccepts⟩)
    · exact partOf_of_below hbelow
    · exact partOf_of_acceptsAll haccepts a

open Classical in
/-- Where the union does not accept all, the members that do not fit are those that are not
below it. -/
theorem filter_unfit (hu : ¬ (TypeSet.ofUnion u).AcceptsAll) :
    (TypeSet.ofUnion a).members.filter (fun t =>
        ((D.within n).memberFits t (TypeSet.ofUnion u)).value? == some false) =
      (TypeSet.ofUnion a).members.filter fun t => ¬ D.Below t u := by
  apply List.filter_congr
  intro t ht
  obtain ⟨b, hb⟩ := hanswered t ht
  have hagrees := (memberFits_agrees (Ty.ne_union_of_mem_leaves (TypeSet.mem_ofList.1 ht)) hb).2
  simp only [hu, and_false, or_false] at hagrees
  rw [hb, ← hagrees]
  cases b <;> simp

end Answered

open Classical in
/-- Membership in a union and subtyping agree, but for top as a member where the union accepts
all; what is reported as missing are the members that are not below the union, in their order. -/
theorem partOfUnion_agrees (D : Declarations) {cache : UnionCache} (hcache : cache.Valid)
    (a u : Ty) :
    (∀ n result later, ((D.within n).partOfUnion cache a u).value? = some (result, later) →
      (Ends fun n => D.subtypeWithin n a u) ∧
      (result = none ↔ D.Below a u ∨
        .any ∈ (TypeSet.ofUnion a).members ∧ (TypeSet.ofUnion u).AcceptsAll) ∧
      ∀ m, result = some m →
        m.missing = (TypeSet.ofUnion a).members.filter fun t => ¬ D.Below t u) ∧
    ((∀ t ∈ (TypeSet.ofUnion a).members, ∀ m ∈ (TypeSet.ofUnion u).members,
        D.SubtypeFinite t m) →
      Ends fun n => (D.within n).partOfUnion cache a u) := by
  constructor
  · intro n result later hresult
    rw [Hierarchy.value?_partOfUnion hcache, Option.map_eq_some_iff] at hresult
    obtain ⟨found, hmismatch, heq⟩ := hresult
    obtain ⟨rfl, -⟩ := Prod.mk.inj heq
    have hpart : found = none ↔ D.PartOf a (TypeSet.ofUnion u) :=
      Hierarchy.mismatch?_sound hmismatch
    obtain ⟨hanswered, hmissing⟩ := Hierarchy.mismatch?_eq hmismatch
    refine ⟨ends_of_tested hanswered, hpart.trans (partOf_iff hanswered), ?_⟩
    rintro m rfl
    have hrefuses : ¬ (TypeSet.ofUnion u).AcceptsAll :=
      fun haccepts => nomatch hpart.2 (partOf_of_acceptsAll haccepts a)
    rw [hmissing m rfl, filter_unfit hanswered hrefuses]
  · intro hfinite
    refine Ends.congr (fun n => ?_)
      ((mismatch?_ends hfinite).map (·, ((cache.expand u).2.expand a).2))
    rw [Hierarchy.value?_partOfUnion hcache]
    exact (Query.value?_map _ _).symm

/-- `Some[int] | str` against `Option[int] | bool`: `str` is reported, and is not below. -/
theorem partOfUnion_agrees_option :
    ({} : UnionCache).Valid ∧
      ((Workspace.initial.decls.within 4).partOfUnion {}
        (.union (.app ⟨1⟩ [.prim .int]) (.prim .str))
        (.union (.app ⟨0⟩ [.prim .int]) (.prim .bool))).value?.map (fun r => r.1.map (·.missing)) =
          some (some [.prim .str]) ∧
      ¬ Workspace.initial.decls.Below (.union (.app ⟨1⟩ [.prim .int]) (.prim .str))
        (.union (.app ⟨0⟩ [.prim .int]) (.prim .bool)) ∧
      ¬ Workspace.initial.decls.Below (.prim .str)
        (.union (.app ⟨0⟩ [.prim .int]) (.prim .bool)) := by
  have hrun : ((Workspace.initial.decls.within 4).partOfUnion {}
      (.union (.app ⟨1⟩ [.prim .int]) (.prim .str))
      (.union (.app ⟨0⟩ [.prim .int]) (.prim .bool))).value?.map
        (fun r => r.1.map (·.missing)) = some (some [.prim .str]) := by decide
  refine ⟨UnionCache.valid_empty, hrun, ?_⟩
  obtain ⟨⟨result, later⟩, hanswer, hresult⟩ := Option.map_eq_some_iff.1 hrun
  have hmap : result.map (·.missing) = some [.prim .str] := hresult
  obtain ⟨m, rfl, hm⟩ := Option.map_eq_some_iff.1 hmap
  obtain ⟨-, hnone, hmissing⟩ :=
    (Workspace.initial.decls.partOfUnion_agrees UnionCache.valid_empty _ _).1 4 _ _ hanswer
  have hstr : Ty.prim .str ∈ m.missing := by
    rw [hm]
    exact List.mem_singleton_self _
  rw [hmissing m rfl, List.mem_filter] at hstr
  exact ⟨fun hbelow => (nomatch hnone.2 (.inl hbelow)), by simpa using hstr.2⟩

/-- Not every part of a union is below it: top is part of `any | int`. -/
theorem exists_part_not_below :
    ¬ ∀ D : Declarations, D.Reachable → ∀ a u, D.Admits a → D.Admits u → ∀ n result later,
      ((D.within n).partOfUnion {} a u).value? = some (result, later) →
        (result = none ↔ D.Below a u) := by
  intro hall
  have hrun : ((Workspace.initial.decls.within 1).partOfUnion {} .any
      (.union .any (.prim .int))).value?.map Prod.fst = some none := by decide
  obtain ⟨⟨result, later⟩, hanswer, rfl⟩ := Option.map_eq_some_iff.1 hrun
  have hbelow := (hall _ .initial .any (.union .any (.prim .int)) (.prim .any)
    (.union (.prim .any) (.prim .int)) 1 _ later hanswer).1 rfl
  exact not_below_any (by simp [HoldsAtOnce]) hbelow

end Declarations

end CaseCover
