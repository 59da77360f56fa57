import CaseCover.Proofs.Hierarchy.Comparison
import CaseCover.Proofs.Pattern.Irrefutable
import CaseCover.Proofs.Pattern.Occurrences
import CaseCover.Proofs.Pattern.Remembered

/-!
What the witnesses of a pattern keep of its parts. A deconstruction lists one witness for each
choice of one witness per part (`exists_choice`), unless there are too many; the argument that a
witness has for a parameter is what was chosen for the one field of that parameter
(`Declarations.Reflects`, `argument_of_choice`). What other fields say is joined, widened or not
kept at all.
-/

namespace CaseCover

section Related

variable {α β : Type} {R : α → β → Prop} {as : List α} {bs : List β}

/-- In lists that are related element by element, each element of the first has a partner. -/
theorem exists_related (h : List.Forall₂ R as bs) {a : α} (ha : a ∈ as) : ∃ b ∈ bs, R a b := by
  induction h with
  | nil => cases ha
  | cons hab hrest ih =>
      rcases List.mem_cons.1 ha with rfl | ha
      · exact ⟨_, List.mem_cons_self, hab⟩
      · obtain ⟨b, hb, hab⟩ := ih ha
        exact ⟨b, List.mem_cons_of_mem _ hb, hab⟩

/-- And so has each element of the second. -/
theorem exists_related_to (h : List.Forall₂ R as bs) {b : β} (hb : b ∈ bs) : ∃ a ∈ as, R a b :=
  exists_related h.flip hb

end Related

namespace Query

variable {α β : Type}

/-- The results over a list are those of its elements. -/
theorem forall₂_of_value?_each {f : α → Query β} {as : List α} {bs : List β}
    (hbs : (each f as).value? = some bs) :
    List.Forall₂ (fun a b => (f a).value? = some b) as bs := by
  induction as generalizing bs with
  | nil =>
      obtain rfl : [] = bs := Option.some.inj hbs
      exact .nil
  | cons a as ih =>
      obtain ⟨b, hb, hbs⟩ := value?_bind_eq_some.1 hbs
      obtain ⟨others, hothers, hbs⟩ := value?_bind_eq_some.1 hbs
      obtain rfl : b :: others = bs := Option.some.inj hbs
      exact .cons hb (ih hothers)

theorem each_map {γ : Type} (f : β → Query γ) (g : α → β) (as : List α) :
    each f (as.map g) = each (fun a => f (g a)) as := by
  induction as with
  | nil => rfl
  | cons a as ih => rw [List.map_cons, each, each, ih]

end Query

namespace Declarations

/-- A parameter stands as it is for one field and occurs in no other, and what is below an
application has a smaller argument for it. -/
structure Reflects (D : Declarations) (d : DataId) (field param : Nat) : Prop where
  declared : ∃ f, (D.get d).fields[field]? = some f ∧ f.ty = .param d param
  single : ∀ o ∈ (D.alignment d).flatten, o.param = param → o = ⟨field, param, []⟩
  kept : ∃ p, (D.get d).params[param]? = some p ∧ p.variance ≠ .contravariant

theorem Reflects.occurs {D : Declarations} {d : DataId} {field param : Nat}
    (h : D.Reflects d field param) :
    (⟨field, param, []⟩ : Occurrence) ∈ (D.alignment d).flatten := by
  obtain ⟨f, hf, hty⟩ := h.declared
  exact mem_alignment_iff.2 ⟨f, hf, hty ▸ .here⟩

end Declarations

/-- At its top, through names and alternations, a pattern ascribes a type and nothing else. -/
inductive Pattern.OnlyAscribes : Pattern → Prop
  | here {n : PatternNode} {p : Pattern} {t : Ty} (hp : p.isCatchAll = true) :
      OnlyAscribes (.typed n p t)
  | named {n : PatternNode} {x : String} {p : Pattern} (h : OnlyAscribes p) :
      OnlyAscribes (.named n x p)
  | branch {n : PatternNode} {branches : List Pattern} {p : Pattern} (hp : p ∈ branches)
      (h : OnlyAscribes p) : OnlyAscribes (.alternation n branches)

namespace PatternType

/-- The type and all witnesses are applications of a data type. -/
structure Applies (r : PatternType) (d : DataId) : Prop where
  ty : ∃ args, r.ty = .app d args
  witnesses : ∀ w ∈ r.witnesses, ∃ args, w = .app d args

theorem proofs_eq_witnesses {r : PatternType} (h : r.witnesses ≠ []) : r.proofs = r.witnesses := by
  rw [proofs, if_neg (by simpa using h)]

theorem mem_proofs_of_mem_witnesses {r : PatternType} {w : Ty} (hw : w ∈ r.witnesses) :
    w ∈ r.proofs := by
  rwa [proofs_eq_witnesses (List.ne_nil_of_mem hw)]

theorem eq_ty_or_mem_of_mem_proofs {r : PatternType} {w : Ty} (hw : w ∈ r.proofs) :
    w = r.ty ∨ w ∈ r.witnesses := by
  unfold proofs at hw
  split at hw
  · exact .inl (List.mem_singleton.1 hw)
  · exact .inr hw

theorem proofs_ne_nil (r : PatternType) : r.proofs ≠ [] := by
  by_cases h : r.witnesses = []
  · simp [proofs, h]
  · rwa [proofs_eq_witnesses h]

theorem Applies.proofs {r : PatternType} {d : DataId} (h : r.Applies d) :
    ∀ w ∈ r.proofs, ∃ args, w = .app d args := by
  intro w hw
  rcases eq_ty_or_mem_of_mem_proofs hw with rfl | hw
  · exact h.ty
  · exact h.witnesses w hw

theorem applies_singleton (d : DataId) (args : List Ty) :
    (singleton (.app d args)).Applies d :=
  ⟨⟨args, rfl⟩, fun _ hw => ⟨args, List.mem_singleton.1 hw⟩⟩

end PatternType

namespace Extractor

open Extraction (answer_bind_eq_ok answer_pure_eq_ok answer_ask_eq_ok)

variable {E : Extractor}

theorem choices_ne_nil {α : Type} {lists : List (List α)}
    (hne : ∀ options ∈ lists, options ≠ []) : choices lists ≠ [] := by
  induction lists with
  | nil => simp [choices]
  | cons first rest ih =>
      obtain ⟨a, ha⟩ := List.exists_mem_of_ne_nil first (hne first List.mem_cons_self)
      obtain ⟨choice, hchoice⟩ := List.exists_mem_of_ne_nil _
        (ih fun options h => hne options (List.mem_cons_of_mem first h))
      exact List.ne_nil_of_mem (List.mem_flatMap.2 ⟨a, ha, List.mem_map_of_mem hchoice⟩)

/-- Any element of one of the lists is part of a choice, if no list is empty. -/
theorem exists_choice {α : Type} {lists : List (List α)} (hne : ∀ options ∈ lists, options ≠ [])
    {i : Nat} {options : List α} (hi : lists[i]? = some options) {a : α} (ha : a ∈ options) :
    ∃ choice ∈ choices lists, choice[i]? = some a := by
  induction lists generalizing i with
  | nil => simp at hi
  | cons first rest ih =>
      have hrest : ∀ options ∈ rest, options ≠ [] :=
        fun options h => hne options (List.mem_cons_of_mem first h)
      cases i with
      | zero =>
          obtain rfl := Option.some.inj hi
          obtain ⟨choice, hchoice⟩ := List.exists_mem_of_ne_nil _ (choices_ne_nil hrest)
          exact ⟨a :: choice, List.mem_flatMap.2 ⟨a, ha, List.mem_map_of_mem hchoice⟩, rfl⟩
      | succ i =>
          obtain ⟨b, hb⟩ := List.exists_mem_of_ne_nil first (hne first List.mem_cons_self)
          obtain ⟨choice, hchoice, hget⟩ := ih hrest hi
          exact ⟨b :: choice, List.mem_flatMap.2 ⟨b, hb, List.mem_map_of_mem hchoice⟩, hget⟩

section Arguments

/-- A type joined with itself stays as it is. -/
theorem lub_self {H : Hierarchy} {u joined : Ty} (h : (H.lub u u).value? = some joined) :
    joined = u := by
  obtain ⟨D, limit⟩ := H
  cases limit with
  | zero => cases h
  | succ n =>
      unfold Hierarchy.lub Declarations.lubWithin at h
      rw [if_pos rfl] at h
      exact (Option.some.inj h).symm

/-- A type joined with itself has a join. -/
theorem value?_lub_self {H : Hierarchy} (hlimit : 0 < H.limit) (t : Ty) :
    (H.lub t t).value? = some t := by
  obtain ⟨D, limit⟩ := H
  obtain ⟨n, rfl⟩ := Nat.exists_eq_add_one.2 hlimit
  simp [Hierarchy.lub, Declarations.lubWithin]

/-- A type joined with itself any number of times stays as it is. -/
theorem lubAll_self {H : Hierarchy} {u r : Ty} {ts : List Ty} (hts : ∀ t ∈ ts, t = u)
    (hne : ts ≠ []) (h : (H.lubAll ts).value? = some r) : r = u := by
  have fold : ∀ rest : List Ty, (∀ t ∈ rest, t = u) →
      (Query.fold H.lub u rest).value? = some r → r = u := by
    intro rest hrest h
    induction rest with
    | nil => exact (Option.some.inj h).symm
    | cons t rest ih =>
        obtain ⟨ht, hrest⟩ := List.forall_mem_cons.1 hrest
        obtain ⟨joined, hjoined, hlater⟩ := Query.value?_bind_eq_some.1 h
        rw [ht] at hjoined
        obtain rfl := lub_self hjoined
        exact ih hrest hlater
  obtain ⟨t, rest, rfl⟩ := List.exists_cons_of_ne_nil hne
  obtain ⟨rfl, hrest⟩ := List.forall_mem_cons.1 hts
  exact fold rest hrest h

/-- What is said about one parameter changes no other. -/
theorem bindAligned_other {bindings next : List (Option Ty)} {a : Nat × Ty} {param : Nat}
    (ha : a.1 ≠ param) (h : (E.bindAligned bindings a).value? = some next) :
    next[param]? = bindings[param]? := by
  unfold bindAligned at h
  split at h
  · obtain rfl := Option.some.inj h
    rfl
  · obtain rfl := Option.some.inj h
    exact List.getElem?_set_ne ha
  · obtain ⟨joined, -, h⟩ := Query.value?_bind_eq_some.1 h
    obtain rfl := Option.some.inj h
    exact List.getElem?_set_ne ha

/-- What is said about a parameter, in the order of the occurrences. -/
def said (param : Nat) (aligned : List (Nat × Ty)) : List Ty :=
  (aligned.filter (·.1 = param)).map Prod.snd

theorem said_cons_same (t : Ty) (param : Nat) (aligned : List (Nat × Ty)) :
    said param ((param, t) :: aligned) = t :: said param aligned := by
  simp [said]

theorem said_cons_other {a : Nat × Ty} {param : Nat} (ha : a.1 ≠ param)
    (aligned : List (Nat × Ty)) : said param (a :: aligned) = said param aligned := by
  simp [said, ha]

theorem mem_said {t : Ty} {param : Nat} {aligned : List (Nat × Ty)} :
    t ∈ said param aligned ↔ (param, t) ∈ aligned := by
  simp [said]

variable {aligned : List (Nat × Ty)} {param : Nat} {start bindings : List (Option Ty)}

theorem length_of_bindAligned {a : Nat × Ty} (h : (E.bindAligned start a).value? = some bindings) :
    bindings.length = start.length := by
  unfold bindAligned at h
  split at h
  · obtain rfl := Option.some.inj h
    rfl
  · obtain rfl := Option.some.inj h
    exact List.length_set
  · obtain ⟨joined, -, h⟩ := Query.value?_bind_eq_some.1 h
    obtain rfl := Option.some.inj h
    exact List.length_set

theorem length_of_fold (h : (Query.fold E.bindAligned start aligned).value? = some bindings) :
    bindings.length = start.length := by
  induction aligned generalizing start with
  | nil =>
      obtain rfl := Option.some.inj h
      rfl
  | cons a aligned ih =>
      obtain ⟨next, hnext, hrest⟩ := Query.value?_bind_eq_some.1 h
      rw [ih hrest, length_of_bindAligned hnext]

/-- A parameter of which something is known is bound to the join of that and all that is said. -/
theorem bound_of_known {known : Ty} (hstart : start[param]? = some (some known))
    (h : (Query.fold E.bindAligned start aligned).value? = some bindings) :
    ∃ r, (Query.fold E.hierarchy.lub known (said param aligned)).value? = some r ∧
      bindings[param]? = some (some r) := by
  induction aligned generalizing start known with
  | nil => exact ⟨known, rfl, Option.some.inj h ▸ hstart⟩
  | cons a aligned ih =>
      obtain ⟨index, t⟩ := a
      obtain ⟨next, hnext, hrest⟩ := Query.value?_bind_eq_some.1 h
      by_cases ha : index = param
      · subst ha
        unfold bindAligned at hnext
        rw [hstart] at hnext
        obtain ⟨joined, hjoined, hnext⟩ := Query.value?_bind_eq_some.1 hnext
        obtain rfl := Option.some.inj hnext
        obtain ⟨hlt, -⟩ := List.getElem?_eq_some_iff.1 hstart
        obtain ⟨r, hr, hbound⟩ := ih (List.getElem?_set_self hlt) hrest
        rw [said_cons_same]
        exact ⟨r, Query.value?_bind_eq_some.2 ⟨joined, hjoined, hr⟩, hbound⟩
      · rw [said_cons_other ha]
        exact ih ((bindAligned_other ha hnext).trans hstart) hrest

/-- A parameter of which nothing is known is bound to the join of all that is said, and stays open
if nothing is said. -/
theorem bound_of_open (hstart : start[param]? = some none)
    (h : (Query.fold E.bindAligned start aligned).value? = some bindings) :
    said param aligned = [] ∧ bindings[param]? = some none ∨
      ∃ r, (E.hierarchy.lubAll (said param aligned)).value? = some r ∧
        bindings[param]? = some (some r) := by
  induction aligned generalizing start with
  | nil => exact .inl ⟨rfl, Option.some.inj h ▸ hstart⟩
  | cons a aligned ih =>
      obtain ⟨index, t⟩ := a
      obtain ⟨next, hnext, hrest⟩ := Query.value?_bind_eq_some.1 h
      by_cases ha : index = param
      · subst ha
        unfold bindAligned at hnext
        rw [hstart] at hnext
        obtain rfl := Option.some.inj hnext
        obtain ⟨hlt, -⟩ := List.getElem?_eq_some_iff.1 hstart
        rw [said_cons_same]
        exact .inr (bound_of_known (List.getElem?_set_self hlt) hrest)
      · rw [said_cons_other ha]
        exact ih ((bindAligned_other ha hnext).trans hstart) hrest

/-- An argument is the join of what is said about its parameter, and open if nothing is. -/
theorem arguments_of_said {d : DataId} {w : Ty}
    (hw : (E.applyAligned d aligned).value? = some w) :
    ∃ args, w = .app d args ∧ args.length = (E.hierarchy.decls.get d).arity ∧
      ∀ (param : Nat) u, args[param]? = some u → said param aligned = [] ∧ u = .noType ∨
        (E.hierarchy.lubAll (said param aligned)).value? = some u := by
  obtain ⟨bindings, hbindings, hw⟩ := Query.value?_bind_eq_some.1 hw
  have hlength := length_of_fold hbindings
  rw [List.length_replicate] at hlength
  refine ⟨_, (Option.some.inj hw).symm, by rw [List.length_map, hlength], fun param u hu => ?_⟩
  rw [List.getElem?_map, Option.map_eq_some_iff] at hu
  obtain ⟨b, hb, rfl⟩ := hu
  have hlt : param < (E.hierarchy.decls.get d).arity :=
    hlength ▸ (List.getElem?_eq_some_iff.1 hb).1
  rcases bound_of_open (List.getElem?_replicate_of_lt hlt) hbindings with
    ⟨hsilent, hopen⟩ | ⟨r, hr, hbound⟩
  · obtain rfl := Option.some.inj (hb.symm.trans hopen)
    exact .inl ⟨hsilent, rfl⟩
  · obtain rfl := Option.some.inj (hb.symm.trans hbound)
    exact .inr hr

/-- The argument for a parameter that stands for one field is the type of that field. -/
theorem argument_of_choice {d : DataId} {field param : Nat}
    (hreflects : E.hierarchy.decls.Reflects d field param) {types : List Ty}
    {aligned : List (Nat × Ty)} {w u : Ty} (hu : types[field]? = some u)
    (haligned : (E.alignFields d (E.hierarchy.decls.alignment d) types).value? = some aligned)
    (hw : (E.applyAligned d aligned).value? = some w) :
    ∃ args, w = .app d args ∧ args[param]? = some u := by
  obtain ⟨f, hf, hty⟩ := hreflects.declared
  obtain ⟨p, hp, -⟩ := hreflects.kept
  unfold alignFields at haligned
  have hmem : (param, u) ∈ aligned := by
    refine Query.mem_value?_filterMap haligned hreflects.occurs ?_
    simp only [hf, hu]
    rfl
  -- Only the field itself speaks of the parameter, so that nothing is joined with `u`.
  have hall : ∀ t ∈ said param aligned, t = u := by
    intro t ht
    obtain ⟨o, ho, hfound⟩ := Query.mem_of_value?_filterMap haligned (mem_said.1 ht)
    split at hfound
    · rename_i f' t' hf' ht'
      obtain ⟨hparam, rfl⟩ := Prod.mk.inj (Option.some.inj (Option.some.inj hfound))
      obtain rfl := hreflects.single o ho hparam
      exact Option.some.inj (ht'.symm.trans hu)
    · cases Option.some.inj hfound
  obtain ⟨args, rfl, hlength, hargs⟩ := arguments_of_said hw
  have hlt : param < args.length := hlength ▸ (List.getElem?_eq_some_iff.1 hp).1
  refine ⟨args, rfl, ?_⟩
  rcases hargs param _ (List.getElem?_eq_getElem hlt) with ⟨hsilent, -⟩ | hjoin
  · exact absurd (mem_said.2 hmem) (hsilent ▸ List.not_mem_nil)
  · rw [List.getElem?_eq_getElem hlt, lubAll_self hall (List.ne_nil_of_mem (mem_said.2 hmem)) hjoin]

end Arguments

section Deconstructions

/-- The type of a product applies it to what the types of the fields say, with literals widened. -/
theorem type_of_combineProduct {d : DataId} {alignment : List (List Occurrence)}
    {results : List (List PatternType)} {r : PatternType}
    (hr : (E.combineProduct d alignment results).value? = some r) :
    ∃ types aligned,
      (Query.each (fun found => E.hierarchy.lubAll (found.map PatternType.ty)) results).value? =
        some types ∧ (E.alignFields d alignment types).value? = some aligned ∧
      (E.applyAligned d (aligned.map fun a => (a.1, a.2.widen))).value? = some r.ty := by
  unfold combineProduct at hr
  obtain ⟨types, htypes, hr⟩ := Query.value?_bind_eq_some.1 hr
  obtain ⟨aligned, haligned, hr⟩ := Query.value?_bind_eq_some.1 hr
  obtain ⟨ty, hty, hr⟩ := Query.value?_bind_eq_some.1 hr
  refine ⟨types, aligned, htypes, haligned, ?_⟩
  split at hr
  · rw [← Option.some.inj hr]
    exact hty
  · obtain ⟨witnesses, -, hr⟩ := Query.value?_bind_eq_some.1 hr
    rw [← Option.some.inj hr]
    exact hty

/-- The type of an extractor applies its data type to the join of what the elements yield. -/
theorem type_of_combineExtractor {d : DataId} {results : List (List PatternType)} {r : PatternType}
    (hr : (E.combineExtractor d results).value? = some r) :
    results = [] ∧ r.ty = .app d [.never] ∨ results ≠ [] ∧ ∃ element,
      (E.hierarchy.lubAll (results.flatten.map PatternType.ty)).value? = some element ∧
        r.ty = .app d [element.widen] := by
  unfold combineExtractor at hr
  split at hr
  · rename_i hempty
    rw [← Option.some.inj hr]
    exact .inl ⟨List.isEmpty_iff.1 hempty, rfl⟩
  · rename_i hempty
    obtain ⟨element, helement, hr⟩ := Query.value?_bind_eq_some.1 hr
    obtain ⟨ty, hty, hr⟩ := Query.value?_bind_eq_some.1 hr
    obtain rfl := Option.some.inj hty
    refine .inr ⟨fun h => hempty (List.isEmpty_iff.2 h), element, helement, ?_⟩
    split at hr
    · rw [← Option.some.inj hr]
      rfl
    · obtain ⟨witnesses, -, hr⟩ := Query.value?_bind_eq_some.1 hr
      rw [← Option.some.inj hr]
      rfl

/-- The pattern type of a product applies its data type. Either there are too many choices and
its type is the only witness, or each choice has a witness that joins what the chosen witnesses
say about the parameters. -/
theorem combineProduct_inversion {d : DataId} {alignment : List (List Occurrence)}
    {results : List (List PatternType)} {r : PatternType}
    (hr : (E.combineProduct d alignment results).value? = some r) :
    r.Applies d ∧
      ((¬ choiceCount (results.map proofs) ≤ max 1 E.maxWitnesses ∧ r.witnesses = [r.ty]) ∨
        ∀ choice ∈ choices (results.map proofs), ∃ w ∈ r.witnesses, ∃ aligned,
          (E.alignFields d alignment choice).value? = some aligned ∧
            (E.applyAligned d aligned).value? = some w) := by
  unfold combineProduct at hr
  obtain ⟨types, -, hr⟩ := Query.value?_bind_eq_some.1 hr
  obtain ⟨aligned, -, hr⟩ := Query.value?_bind_eq_some.1 hr
  obtain ⟨ty, hty, hr⟩ := Query.value?_bind_eq_some.1 hr
  obtain ⟨args, rfl⟩ := applyAligned_eq_app hty
  unfold choices? at hr
  by_cases hcount : choiceCount (results.map proofs) ≤ max 1 E.maxWitnesses
  · rw [if_pos hcount] at hr
    obtain ⟨witnesses, hwitnesses, hr⟩ := Query.value?_bind_eq_some.1 hr
    obtain rfl := Option.some.inj hr
    have hlisted := Query.forall₂_of_value?_each hwitnesses
    refine ⟨⟨⟨args, rfl⟩, fun w hw => ?_⟩, .inr fun choice hchoice => ?_⟩
    · obtain ⟨choice, -, hw⟩ := Query.mem_of_value?_each hwitnesses (List.mem_eraseDups.1 hw)
      obtain ⟨aligned, -, hw⟩ := Query.value?_bind_eq_some.1 hw
      exact applyAligned_eq_app hw
    · obtain ⟨w, hw, hmade⟩ := exists_related hlisted hchoice
      exact ⟨w, List.mem_eraseDups.2 hw, Query.value?_bind_eq_some.1 hmade⟩
  · rw [if_neg hcount] at hr
    obtain rfl := Option.some.inj hr
    exact ⟨PatternType.applies_singleton d args, .inl ⟨hcount, rfl⟩⟩

/-- The pattern type of an extractor applies its data type, and has a witness. -/
theorem combineExtractor_inversion {d : DataId} {results : List (List PatternType)}
    {r : PatternType} (hr : (E.combineExtractor d results).value? = some r) :
    r.Applies d ∧ (choices (results.map proofs) ≠ [] → r.witnesses ≠ []) := by
  unfold combineExtractor at hr
  split at hr
  · obtain rfl := Option.some.inj hr
    exact ⟨PatternType.applies_singleton d _, fun _ => by simp [PatternType.singleton]⟩
  obtain ⟨element, -, hr⟩ := Query.value?_bind_eq_some.1 hr
  obtain ⟨ty, hty, hr⟩ := Query.value?_bind_eq_some.1 hr
  obtain rfl := Option.some.inj hty
  unfold choices? at hr
  by_cases hcount : choiceCount (results.map proofs) ≤ max 1 E.maxWitnesses
  · rw [if_pos hcount] at hr
    obtain ⟨witnesses, hwitnesses, hr⟩ := Query.value?_bind_eq_some.1 hr
    obtain rfl := Option.some.inj hr
    refine ⟨⟨⟨_, rfl⟩, fun w hw => ?_⟩, fun hchoices => ?_⟩
    · obtain ⟨choice, -, hw⟩ := Query.mem_of_value?_each hwitnesses (List.mem_eraseDups.1 hw)
      obtain ⟨joined, -, hw⟩ := Query.value?_bind_eq_some.1 hw
      exact ⟨[joined], (Option.some.inj hw).symm⟩
    · have hlength := (Query.forall₂_of_value?_each hwitnesses).length_eq
      have hpos : 0 < witnesses.length := hlength ▸ List.length_pos_iff.2 hchoices
      exact List.ne_nil_of_mem (List.mem_eraseDups.2 (List.getElem_mem hpos))
  · rw [if_neg hcount] at hr
    obtain rfl := Option.some.inj hr
    exact ⟨PatternType.applies_singleton d _, fun _ => by simp⟩

end Deconstructions

section Yields

/-- The pattern types that a pattern is evaluated to, with nothing remembered. -/
def Yields (E : Extractor) (p : Pattern) (found : List PatternType) : Prop :=
  ∃ later, (E.evaluate p).answer {} = some (.ok found, later)

variable {fields later : FieldCache} {found : List PatternType}

/-- A pattern yields the same pattern types whatever valid alignments are remembered. -/
theorem yields_of_evaluate {p : Pattern} (hfields : fields.Valid E.hierarchy.decls)
    (h : (E.evaluate p).answer fields = some (.ok found, later)) :
    E.Yields p found ∧ later.Valid E.hierarchy.decls := by
  obtain ⟨hlater, hfound⟩ := (E.indifferent_evaluate p).answer_empty hfields h
  obtain ⟨⟨result, last⟩, hanswer, hresult⟩ := Option.map_eq_some_iff.1 hfound
  obtain rfl : result = .ok found := hresult
  exact ⟨⟨last, hanswer⟩, hlater⟩

theorem yields_of_evaluateAll {parts : List Pattern} {results : List (List PatternType)}
    (hfields : fields.Valid E.hierarchy.decls)
    (h : (E.evaluateAll parts).answer fields = some (.ok results, later)) :
    List.Forall₂ E.Yields parts results ∧ later.Valid E.hierarchy.decls := by
  induction parts generalizing fields later results with
  | nil =>
      obtain ⟨rfl, rfl⟩ := answer_pure_eq_ok.1 h
      exact ⟨.nil, hfields⟩
  | cons p parts ih =>
      obtain ⟨first, between, others, hfirst, hothers, rfl⟩ := evaluateAll_cons_eq_ok.1 h
      obtain ⟨hyields, hbetween⟩ := yields_of_evaluate hfields hfirst
      obtain ⟨hrest, hlater⟩ := ih hbetween hothers
      exact ⟨.cons hyields hrest, hlater⟩

/-- A node yields what its combination makes of what its parts yield. -/
theorem yields_of_node {p : Pattern} (h : (E.checkRest p >>= fun _ =>
      E.evaluateAll p.parts >>= E.combine p).answer {} = some (.ok found, later)) :
    ∃ results between last, List.Forall₂ E.Yields p.parts results ∧
      between.Valid E.hierarchy.decls ∧
        (E.combine p results).answer between = some (.ok found, last) := by
  obtain ⟨_, checked, hcheck, hrest⟩ := answer_bind_eq_ok.1 h
  have hchecked := ((E.indifferent_checkRest p).answer_empty (FieldCache.valid_empty _) hcheck).1
  obtain ⟨results, between, hresults, hcombine⟩ := answer_bind_eq_ok.1 hrest
  obtain ⟨hyields, hbetween⟩ := yields_of_evaluateAll hchecked hresults
  exact ⟨results, between, later, hyields, hbetween, hcombine⟩

/-- A pattern that is evaluated at once yields nothing else. -/
theorem Yields.eq_of_evaluate {p : Pattern} {types : List PatternType} (h : E.Yields p found)
    (hp : E.evaluate p = pure types) : found = types := by
  obtain ⟨later, h⟩ := h
  rw [hp] at h
  exact (answer_pure_eq_ok.1 h).1

/-- What an ascribed pattern yields, narrowed by the ascription, which is a further witness. -/
theorem Yields.reprojected {n : PatternNode} {p : Pattern} {t : Ty} (hp : ¬ p.isCatchAll = true)
    (h : E.Yields (.typed n p t) found) : ∃ inner, E.Yields p inner ∧
      List.Forall₂ (fun r r' => (reproject E.hierarchy r.ty t).value? = some r'.ty ∧
        r'.witnesses = t :: r.witnesses) inner found := by
  obtain ⟨later, h⟩ := h
  rw [evaluate, if_neg hp] at h
  obtain ⟨inner, between, hinner, hcombine⟩ := answer_bind_eq_ok.1 h
  have hanswers := Query.forall₂_of_value?_each (answer_ask_eq_ok.1 hcombine).1
  rw [List.flatten_singleton] at hanswers
  refine ⟨inner, ⟨between, hinner⟩, hanswers.imp fun r r' hr => ?_⟩
  obtain ⟨ty, hty, hr⟩ := Query.value?_bind_eq_some.1 hr
  obtain rfl := Option.some.inj hr
  exact ⟨hty, rfl⟩

theorem Yields.typed {n : PatternNode} {p : Pattern} {t : Ty} (hp : ¬ p.isCatchAll = true)
    (h : E.Yields (.typed n p t) found) : ∃ inner, E.Yields p inner ∧
      List.Forall₂ (fun r r' => r'.witnesses = t :: r.witnesses) inner found := by
  obtain ⟨inner, hinner, hfound⟩ := h.reprojected hp
  exact ⟨inner, hinner, hfound.imp fun _ _ hr => hr.2⟩

theorem Yields.ascription {n : PatternNode} {p : Pattern} {t : Ty} (hp : p.isCatchAll = true)
    (h : E.Yields (.typed n p t) found) : found = [.ascription t] :=
  h.eq_of_evaluate (by rw [evaluate, if_pos hp])

theorem Yields.alternation {n : PatternNode} {branches : List Pattern}
    (h : E.Yields (.alternation n branches) found) : branches ≠ [] ∧ ∃ results,
      List.Forall₂ E.Yields branches results ∧ found = results.flatten := by
  obtain ⟨later, h⟩ := h
  cases branches with
  | nil =>
      rw [evaluate] at h
      exact absurd h Extraction.answer_refuse_ne_ok
  | cons p rest =>
      rw [evaluate] at h
      obtain ⟨results, between, last, hyields, -, hcombine⟩ :=
        yields_of_node (p := .alternation n (p :: rest)) h
      exact ⟨by simp, results, hyields, (answer_pure_eq_ok.1 hcombine).1⟩

/-- A deconstruction has one pattern type: that of a singleton's value, or what is made of what the
parts of a product yield. -/
theorem Yields.deconstruction {n : PatternNode} {d : DataId} {parts : List Pattern}
    (h : E.Yields (.variant n d parts) found) : ∃ r results, found = [r] ∧
      List.Forall₂ E.Yields parts results ∧
      (((E.hierarchy.decls.get d).isSingleton = true ∧ results = [] ∧
        r = .singleton (.app d (List.replicate (E.hierarchy.decls.get d).arity .noType))) ∨
      ((E.hierarchy.decls.get d).isSingleton = false ∧
        (E.combineProduct d (E.hierarchy.decls.alignment d) results).value? = some r)) := by
  obtain ⟨later, h⟩ := h
  rw [evaluate] at h
  obtain ⟨results, between, last, hyields, hbetween, hcombine⟩ :=
    yields_of_node (p := .variant n d parts) h
  obtain ⟨r, last, hr, hdone⟩ := answer_bind_eq_ok.1 hcombine
  obtain ⟨rfl, -⟩ := answer_pure_eq_ok.1 hdone
  rw [← (hbetween.resolve d).1]
  exact ⟨r, results, rfl, hyields, combineVariant_eq_ok hr⟩

/-- The pattern type of a deconstruction applies its data type. -/
theorem Yields.variant {n : PatternNode} {d : DataId} {parts : List Pattern}
    (h : E.Yields (.variant n d parts) found) : ∃ r, found = [r] ∧ r.Applies d ∧
      (parts = [] ∧ r.witnesses = [r.ty] ∨ ∃ results, List.Forall₂ E.Yields parts results ∧
        (E.combineProduct d (E.hierarchy.decls.alignment d) results).value? = some r) := by
  obtain ⟨r, results, rfl, hyields, ⟨-, rfl, rfl⟩ | ⟨-, hproduct⟩⟩ := h.deconstruction
  · exact ⟨_, rfl, PatternType.applies_singleton d _,
      .inl ⟨List.forall₂_nil_right_iff.1 hyields, rfl⟩⟩
  · exact ⟨r, rfl, (combineProduct_inversion hproduct).1, .inr ⟨results, hyields, hproduct⟩⟩

theorem Yields.extractor {n : PatternNode} {d : DataId} {parts : List Pattern}
    (h : E.Yields (.extractor n d parts) found) : ∃ r results, found = [r] ∧
      List.Forall₂ E.Yields parts results ∧ (E.combineExtractor d results).value? = some r := by
  obtain ⟨later, h⟩ := h
  rw [evaluate] at h
  obtain ⟨results, between, last, hyields, -, hcombine⟩ :=
    yields_of_node (p := .extractor n d parts) h
  obtain ⟨r, hr, rfl⟩ := combine_extractor_eq_ok hcombine
  exact ⟨r, results, rfl, hyields, hr⟩

/-- Only a data type of one parameter has extractors. -/
theorem Yields.arity_of_extractor {n : PatternNode} {d : DataId} {parts : List Pattern}
    (h : E.Yields (.extractor n d parts) found) : (E.hierarchy.decls.get d).arity = 1 := by
  obtain ⟨later, h⟩ := h
  rw [evaluate] at h
  obtain ⟨results, between, last, -, -, hcombine⟩ :=
    yields_of_node (p := .extractor n d parts) h
  by_contra harity
  unfold combine at hcombine
  simp only [if_neg harity] at hcombine
  exact Extraction.answer_refuse_ne_ok hcombine

theorem Yields.literal {n : PatternNode} {v : Literal} (h : E.Yields (.literal n v) found) :
    found = [.singleton (.ofLiteral v)] := by
  obtain ⟨later, h⟩ := h
  rw [evaluate] at h
  obtain ⟨ty, between, hty, hdone⟩ := answer_bind_eq_ok.1 h
  obtain rfl := Option.some.inj (answer_ask_eq_ok.1 hty).1
  exact (answer_pure_eq_ok.1 hdone).1

theorem Yields.ne_nil {p : Pattern} (h : E.Yields p found) : found ≠ [] := by
  induction p generalizing found with
  | wildcard _ | binding _ _ | rest _ => simp [h.eq_of_evaluate (by rw [evaluate])]
  | literal n v => simp [h.literal]
  | named n x p ih =>
      rw [Yields, evaluate] at h
      exact ih h
  | typed n p t ih =>
      by_cases hp : p.isCatchAll = true
      · simp [h.ascription hp]
      · obtain ⟨inner, hinner, hfound⟩ := h.typed hp
        rintro rfl
        exact ih hinner (List.forall₂_nil_right_iff.1 hfound)
  | variant n d parts =>
      obtain ⟨r, rfl, -⟩ := h.variant
      simp
  | extractor n d parts =>
      obtain ⟨r, results, rfl, -⟩ := h.extractor
      simp
  | alternation n branches ih =>
      obtain ⟨hne, results, hresults, rfl⟩ := h.alternation
      cases hresults with
      | nil => exact absurd rfl hne
      | cons hfirst _ =>
          intro hnil
          exact ih _ List.mem_cons_self hfirst (List.append_eq_nil_iff.1 hnil).1

/-- What a part yields has a witness. -/
theorem proofs_ne_nil_of_yields {parts : List Pattern} {results : List (List PatternType)}
    (h : List.Forall₂ E.Yields parts results) :
    ∀ options ∈ results.map proofs, options ≠ [] := by
  intro options hoptions
  obtain ⟨result, hresult, rfl⟩ := List.mem_map.1 hoptions
  obtain ⟨p, -, hyields⟩ := exists_related_to h hresult
  obtain ⟨r, hr⟩ := List.exists_mem_of_ne_nil _ hyields.ne_nil
  obtain ⟨w, hw⟩ := List.exists_mem_of_ne_nil _ r.proofs_ne_nil
  exact List.ne_nil_of_mem (List.mem_flatMap.2 ⟨r, hr, hw⟩)

/-- A pattern of which some pattern type has no witnesses only ascribes that type. -/
theorem Yields.onlyAscribes {p : Pattern} (h : E.Yields p found) {r : PatternType} (hr : r ∈ found)
    (hnone : r.witnesses = []) : p.OnlyAscribes := by
  induction p generalizing found r with
  | wildcard _ | binding _ _ | rest _ =>
      rw [h.eq_of_evaluate (by rw [evaluate])] at hr
      simp [List.mem_singleton.1 hr, PatternType.catchAll] at hnone
  | literal n v =>
      rw [h.literal] at hr
      simp [List.mem_singleton.1 hr, PatternType.singleton] at hnone
  | named n x p ih =>
      rw [Yields, evaluate] at h
      exact .named (ih h hr hnone)
  | typed n p t =>
      by_cases hp : p.isCatchAll = true
      · exact .here hp
      · obtain ⟨inner, -, hfound⟩ := h.typed hp
        obtain ⟨r', -, hwitnesses⟩ := exists_related_to hfound hr
        rw [hwitnesses] at hnone
        cases hnone
  | variant n d parts =>
      obtain ⟨r', rfl, -, ⟨-, hty⟩ | ⟨results, hyields, hproduct⟩⟩ := h.variant
      · rw [List.mem_singleton.1 hr, hty] at hnone
        cases hnone
      · rw [List.mem_singleton.1 hr] at hnone
        rcases (combineProduct_inversion hproduct).2 with ⟨-, hty⟩ | hchoices
        · rw [hty] at hnone
          cases hnone
        · obtain ⟨choice, hchoice⟩ :=
            List.exists_mem_of_ne_nil _ (choices_ne_nil (proofs_ne_nil_of_yields hyields))
          obtain ⟨w, hw, -⟩ := hchoices choice hchoice
          exact absurd hnone (List.ne_nil_of_mem hw)
  | extractor n d parts =>
      obtain ⟨r', results, rfl, hyields, hextractor⟩ := h.extractor
      rw [List.mem_singleton.1 hr] at hnone
      exact absurd hnone ((combineExtractor_inversion hextractor).2
        (choices_ne_nil (proofs_ne_nil_of_yields hyields)))
  | alternation n branches ih =>
      obtain ⟨-, results, hresults, rfl⟩ := h.alternation
      obtain ⟨result, hresult, hr⟩ := List.mem_flatten.1 hr
      obtain ⟨p, hp, hyields⟩ := exists_related_to hresults hresult
      exact .branch hp (ih p hp hyields hr hnone)

end Yields

end Extractor

end CaseCover
