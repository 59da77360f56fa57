import Mathlib.Data.List.Forall2
import Mathlib.Data.Nat.Init
import CaseCover.Query

/-!
The answers of composed questions, without their trails, and families of questions
that settle. A family is asked with a growing limit on nested questions; it settles
when all members from some limit on have one and the same answer, and `Query.Ends`
says that it settles at all. A question that goes on without end never settles. Two
questions are alike when their answers are related (`Query.Alike`).
-/

namespace CaseCover

namespace Query

variable {α β : Type}

@[simp] theorem value?_liftM (x : Traced α) :
    (liftM x : Query α).value? = some x.value := rfl

theorem value?_both (p q : Query Bool) :
    (both p q).value? =
      p.value?.bind fun b => if b = true then q.value? else some false := by
  rw [both, value?_bind]
  congr 1
  funext b
  cases b <;> rfl

theorem value?_either (p q : Query Bool) :
    (either p q).value? =
      p.value?.bind fun b => if b = true then some true else q.value? := by
  rw [either, value?_bind]
  congr 1
  funext b
  cases b <;> rfl

theorem value?_both_eq_some {p q : Query Bool} {r : Bool}
    (hr : (both p q).value? = some r) :
    ∃ b, p.value? = some b ∧ (b = true → q.value? = some r) ∧
      (b = false → r = false) := by
  rw [value?_both, Option.bind_eq_some_iff] at hr
  obtain ⟨b, hb, hr⟩ := hr
  cases b with
  | false => exact ⟨false, hb, nofun, fun _ => by simpa using hr.symm⟩
  | true => exact ⟨true, hb, fun _ => by simpa using hr, nofun⟩

theorem value?_either_eq_some {p q : Query Bool} {r : Bool}
    (hr : (either p q).value? = some r) :
    ∃ b, p.value? = some b ∧ (b = false → q.value? = some r) ∧
      (b = true → r = true) := by
  rw [value?_either, Option.bind_eq_some_iff] at hr
  obtain ⟨b, hb, hr⟩ := hr
  cases b with
  | false => exact ⟨false, hb, fun _ => by simpa using hr, nofun⟩
  | true => exact ⟨true, hb, nofun, fun _ => by simpa using hr.symm⟩

theorem value?_either_congr {p p' q q' : Query Bool} (hp : p.value? = p'.value?)
    (hq : q.value? = q'.value?) : (either p q).value? = (either p' q').value? := by
  rw [value?_either, value?_either, hp, hq]

theorem value?_either_assoc (p q r : Query Bool) :
    (either (either p q) r).value? = (either p (either q r)).value? := by
  rw [value?_either, value?_either, value?_either, value?_either, Option.bind_assoc]
  congr 1
  funext b
  cases b <;> rfl

theorem value?_either_false (p : Query Bool) : (either p (pure false)).value? = p.value? := by
  rw [value?_either]
  cases p.value? with
  | none => rfl
  | some b => cases b <;> rfl

/-- A search through two lists, one after the other. -/
theorem value?_any_append (p : α → Query Bool) (as bs : List α) :
    (any p (as ++ bs)).value? = (either (any p as) (any p bs)).value? := by
  induction as with
  | nil =>
      rw [value?_either]
      rfl
  | cons a as ih =>
      rw [any, value?_either_assoc]
      exact value?_either_congr rfl ih

theorem value?_any_congr {p : α → Query Bool} {q : β → Query Bool} {as : List α} {bs : List β}
    (h : List.Forall₂ (fun a b => (p a).value? = (q b).value?) as bs) :
    (any p as).value? = (any q bs).value? := by
  induction h with
  | nil => rfl
  | cons hab _ ih => exact value?_either_congr hab ih

theorem value?_bind_eq_some {q : Query α} {f : α → Query β} {b : β} :
    (q >>= f).value? = some b ↔
      ∃ a, q.value? = some a ∧ (f a).value? = some b := by
  rw [value?_bind, Option.bind_eq_some_iff]

theorem mem_of_value?_each {f : α → Query β} {as : List α} {bs : List β}
    (hbs : (each f as).value? = some bs) {b : β} (hb : b ∈ bs) :
    ∃ a ∈ as, (f a).value? = some b := by
  induction as generalizing bs with
  | nil =>
      obtain rfl : [] = bs := Option.some.inj hbs
      exact absurd hb List.not_mem_nil
  | cons a as ih =>
      rw [each, value?_bind_eq_some] at hbs
      rcases hbs with ⟨first, hfirst, hbs⟩
      rw [value?_bind_eq_some] at hbs
      rcases hbs with ⟨others, hothers, hbs⟩
      obtain rfl : first :: others = bs := Option.some.inj hbs
      rcases List.mem_cons.1 hb with rfl | hb
      · exact ⟨a, List.mem_cons_self, hfirst⟩
      · rcases ih hothers hb with ⟨a', ha', hf⟩
        exact ⟨a', List.mem_cons_of_mem a ha', hf⟩

/-- Where every element has an answer, the results over a list are these answers. -/
theorem value?_each_of_forall {f : α → Query β} {g : α → β} {as : List α}
    (h : ∀ a ∈ as, (f a).value? = some (g a)) : (each f as).value? = some (as.map g) := by
  induction as with
  | nil => rfl
  | cons a as ih =>
      obtain ⟨ha, has⟩ := List.forall_mem_cons.1 h
      simp [each, ha, ih has]

theorem value?_filterMap_of_forall {f : α → Query (Option β)} {g : α → β} {as : List α}
    (h : ∀ a ∈ as, (f a).value? = some (some (g a))) :
    (filterMap f as).value? = some (as.map g) := by
  induction as with
  | nil => rfl
  | cons a as ih =>
      obtain ⟨ha, has⟩ := List.forall_mem_cons.1 h
      simp [filterMap, ha, ih has]

theorem mem_of_value?_filterMap {f : α → Query (Option β)} {as : List α} {bs : List β}
    (hbs : (filterMap f as).value? = some bs) {b : β} (hb : b ∈ bs) :
    ∃ a ∈ as, (f a).value? = some (some b) := by
  induction as generalizing bs with
  | nil =>
      obtain rfl : [] = bs := Option.some.inj hbs
      exact absurd hb List.not_mem_nil
  | cons a as ih =>
      rw [filterMap, value?_bind_eq_some] at hbs
      obtain ⟨first, hfirst, hbs⟩ := hbs
      cases first with
      | none =>
          obtain ⟨a', ha', hf⟩ := ih hbs hb
          exact ⟨a', List.mem_cons_of_mem a ha', hf⟩
      | some c =>
          rw [value?_bind_eq_some] at hbs
          obtain ⟨later, hlater, hbs⟩ := hbs
          obtain rfl : c :: later = bs := Option.some.inj hbs
          rcases List.mem_cons.1 hb with rfl | hb
          · exact ⟨a, List.mem_cons_self, hfirst⟩
          · obtain ⟨a', ha', hf⟩ := ih hlater hb
            exact ⟨a', List.mem_cons_of_mem a ha', hf⟩

/-- A present result of an element is among the results. -/
theorem mem_value?_filterMap {f : α → Query (Option β)} {as : List α} {bs : List β}
    (hbs : (filterMap f as).value? = some bs) {a : α} (ha : a ∈ as) {b : β}
    (hb : (f a).value? = some (some b)) : b ∈ bs := by
  induction as generalizing bs with
  | nil => exact absurd ha List.not_mem_nil
  | cons first as ih =>
      rw [filterMap, value?_bind_eq_some] at hbs
      obtain ⟨result, hresult, hbs⟩ := hbs
      rcases List.mem_cons.1 ha with rfl | ha
      · obtain rfl := Option.some.inj (hresult.symm.trans hb)
        rw [value?_bind_eq_some] at hbs
        obtain ⟨later, -, hbs⟩ := hbs
        obtain rfl : b :: later = bs := Option.some.inj hbs
        exact List.mem_cons_self
      · cases result with
        | none => exact ih hbs ha
        | some c =>
            rw [value?_bind_eq_some] at hbs
            obtain ⟨later, hlater, hbs⟩ := hbs
            obtain rfl : c :: later = bs := Option.some.inj hbs
            exact List.mem_cons_of_mem c (ih hlater ha)

theorem answered_of_value?_filterMap {f : α → Query (Option β)} {as : List α} {bs : List β}
    (hbs : (filterMap f as).value? = some bs) : ∀ a ∈ as, ∃ r, (f a).value? = some r := by
  induction as generalizing bs with
  | nil => exact fun a ha => absurd ha List.not_mem_nil
  | cons first as ih =>
      rw [filterMap, value?_bind_eq_some] at hbs
      obtain ⟨result, hresult, hbs⟩ := hbs
      have hlater : ∃ cs, (filterMap f as).value? = some cs := by
        cases result with
        | none => exact ⟨bs, hbs⟩
        | some b =>
            obtain ⟨later, hlater, -⟩ := value?_bind_eq_some.1 hbs
            exact ⟨later, hlater⟩
      obtain ⟨cs, hcs⟩ := hlater
      intro a ha
      rcases List.mem_cons.1 ha with rfl | ha
      · exact ⟨result, hresult⟩
      · exact ih hcs a ha

/-- The elements that pass have the answer `true`, and every element has one. -/
theorem value?_filter_eq_some {p : α → Query Bool} {as kept : List α}
    (hkept : (filter p as).value? = some kept) :
    (∀ a ∈ as, ∃ b, (p a).value? = some b) ∧
      kept = as.filter fun a => (p a).value? == some true := by
  induction as generalizing kept with
  | nil =>
      obtain rfl : [] = kept := Option.some.inj hkept
      exact ⟨fun a ha => absurd ha List.not_mem_nil, rfl⟩
  | cons a as ih =>
      rw [filter, value?_bind_eq_some] at hkept
      rcases hkept with ⟨keep, hkeep, hkept⟩
      rw [value?_bind_eq_some] at hkept
      rcases hkept with ⟨others, hothers, hkept⟩
      have hcons : (if keep = true then a :: others else others) = kept :=
        Option.some.inj hkept
      rcases ih hothers with ⟨hanswered, hfilter⟩
      constructor
      · intro a' ha'
        rcases List.mem_cons.1 ha' with rfl | ha'
        · exact ⟨keep, hkeep⟩
        · exact hanswered a' ha'
      · rw [List.filter_cons, hkeep, ← hfilter, ← hcons]
        cases keep <;> rfl

/-- From some limit on, every member of a family has the answer `a`. -/
def Settles (q : Nat → Query α) (a : α) : Prop :=
  ∃ limit, ∀ n, limit ≤ n → (q n).value? = some a

/-- From some limit on, all members of a family have one answer. -/
def Ends (q : Nat → Query α) : Prop := ∃ a, Settles q a

theorem Settles.ends {q : Nat → Query α} {a : α} (hq : Settles q a) : Ends q :=
  ⟨a, hq⟩

theorem settles_of_value? {q : Nat → Query α} {a : α}
    (hq : ∀ n, (q n).value? = some a) : Settles q a :=
  ⟨0, fun n _ => hq n⟩

theorem Settles.of_succ {q : Nat → Query α} {a : α}
    (hq : Settles (fun n => q (n + 1)) a) : Settles q a := by
  obtain ⟨limit, hlimit⟩ := hq
  refine ⟨limit + 1, fun n hn => ?_⟩
  obtain ⟨m, rfl⟩ : ∃ m, n = m + 1 := ⟨n - 1, by omega⟩
  exact hlimit m (by omega)

theorem Settles.congr {q r : Nat → Query α} {a : α}
    (heq : ∀ n, (q n).value? = (r n).value?) (hr : Settles r a) : Settles q a := by
  obtain ⟨limit, hlimit⟩ := hr
  exact ⟨limit, fun n hn => (heq n).trans (hlimit n hn)⟩

theorem Settles.bind {q : Nat → Query α} {f : Nat → α → Query β} {a : α} {b : β}
    (hq : Settles q a) (hf : Settles (fun n => f n a) b) :
    Settles (fun n => q n >>= f n) b := by
  obtain ⟨first, hfirst⟩ := hq
  obtain ⟨second, hsecond⟩ := hf
  refine ⟨max first second, fun n hn => ?_⟩
  rw [value?_bind_eq_some]
  exact ⟨a, hfirst n (by omega), hsecond n (by omega)⟩

theorem Settles.unique {q : Nat → Query α} {a b : α} (ha : Settles q a)
    (hb : Settles q b) : a = b := by
  obtain ⟨first, hfirst⟩ := ha
  obtain ⟨second, hsecond⟩ := hb
  have hleft := hfirst (max first second) (by omega)
  have hright := hsecond (max first second) (by omega)
  exact Option.some.inj (hleft.symm.trans hright)

/-- A conjunction settles on true only when both of its parts do. -/
theorem Settles.of_both {p q : Nat → Query Bool}
    (hpq : Settles (fun n => both (p n) (q n)) true) :
    Settles p true ∧ Settles q true := by
  obtain ⟨limit, hlimit⟩ := hpq
  have parts : ∀ n, limit ≤ n → (p n).value? = some true ∧ (q n).value? = some true := by
    intro n hn
    obtain ⟨b, hb, htrue, hfalse⟩ := value?_both_eq_some (hlimit n hn)
    cases b with
    | false => exact absurd (hfalse rfl) nofun
    | true => exact ⟨hb, htrue rfl⟩
  exact ⟨⟨limit, fun n hn => (parts n hn).1⟩, ⟨limit, fun n hn => (parts n hn).2⟩⟩

theorem ends_pure (a : α) : Ends fun _ => (pure a : Query α) :=
  (settles_of_value? fun _ => rfl).ends

theorem Ends.of_succ {q : Nat → Query α} (hq : Ends fun n => q (n + 1)) : Ends q := by
  obtain ⟨a, ha⟩ := hq
  exact ha.of_succ.ends

theorem Ends.congr {q r : Nat → Query α} (heq : ∀ n, (q n).value? = (r n).value?)
    (hr : Ends r) : Ends q := by
  obtain ⟨a, ha⟩ := hr
  exact (ha.congr heq).ends

/-- A question ends when its first part does and, for the answer of that, the rest. -/
theorem Ends.bind {q : Nat → Query α} {f : Nat → α → Query β} (hq : Ends q)
    (hf : ∀ a, Settles q a → Ends fun n => f n a) : Ends fun n => q n >>= f n := by
  obtain ⟨a, ha⟩ := hq
  obtain ⟨b, hb⟩ := hf a ha
  exact (ha.bind hb).ends

theorem Ends.map {q : Nat → Query α} (f : α → β) (hq : Ends q) :
    Ends fun n => f <$> q n :=
  hq.bind fun a _ => ends_pure (f a)

/-- A conjunction ends when its first part does and, where that is true, its second. -/
theorem Ends.both {p q : Nat → Query Bool} (hp : Ends p)
    (hq : Settles p true → Ends q) : Ends fun n => both (p n) (q n) := by
  refine hp.bind fun b hb => ?_
  cases b with
  | false => exact ends_pure false
  | true => exact hq hb

/-- A disjunction ends when its first part does and, where that is false, its
second. -/
theorem Ends.either {p q : Nat → Query Bool} (hp : Ends p)
    (hq : Settles p false → Ends q) : Ends fun n => either (p n) (q n) := by
  refine hp.bind fun b hb => ?_
  cases b with
  | false => exact hq hb
  | true => exact ends_pure true

/-- A question that does not depend on the limit ends when it has an answer. -/
theorem ends_of_constant {q : Nat → Query α} (hq : ∀ n, (q n).value? = (q 0).value?)
    (hanswer : (q 0).value? ≠ none) : Ends q := by
  obtain ⟨a, ha⟩ := Option.ne_none_iff_exists'.1 hanswer
  exact (settles_of_value? fun n => (hq n).trans ha).ends

theorem build_ends (t : Ty) : Ends fun _ => build t :=
  (settles_of_value? fun _ => rfl).ends

theorem liftM_ends (x : Traced α) : Ends fun _ => (liftM x : Query α) :=
  (settles_of_value? fun _ => rfl).ends

theorem filterMap_ends {f : Nat → α → Query (Option β)} (hf : ∀ a, Ends fun n => f n a)
    (as : List α) : Ends fun n => filterMap (f n) as := by
  induction as with
  | nil => exact ends_pure []
  | cons a as ih =>
      refine (hf a).bind fun b _ => ?_
      cases b with
      | none => exact ih
      | some b => exact ih.map _

theorem any_ends_of_mem {p : Nat → α → Query Bool} {as : List α}
    (hp : ∀ a ∈ as, Ends fun n => p n a) : Ends fun n => any (p n) as := by
  induction as with
  | nil => exact ends_pure false
  | cons a as ih =>
      refine (hp a List.mem_cons_self).either fun _ => ih fun b hb => ?_
      exact hp b (List.mem_cons_of_mem a hb)

theorem any_ends {p : Nat → α → Query Bool} (hp : ∀ a, Ends fun n => p n a) (as : List α) :
    Ends fun n => any (p n) as :=
  any_ends_of_mem fun a _ => hp a

theorem filter_ends_of_mem {p : Nat → α → Query Bool} {as : List α}
    (hp : ∀ a ∈ as, Ends fun n => p n a) : Ends fun n => filter (p n) as := by
  induction as with
  | nil => exact ends_pure []
  | cons a as ih =>
      refine (hp a List.mem_cons_self).bind fun keep _ => ?_
      exact (ih fun b hb => hp b (List.mem_cons_of_mem a hb)).map _

theorem all_ends {p : Nat → α → Query Bool} (hp : ∀ a, Ends fun n => p n a) (as : List α) :
    Ends fun n => all (p n) as := by
  induction as with
  | nil => exact ends_pure true
  | cons a as ih => exact (hp a).both fun _ => ih

/-- Every answer of the first question is the answer of the second. -/
def Refines (p q : Query α) : Prop := ∀ a, p.value? = some a → q.value? = some a

theorem Refines.rfl {p : Query α} : Refines p p := fun _ h => h

theorem Refines.bind {p q : Query α} {f g : α → Query β} (hpq : Refines p q)
    (hfg : ∀ a, Refines (f a) (g a)) : Refines (p >>= f) (q >>= g) := by
  intro b hb
  rw [value?_bind_eq_some] at hb ⊢
  obtain ⟨a, ha, hfa⟩ := hb
  exact ⟨a, hpq a ha, hfg a b hfa⟩

theorem Refines.both {p p' q q' : Query Bool} (hp : Refines p p')
    (hq : Refines q q') : Refines (both p q) (both p' q') := by
  refine hp.bind fun b => ?_
  cases b with
  | false => exact .rfl
  | true => exact hq

theorem Refines.either {p p' q q' : Query Bool} (hp : Refines p p')
    (hq : Refines q q') : Refines (either p q) (either p' q') := by
  refine hp.bind fun b => ?_
  cases b with
  | false => exact hq
  | true => exact .rfl

theorem filterMap_refines {f g : α → Query (Option β)} (hfg : ∀ a, Refines (f a) (g a))
    (as : List α) : Refines (filterMap f as) (filterMap g as) := by
  induction as with
  | nil => exact .rfl
  | cons a as ih =>
      refine (hfg a).bind fun b => ?_
      cases b with
      | none => exact ih
      | some b => exact ih.bind fun _ => .rfl

theorem any_refines {p q : α → Query Bool} (hpq : ∀ a, Refines (p a) (q a)) (as : List α) :
    Refines (any p as) (any q as) := by
  induction as with
  | nil => exact .rfl
  | cons a as ih => exact (hpq a).either ih

/-- Where a larger limit never changes an answer, one answer settles the family. -/
theorem settles_of_refines {q : Nat → Query α} (hq : ∀ n, Refines (q n) (q (n + 1)))
    {n : Nat} {a : α} (ha : (q n).value? = some a) : Settles q a := by
  refine ⟨n, fun m hm => ?_⟩
  induction m, hm using Nat.le_induction with
  | base => exact ha
  | succ m _ ih => exact hq m a ih

/-- A member of a settled family that has an answer has the settled one. -/
theorem Settles.value?_eq {q : Nat → Query α} (hq : ∀ n, Refines (q n) (q (n + 1)))
    {a : α} (ha : Settles q a) {n : Nat} {b : α} (hb : (q n).value? = some b) :
    b = a :=
  (settles_of_refines hq hb).unique ha

section Alike

variable {γ δ : Type}

/-- The answers of two questions are related, or neither has one. -/
def Alike (R : α → β → Prop) (p : Query α) (q : Query β) : Prop :=
  Option.Rel R p.value? q.value?

theorem Alike.imp {R S : α → β → Prop} {p : Query α} {q : Query β} (hpq : Alike R p q)
    (hRS : ∀ a b, R a b → S a b) : Alike S p q := by
  unfold Alike at hpq ⊢
  generalize p.value? = a at hpq
  generalize q.value? = b at hpq
  cases hpq with
  | none => exact .none
  | some hab => exact .some (hRS _ _ hab)

/-- A question on the left that is answered with something made of another one's answer. -/
theorem Alike.map_left {R : α → β → Prop} {S : γ → β → Prop} {p : Query α} {q : Query β}
    (hpq : Alike R p q) {p' : Query γ} {f : α → γ} (hp' : p'.value? = p.value?.map f)
    (hf : ∀ a b, R a b → S (f a) b) : Alike S p' q := by
  unfold Alike at hpq ⊢
  rw [hp']
  generalize p.value? = a at hpq
  generalize q.value? = b at hpq
  cases hpq with
  | none => exact .none
  | some hab => exact .some (hf _ _ hab)

/-- A question on the right that is answered with something made of another one's answer. -/
theorem Alike.map_right {R : α → β → Prop} {S : α → δ → Prop} {p : Query α} {q : Query β}
    (hpq : Alike R p q) {q' : Query δ} {g : β → δ} (hq' : q'.value? = q.value?.map g)
    (hg : ∀ a b, R a b → S a (g b)) : Alike S p q' := by
  unfold Alike at hpq ⊢
  rw [hq']
  generalize p.value? = a at hpq
  generalize q.value? = b at hpq
  cases hpq with
  | none => exact .none
  | some hab => exact .some (hg _ _ hab)

theorem alike_pure {R : α → β → Prop} {a : α} {b : β} (hab : R a b) :
    Alike R (pure a) (pure b) :=
  .some hab

theorem alike_of_value?_eq {R : α → α → Prop} {p q : Query α} (hpq : p.value? = q.value?)
    (hR : ∀ a, p.value? = some a → R a a) : Alike R p q := by
  unfold Alike
  rw [← hpq]
  cases ha : p.value? with
  | none => exact .none
  | some a => exact .some (hR a ha)

theorem Alike.bind {R : α → β → Prop} {S : γ → δ → Prop} {p : Query α} {q : Query β}
    {f : α → Query γ} {g : β → Query δ} (hpq : Alike R p q)
    (hfg : ∀ a b, R a b → Alike S (f a) (g b)) : Alike S (p >>= f) (q >>= g) := by
  unfold Alike at hpq ⊢
  rw [value?_bind, value?_bind]
  generalize p.value? = a at hpq
  generalize q.value? = b at hpq
  cases hpq with
  | none => exact .none
  | some hab => exact hfg _ _ hab

theorem alike_self (q : Query α) : Alike Eq q q :=
  alike_of_value?_eq rfl fun _ _ => rfl

/-- A question that both sides ask, before questions that are answered alike. -/
theorem alike_bind_self {S : γ → δ → Prop} (q : Query α) {f : α → Query γ} {g : α → Query δ}
    (hfg : ∀ a, Alike S (f a) (g a)) : Alike S (q >>= f) (q >>= g) := by
  refine (alike_self q).bind ?_
  rintro a _ rfl
  exact hfg a

theorem alike_filterMap {R : α → β → Prop} {S : γ → δ → Prop}
    {f : α → Query (Option γ)} {g : β → Query (Option δ)}
    (hfg : ∀ a b, R a b → Alike (Option.Rel S) (f a) (g b)) {as : List α} {bs : List β}
    (habs : List.Forall₂ R as bs) :
    Alike (List.Forall₂ S) (filterMap f as) (filterMap g bs) := by
  induction habs with
  | nil => exact alike_pure .nil
  | cons hab _ ih =>
      refine (hfg _ _ hab).bind fun x y hxy => ?_
      cases hxy with
      | none => exact ih
      | some hxy => exact ih.bind fun _ _ hrest => alike_pure (.cons hxy hrest)

end Alike

end Query

end CaseCover
