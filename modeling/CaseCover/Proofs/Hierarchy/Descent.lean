import CaseCover.Hierarchy.Ancestry
import CaseCover.Proofs.Decl.Reachable

/-!
Descent between data types. The walk that asks whether a data type descends from another
ends and misses no ancestor: every step takes a data type from the stack or expands one that was
not seen, so the steps suffice for all recorded parents (`isDescendant_iff`). In
declarations that a client can arrive at, a recorded child inherits from its parent
(`inherits_of_child`).
-/

namespace CaseCover

namespace Declarations

open Relation (ReflTransGen)

/-- The number of parents of the first data types that are not in a list. -/
def unseenBelow (D : Declarations) (seen : List DataId) : Nat → Nat
  | 0 => 0
  | n + 1 => D.unseenBelow seen n + if ⟨n⟩ ∈ seen then 0 else (D.get ⟨n⟩).parents.length

/-- The number of recorded parents of the data types that are not in a list. -/
def unseen (D : Declarations) (seen : List DataId) : Nat := D.unseenBelow seen D.size

theorem unseen_nil (D : Declarations) : D.unseen [] = D.parentCount := by
  have hprefix : ∀ n ≤ D.size, D.unseenBelow [] n =
      (D.items.toList.take n).foldl (fun count d => count + d.parents.length) 0 := by
    intro n hn
    induction n with
    | zero => rfl
    | succ n ih =>
        have hlt : n < D.items.toList.length := hn
        have hget : D.get ⟨n⟩ = D.items.toList[n] := by
          simp [get, Array.getElem?_eq_getElem (show n < D.items.size from hn)]
        rw [unseenBelow, ih (Nat.le_of_succ_le hn), List.take_succ_eq_append_getElem hlt,
          List.foldl_append, hget]
        simp
  rw [unseen, hprefix D.size (Nat.le_refl _), parentCount, ← Array.foldl_toList]
  congr 1
  exact List.take_of_length_le (Nat.le_refl _)

/-- Seeing a data type takes its parents away. -/
theorem unseen_cons {D : Declarations} {d : DataId} {seen : List DataId} (hd : d ∉ seen) :
    D.unseen (d :: seen) + (D.get d).parents.length ≤ D.unseen seen := by
  have hbelow : ∀ n, D.unseenBelow (d :: seen) n +
      (if d.index < n then (D.get d).parents.length else 0) = D.unseenBelow seen n := by
    intro n
    induction n with
    | zero => rfl
    | succ n ih =>
        rw [unseenBelow, unseenBelow, ← ih]
        by_cases hn : d.index = n
        · subst hn
          simp [hd]
        · have hne : (⟨n⟩ : DataId) ≠ d := fun h => hn (congrArg DataId.index h).symm
          have hiff : d.index < n + 1 ↔ d.index < n := by omega
          simp only [List.mem_cons, hne, false_or, hiff]
          omega
  rw [unseen, unseen, ← hbelow]
  by_cases hlt : d.index < D.size
  · exact Nat.le_of_eq (by rw [if_pos hlt])
  · exact Nat.le_of_eq
      (by rw [if_neg hlt, parents_eq_nil (Nat.le_of_not_lt hlt), List.length_nil])

/-- Induction on a walk that visits a list from its front and expands a data type only once, with
steps enough for what is on the list and for all parents that were not seen. `key` tells the data
type of what is visited. -/
theorem walk_induct {D : Declarations} {α : Type} (key : α → Option DataId)
    {motive : Nat → List α → List DataId → Prop}
    (finished : ∀ fuel seen, motive fuel [] seen)
    (passed : ∀ fuel next rest seen, key next = none → motive fuel rest seen →
      motive (fuel + 1) (next :: rest) seen)
    (skipped : ∀ fuel next rest seen d, key next = some d → d ∈ seen → motive fuel rest seen →
      motive (fuel + 1) (next :: rest) seen)
    (expanded : ∀ fuel next rest seen d, key next = some d → d ∉ seen →
      (∀ later : List α, later.length ≤ rest.length + (D.get d).parents.length →
        motive fuel later (d :: seen)) → motive (fuel + 1) (next :: rest) seen)
    {fuel : Nat} {list : List α} {seen : List DataId}
    (hfuel : list.length + D.unseen seen ≤ fuel) : motive fuel list seen := by
  induction fuel generalizing list seen with
  | zero =>
      obtain rfl : list = [] := List.eq_nil_of_length_eq_zero (by omega)
      exact finished 0 seen
  | succ fuel ih =>
      cases list with
      | nil => exact finished _ seen
      | cons next rest =>
          rw [List.length_cons] at hfuel
          cases hkey : key next with
          | none => exact passed fuel next rest seen hkey (ih (by omega))
          | some d =>
              by_cases hd : d ∈ seen
              · exact skipped fuel next rest seen d hkey hd (ih (by omega))
              · have hunseen := unseen_cons (D := D) hd
                exact expanded fuel next rest seen d hkey hd fun later hlater => ih (by omega)

/-- Where everything that is inherited from was seen, nothing new is above what was seen. -/
theorem mem_seen_of_inherits {D : Declarations} {seen : List DataId}
    (hclosed : ∀ d ∈ seen, ∀ e, D.Inherits d e → e ∈ seen) {d e : DataId} (hd : d ∈ seen)
    (h : ReflTransGen D.Inherits d e) : e ∈ seen := by
  induction h with
  | refl => exact hd
  | tail _ hstep ih => exact hclosed _ ih _ hstep

/-- A walk that has still to find an ancestor: that was not seen but is above a data type that was
seen or is to be visited, and everything above what was seen was seen or is to be visited. -/
structure Approaches (D : Declarations) (ancestor : DataId) (stack seen : List DataId) :
    Prop where
  closed : ∀ d ∈ seen, ∀ e, D.Inherits d e → e ∈ seen ∨ e ∈ stack
  unseen : ancestor ∉ seen
  above : ∃ d, (d ∈ seen ∨ d ∈ stack) ∧ ReflTransGen D.Inherits d ancestor

namespace Approaches

variable {D : Declarations} {ancestor next : DataId} {stack seen : List DataId}

theorem start {d : DataId} (h : ReflTransGen D.Inherits d ancestor) :
    D.Approaches ancestor [d] [] where
  closed := fun _ he => absurd he List.not_mem_nil
  unseen := List.not_mem_nil
  above := ⟨d, .inr (List.mem_singleton_self d), h⟩

/-- The walk does not run out of data types to visit. -/
theorem stack_ne_nil (h : D.Approaches ancestor stack seen) : stack ≠ [] := by
  rintro rfl
  obtain ⟨hclosed, hunseen, d, hd, hreach⟩ := h
  simp only [List.not_mem_nil, or_false] at hclosed hd
  exact hunseen (mem_seen_of_inherits hclosed hd hreach)

/-- A data type that was seen may be passed over. -/
theorem skip (h : D.Approaches ancestor (next :: stack) seen) (hnext : next ∈ seen) :
    D.Approaches ancestor stack seen := by
  have hkept : ∀ e, e ∈ seen ∨ e ∈ next :: stack → e ∈ seen ∨ e ∈ stack := by
    rintro e (he | he)
    · exact .inl he
    · rcases List.mem_cons.1 he with rfl | he
      · exact .inl hnext
      · exact .inr he
  obtain ⟨d, hd, hreach⟩ := h.above
  exact ⟨fun d hd e he => hkept e (h.closed d hd e he), h.unseen, d, hkept d hd, hreach⟩

/-- Another data type than the ancestor makes way for its parents, wherever they are put. -/
theorem expand (h : D.Approaches ancestor (next :: stack) seen) (hnext : next ≠ ancestor)
    {later : List DataId} (hstack : ∀ e ∈ stack, e ∈ later)
    (hparents : ∀ e, D.Inherits next e → e ∈ later) :
    D.Approaches ancestor later (next :: seen) := by
  have hpushed : ∀ e, e ∈ seen ∨ e ∈ next :: stack → e ∈ next :: seen ∨ e ∈ later := by
    rintro e (he | he)
    · exact .inl (List.mem_cons_of_mem next he)
    · rcases List.mem_cons.1 he with rfl | he
      · exact .inl List.mem_cons_self
      · exact .inr (hstack e he)
  obtain ⟨d, hd, hreach⟩ := h.above
  refine ⟨fun c hc e he => ?_, fun hmem => ?_, d, hpushed d hd, hreach⟩
  · rcases List.mem_cons.1 hc with rfl | hc
    · exact .inr (hparents e he)
    · exact hpushed e (h.closed c hc e he)
  · rcases List.mem_cons.1 hmem with heq | hmem
    · exact hnext heq.symm
    · exact h.unseen hmem

end Approaches

/-- The walk to a data type that is inherited from ends with an answer. -/
inductive DescentEnds (D : Declarations) (ancestor : DataId) :
    List DataId → List DataId → Bool → Prop
  | exhausted (seen : List DataId) : D.DescentEnds ancestor [] seen false
  | found (stack seen : List DataId) : D.DescentEnds ancestor (ancestor :: stack) seen true
  | skipped {d : DataId} {stack seen : List DataId} {answer : Bool} (hd : d ≠ ancestor)
      (hseen : d ∈ seen) (h : D.DescentEnds ancestor stack seen answer) :
      D.DescentEnds ancestor (d :: stack) seen answer
  | expanded {d : DataId} {stack seen : List DataId} {answer : Bool} (hd : d ≠ ancestor)
      (hnew : d ∉ seen)
      (h : D.DescentEnds ancestor
        (((D.get d).parents.filterMap Ty.constructor?).reverse ++ stack) (d :: seen) answer) :
      D.DescentEnds ancestor (d :: stack) seen answer

/-- The function with a limit gives what the walk ends with, when its steps suffice. -/
theorem reaches_ends {D : Declarations} {ancestor : DataId} {fuel : Nat} {stack seen : List DataId}
    (hfuel : stack.length + D.unseen seen ≤ fuel) :
    D.DescentEnds ancestor stack seen (D.reaches ancestor fuel stack seen) := by
  refine walk_induct (motive := fun fuel stack seen =>
    D.DescentEnds ancestor stack seen (D.reaches ancestor fuel stack seen))
    some ?finished ?passed ?skipped ?expanded hfuel
  case finished => exact fun fuel seen => by cases fuel <;> exact .exhausted seen
  case passed => exact nofun
  case skipped =>
    rintro fuel next rest seen _ ⟨⟩ hseen ih
    by_cases hd : next = ancestor
    · simpa [reaches, hd] using .found rest seen
    · simpa [reaches, hd, hseen] using .skipped hd hseen ih
  case expanded =>
    rintro fuel next rest seen _ ⟨⟩ hnew ih
    by_cases hd : next = ancestor
    · simpa [reaches, hd] using .found rest seen
    · simp only [reaches, if_neg hd, if_neg hnew]
      refine .expanded hd hnew (ih _ ?_)
      have hparents := List.length_filterMap_le Ty.constructor? (D.get next).parents
      rw [List.length_append, List.length_reverse]
      omega

/-- A walk that finds the data type started at one that inherits from it. -/
theorem DescentEnds.sound {D : Declarations} {ancestor : DataId} {stack seen : List DataId}
    {answer : Bool} (h : D.DescentEnds ancestor stack seen answer) (hfound : answer = true) :
    ∃ d ∈ stack, ReflTransGen D.Inherits d ancestor := by
  induction h with
  | exhausted seen => exact nomatch hfound
  | found stack seen => exact ⟨ancestor, List.mem_cons_self, .refl⟩
  | skipped _ _ _ ih =>
      obtain ⟨e, he, hreach⟩ := ih hfound
      exact ⟨e, List.mem_cons_of_mem _ he, hreach⟩
  | @expanded d stack seen answer _ _ _ ih =>
      obtain ⟨e, he, hreach⟩ := ih hfound
      rcases List.mem_append.1 he with hparent | he
      · obtain ⟨p, hp, hpe⟩ := List.mem_filterMap.1 (List.mem_reverse.1 hparent)
        exact ⟨d, List.mem_cons_self, .head ⟨p, hp, hpe⟩ hreach⟩
      · exact ⟨e, List.mem_cons_of_mem _ he, hreach⟩

/-- A walk that has still to find the ancestor finds it. -/
theorem DescentEnds.complete {D : Declarations} {ancestor : DataId} {stack seen : List DataId}
    {answer : Bool} (h : D.DescentEnds ancestor stack seen answer)
    (happroaches : D.Approaches ancestor stack seen) : answer = true := by
  induction h with
  | exhausted seen => exact absurd rfl happroaches.stack_ne_nil
  | found stack seen => rfl
  | skipped _ hseen _ ih => exact ih (happroaches.skip hseen)
  | expanded hd _ _ ih =>
      refine ih (happroaches.expand hd (fun e he => List.mem_append_right _ he) fun e he => ?_)
      exact List.mem_append_left _ (List.mem_reverse.2 (List.mem_filterMap.2 he))

/-- The limit has steps enough for every walk from one type or data type. -/
theorem walkLimit_enough {α : Type} (D : Declarations) (t : α) :
    [t].length + D.unseen [] ≤ D.walkLimit := by
  rw [unseen_nil, walkLimit, List.length_singleton]
  omega

/-- A data type descends from those that it inherits from, in any number of steps. -/
theorem isDescendant_iff {D : Declarations} {d ancestor : DataId} :
    D.isDescendant d ancestor = true ↔ ReflTransGen D.Inherits d ancestor := by
  have hends : D.DescentEnds ancestor [d] [] (D.isDescendant d ancestor) :=
    reaches_ends (D.walkLimit_enough d)
  refine ⟨fun h => ?_, fun h => hends.complete (.start h)⟩
  obtain ⟨e, he, hreach⟩ := hends.sound h
  exact List.mem_singleton.1 he ▸ hreach

/-- Every recorded child inherits from its parent. -/
def ChildrenInherit (D : Declarations) : Prop :=
  ∀ d, ∀ c ∈ (D.get d).children, D.Inherits c d

theorem get_modify (D : Declarations) (id : DataId) (f : DataType → DataType) (d : DataId) :
    (D.modify id f).get d = if d = id ∧ id.index < D.size then f (D.get d) else D.get d := by
  unfold get modify
  rw [Array.getElem?_modify]
  by_cases hd : d = id
  · subst hd
    by_cases hlt : d.index < D.items.size
    · simp [hlt, size]
    · simp [hlt, size]
  · have hne : ¬ id.index = d.index := fun h => hd (by cases d; cases id; simp_all)
    simp [hd, hne]

/-- Declarations that keep the parents and the children keep the children in their place. -/
theorem ChildrenInherit.congr {D D' : Declarations} (hD : D.ChildrenInherit)
    (hchildren : ∀ d, (D'.get d).children = (D.get d).children)
    (hparents : ∀ d, (D'.get d).parents = (D.get d).parents) : D'.ChildrenInherit := by
  intro d c hc
  rw [hchildren] at hc
  unfold Inherits
  rw [hparents]
  exact hD d c hc

theorem get_declare (D : Declarations) (name : String) (params : List TypeParam)
    (kind : DataKind) (d : DataId) :
    ((D.declare name params kind).2.get d).children = (D.get d).children ∧
      ((D.declare name params kind).2.get d).parents = (D.get d).parents := by
  unfold get declare
  rw [Array.getElem?_push]
  by_cases hd : d.index = D.items.size
  · have hnone : D.items[d.index]? = none := Array.getElem?_eq_none (Nat.le_of_eq hd.symm)
    rw [if_pos hd, hnone]
    exact ⟨rfl, rfl⟩
  · rw [if_neg hd]
    exact ⟨rfl, rfl⟩

theorem children_of_out_of_range {D : Declarations} {d : DataId} (hd : D.size ≤ d.index) :
    (D.get d).children = [] := by
  have hnone : D.items[d.index]? = none := Array.getElem?_eq_none hd
  rw [get, hnone]
  rfl

theorem mem_parents_extend {D : Declarations} {child : DataId} (hchild : child.index < D.size)
    (parent : Ty) {d : DataId} {p : Ty} (hp : p ∈ (D.get d).parents ∨ d = child ∧ p = parent) :
    p ∈ ((D.extend child parent).get d).parents := by
  have hfirst : p ∈ ((D.modify child fun d => { d with
      parents := d.parents ++ [parent] }).get d).parents := by
    rw [get_modify]
    by_cases hd : d = child ∧ child.index < D.size
    · rw [if_pos hd]
      rcases hp with hp | ⟨-, rfl⟩
      · exact List.mem_append_left _ hp
      · exact List.mem_append_right _ (List.mem_singleton_self p)
    · rw [if_neg hd]
      rcases hp with hp | ⟨rfl, -⟩
      · exact hp
      · exact absurd ⟨rfl, hchild⟩ hd
  unfold Declarations.extend
  dsimp only
  split
  · exact hfirst
  · rw [get_modify]
    split
    · exact hfirst
    · exact hfirst

theorem mem_children_extend {D : Declarations} {child : DataId} {parent : Ty} {d c : DataId}
    (hc : c ∈ ((D.extend child parent).get d).children) :
    c ∈ (D.get d).children ∨ c = child ∧ parent.constructor? = some d := by
  have hfirst : ((D.modify child fun d => { d with
      parents := d.parents ++ [parent] }).get d).children = (D.get d).children := by
    rw [get_modify]
    split
    · rfl
    · rfl
  unfold Declarations.extend at hc
  dsimp only at hc
  split at hc
  · rw [hfirst] at hc
    exact .inl hc
  · rename_i up hup
    rw [get_modify] at hc
    split at hc
    · rename_i hd
      obtain ⟨rfl, -⟩ := hd
      rw [hfirst] at hc
      split at hc
      · exact .inl hc
      · rcases List.mem_append.1 hc with hc | hc
        · exact .inl hc
        · exact .inr ⟨List.mem_singleton.1 hc, hup⟩
    · rw [hfirst] at hc
      exact .inl hc

/-- A parent is recorded on both sides. -/
theorem ChildrenInherit.extend {D : Declarations} (hD : D.ChildrenInherit) {child : DataId}
    (hchild : child.index < D.size) (parent : Ty) : (D.extend child parent).ChildrenInherit := by
  intro d c hc
  rcases mem_children_extend hc with hc | ⟨rfl, hd⟩
  · obtain ⟨p, hp, hpd⟩ := hD d c hc
    exact ⟨p, mem_parents_extend hchild parent (.inl hp), hpd⟩
  · exact ⟨parent, mem_parents_extend hchild parent (.inr ⟨rfl, rfl⟩), hd⟩

theorem childrenInherit_of_forall {D : Declarations}
    (hD : ∀ i < D.size, ∀ c ∈ (D.get ⟨i⟩).children,
      ∃ p ∈ (D.get c).parents, p.constructor? = some ⟨i⟩) : D.ChildrenInherit := by
  intro d c hc
  have hd : d.index < D.size := by
    refine Nat.lt_of_not_le fun hout => ?_
    rw [children_of_out_of_range hout] at hc
    exact List.not_mem_nil hc
  exact hD d.index hd c hc

/-- Children that a client has recorded inherit from their parents. -/
theorem inherits_of_child {D : Declarations} (hD : D.Reachable) : D.ChildrenInherit := by
  induction hD with
  | initial => exact childrenInherit_of_forall (by decide)
  | declare hD name hkind ih =>
      exact ih.congr (fun d => (get_declare ..).1) fun d => (get_declare ..).2
  | @defineFields D hD e he fields hfields ih =>
      apply ih.congr
      all_goals
        intro d
        rw [defineFields, get_modify]
        split
        · rfl
        · rfl
  | extend hD child hchild hparent ih => exact ih.extend hchild _

end Declarations

end CaseCover
