import CaseCover.Source.NameTable

/-!
Names compared by their numbers. No text has two numbers, however the table came about
(`NameTable.Distinct`), and a number keeps its text (`NameTable.Extends`), so equal numbers
stand for equal texts and the other way round.
-/

namespace CaseCover

namespace NameTable

variable {N N' N'' : NameTable}

/-- No text has two numbers. -/
def Distinct (N : NameTable) : Prop :=
  ∀ (m n : Nat) (text : String),
    N.texts[m]? = some text → N.texts[n]? = some text → m = n

/-- Every number keeps its text. -/
def Extends (N N' : NameTable) : Prop :=
  ∀ (n : Nat) (text : String), N.texts[n]? = some text → N'.texts[n]? = some text

theorem lookup_of_lt {n : Nat} (hn : n < N.size) : N.texts[n]? = some (N.lookup n) := by
  have hat : N.texts[n]? = some N.texts[n] := Array.getElem?_eq_getElem hn
  rw [lookup, hat]
  rfl

/-- Names are equal when their numbers are. -/
theorem Distinct.lookup_eq_iff (hN : N.Distinct) {m n : Nat} (hm : m < N.size)
    (hn : n < N.size) : N.lookup m = N.lookup n ↔ m = n := by
  constructor
  · intro hsame
    exact hN m n _ (lookup_of_lt hm) (hsame ▸ lookup_of_lt hn)
  · rintro rfl
    rfl

theorem Extends.refl (N : NameTable) : N.Extends N := fun _ _ hn => hn

theorem Extends.trans (hN : N.Extends N') (hN' : N'.Extends N'') : N.Extends N'' :=
  fun n text hn => hN' n text (hN n text hn)

/-- Giving a text its number either finds it or adds a text that was not there. -/
theorem insert_cases (N : NameTable) (text : String) :
    N.insert text = N ∨
      (∀ n : Nat, N.texts[n]? ≠ some text) ∧ N.insert text = ⟨N.texts.push text⟩ := by
  unfold insert intern
  split
  · exact .inl rfl
  · rename_i hnone
    refine .inr ⟨fun n hn => ?_, rfl⟩
    have hne := Array.findIdx?_eq_none_iff.1 hnone text (Array.mem_of_getElem? hn)
    simp at hne

/-- A text has a number once it was given one. -/
theorem exists_lookup_insert (N : NameTable) (text : String) :
    ∃ n < (N.insert text).size, (N.insert text).lookup n = text := by
  refine ⟨(N.intern text).1, ?_, N.lookup_intern text⟩
  unfold insert intern
  split
  · rename_i number hfound
    exact (Array.findIdx?_eq_some_iff_getElem.1 hfound).1
  · rw [size, Array.size_push]
    exact Nat.lt_succ_self _

theorem extends_insert (N : NameTable) (text : String) : N.Extends (N.insert text) := by
  rcases N.insert_cases text with hsame | ⟨-, hpush⟩
  · rw [hsame]
    exact .refl N
  · intro n known hn
    obtain ⟨hlt, hget⟩ := Array.getElem?_eq_some_iff.1 hn
    rw [hpush, Array.getElem?_push_lt hlt, hget]

theorem Distinct.insert (hN : N.Distinct) (text : String) : (N.insert text).Distinct := by
  rcases N.insert_cases text with hsame | ⟨hnew, hpush⟩
  · rwa [hsame]
  · rw [hpush]
    intro m n known hm hn
    rw [Array.getElem?_push] at hm hn
    split at hm <;> split at hn
    · rw [‹m = _›, ‹n = _›]
    · cases hm
      exact absurd hn (hnew n)
    · cases hn
      exact absurd hm (hnew m)
    · exact hN m n known hm hn

theorem distinct_initial : initial.Distinct := by
  intro m n text hm hn
  obtain ⟨hm, -⟩ := Array.getElem?_eq_some_iff.1 hm
  obtain ⟨hn, -⟩ := Array.getElem?_eq_some_iff.1 hn
  change m < 1 at hm
  change n < 1 at hn
  omega

theorem insertAll_keeps (hN : N.Distinct) (texts : List String) :
    N.Extends (N.insertAll texts) ∧ (N.insertAll texts).Distinct := by
  unfold insertAll
  induction texts generalizing N with
  | nil => exact ⟨.refl N, hN⟩
  | cons text rest ih =>
      obtain ⟨hkeeps, hdistinct⟩ := ih (hN.insert text)
      exact ⟨(N.extends_insert text).trans hkeeps, hdistinct⟩

end NameTable

end CaseCover
