import CaseCover.Proofs.Hierarchy.Routes

/-!
The walks along parents agree. Written as loops without a limit on their steps
(`UpcastEnds`, `AncestorsEnd`, `DescentEnds`), the three walks end on every parent relation,
with what the functions with a limit give. Where the declared parents are applications, a type is
viewed at exactly the data types from which its own descends, and its ancestors are one type for
each of these but its own (`ParentsApplied.walks_agree`).
-/

namespace CaseCover

namespace Declarations

open Relation (ReflTransGen)

/-- The walk to the types above `start` ends with a list. -/
inductive AncestorsEnd (D : Declarations) (start : Ty) :
    List Ty → List DataId → List Ty → Prop
  | exhausted (seen : List DataId) : D.AncestorsEnd start [] seen []
  | passed {t : Ty} {queue : List Ty} {seen : List DataId} {above : List Ty}
      (ht : t.constructor? = none) (h : D.AncestorsEnd start queue seen above) :
      D.AncestorsEnd start (t :: queue) seen above
  | skipped {d : DataId} {args queue : List Ty} {seen : List DataId} {above : List Ty}
      (hseen : d ∈ seen) (h : D.AncestorsEnd start queue seen above) :
      D.AncestorsEnd start (.app d args :: queue) seen above
  | expanded {d : DataId} {args queue : List Ty} {seen : List DataId} {above : List Ty}
      (hnew : d ∉ seen)
      (h : D.AncestorsEnd start (queue ++ D.parentsOf d args) (d :: seen) above) :
      D.AncestorsEnd start (.app d args :: queue) seen
        (if .app d args = start then above else .app d args :: above)

variable {D : Declarations}

theorem ancestorsFrom_ends {start : Ty} {fuel : Nat} {queue : List Ty} {seen : List DataId}
    (hfuel : queue.length + D.unseen seen ≤ fuel) :
    D.AncestorsEnd start queue seen (D.ancestorsFrom start fuel queue seen).value := by
  refine walk_induct (motive := fun fuel queue seen =>
    D.AncestorsEnd start queue seen (D.ancestorsFrom start fuel queue seen).value)
    Ty.constructor? ?finished ?passed ?skipped ?expanded hfuel
  case finished => exact fun fuel seen => by cases fuel <;> exact .exhausted seen
  case passed =>
    intro fuel next rest seen hnext ih
    rw [ancestorsFrom_of_constructor? _ _ hnext]
    exact .passed hnext ih
  case skipped =>
    intro fuel next rest seen d hnext hseen ih
    obtain ⟨args, rfl⟩ := Ty.constructor?_eq_some hnext
    simpa [ancestorsFrom, hseen] using .skipped hseen ih
  case expanded =>
    intro fuel next rest seen d hnext hnew ih
    obtain ⟨args, rfl⟩ := Ty.constructor?_eq_some hnext
    simp only [ancestorsFrom, if_neg hnew]
    exact .expanded hnew (ih _ (by simp [parentsOf]))

/-- What is listed are applications of different data types that were not seen before. -/
theorem AncestorsEnd.listed {start : Ty} {queue above : List Ty} {seen : List DataId}
    (h : D.AncestorsEnd start queue seen above) :
    ∃ ds : List DataId, above.map Ty.constructor? = ds.map some ∧ ds.Nodup ∧
      ∀ d ∈ ds, d ∉ seen := by
  induction h with
  | exhausted seen => exact ⟨[], rfl, List.nodup_nil, nofun⟩
  | passed _ _ ih => exact ih
  | skipped _ _ ih => exact ih
  | @expanded d args queue seen above hnew _ ih =>
      obtain ⟨ds, hds, hnodup, hunseen⟩ := ih
      have hlater : ∀ e ∈ ds, e ∉ seen := fun e he h =>
        hunseen e he (List.mem_cons_of_mem d h)
      split
      · exact ⟨ds, hds, hnodup, hlater⟩
      · have hd : d ∉ ds := fun h => hunseen d h List.mem_cons_self
        exact ⟨d :: ds, by simp [hds, Ty.constructor?], List.nodup_cons.2 ⟨hd, hnodup⟩,
          List.forall_mem_cons.2 ⟨hnew, hlater⟩⟩

/-- Whatever data type is still to be found is listed, if it is not that of the start. -/
theorem AncestorsEnd.complete {start : Ty} {queue above : List Ty} {seen : List DataId}
    {ancestor : DataId} (h : D.AncestorsEnd start queue seen above)
    (happroaches : D.Approaches ancestor (queue.filterMap Ty.constructor?) seen)
    (hstart : start.constructor? ≠ some ancestor) :
    some ancestor ∈ above.map Ty.constructor? := by
  induction h with
  | exhausted seen => exact absurd rfl happroaches.stack_ne_nil
  | passed ht _ ih =>
      rw [List.filterMap_cons_none ht] at happroaches
      exact ih happroaches
  | skipped hseen _ ih => exact ih (happroaches.skip hseen)
  | @expanded d args queue seen above _ _ ih =>
      by_cases hd : d = ancestor
      · have hother : Ty.app d args ≠ start := by
          rintro rfl
          exact hstart (congrArg some hd)
        rw [if_neg hother, List.map_cons]
        exact List.mem_cons.2 (.inl (congrArg some hd.symm))
      · have hlater := ih (happroaches.expand hd (by simp +contextual) fun e he => by
          rw [List.filterMap_append]
          exact List.mem_append_right _ (mem_constructors_parentsOf args he))
        split
        · exact hlater
        · exact List.mem_cons_of_mem _ hlater

/-- Where the declared parents are applications, all walks from an application end; it has a view
at a data type exactly when its own data type descends from that, the view is an application
of it, and the ancestors are one application of each other data type from which its own
descends. -/
theorem ParentsApplied.walks_agree (hD : D.ParentsApplied) (d x : DataId) (args : List Ty) :
    (D.UpcastEnds x [.app d args] [] (D.upcast (.app d args) x).value ∧
        D.AncestorsEnd (.app d args) [.app d args] [] (D.ancestors (.app d args)).value ∧
        D.DescentEnds x [d] [] (D.isDescendant d x)) ∧
      ((D.upcast (.app d args) x).value.isSome = true ↔ D.isDescendant d x = true) ∧
      (∀ up, (D.upcast (.app d args) x).value = some up → ∃ us, up = .app x us) ∧
      ∃ ds : List DataId, (D.ancestors (.app d args)).value.map Ty.constructor? = ds.map some ∧
        ds.Nodup ∧ ∀ e, e ∈ ds ↔ e ≠ d ∧ D.isDescendant d e = true := by
  have hends : D.AncestorsEnd (.app d args) [.app d args] [] (D.ancestors (.app d args)).value :=
    ancestorsFrom_ends (D.walkLimit_enough _)
  refine ⟨⟨upcastFrom_ends (D.walkLimit_enough _), hends, reaches_ends (D.walkLimit_enough d)⟩,
    ?view, fun up hup => (D.upcast_sound hup).1, ?ancestors⟩
  case view =>
    rw [isDescendant_iff, Option.isSome_iff_exists]
    constructor
    · rintro ⟨up, hup⟩
      obtain ⟨⟨us, rfl⟩, hsteps⟩ := D.upcast_sound hup
      obtain ⟨e, es, heq, hreach⟩ := inherits_of_stepsUp hD hsteps
      rw [(Ty.app.inj heq).1]
      exact hreach
    · intro hreach
      obtain ⟨us, hus⟩ := exists_view_of_inherits args hreach
      exact ⟨_, hus⟩
  case ancestors =>
    obtain ⟨ds, hds, hnodup, -⟩ := hends.listed
    refine ⟨ds, hds, hnodup, fun e => ?_⟩
    have hmem : e ∈ ds ↔ some e ∈ (D.ancestors (.app d args)).value.map Ty.constructor? := by
      simp [hds]
    rw [hmem, isDescendant_iff]
    constructor
    · intro he
      obtain ⟨up, hup, hupe⟩ := List.mem_map.1 he
      obtain ⟨⟨f, fs, rfl, hne⟩, hsteps⟩ := D.ancestors_app_sound d args up hup
      obtain ⟨g, gs, heq, hreach⟩ := inherits_of_stepsUp hD hsteps.to_reflTransGen
      obtain rfl : f = e := Option.some.inj hupe
      rw [(Ty.app.inj heq).1] at hne ⊢
      exact ⟨hne, hreach⟩
    · rintro ⟨hne, hreach⟩
      exact hends.complete (.start hreach) fun h => hne (Option.some.inj h).symm

/-- `A[+X]` below `B[Some[X]]` and `B[+Y]` below `A[Y]` and `Option[Y]`: going round adds to the
argument every time. -/
def spiral : Declarations :=
  let (a, D) := Workspace.initial.decls.declare "A" [⟨"X", .covariant⟩] (.abstractType false)
  let (b, D) := D.declare "B" [⟨"Y", .covariant⟩] (.abstractType false)
  ((D.extend a (.app b [.app Workspace.known.some [.param a 0]])).extend b
    (.app a [.param b 0])).extend b (.app Workspace.known.option [.param b 0])

theorem walks_agree_spiral :
    spiral.ParentsApplied ∧ spiral.Inherits ⟨8⟩ ⟨9⟩ ∧ spiral.Inherits ⟨9⟩ ⟨8⟩ ∧
      (spiral.upcast (.app ⟨8⟩ [.prim .int]) ⟨0⟩).value.isSome = true ∧
      ∃ ds : List DataId,
        (spiral.ancestors (.app ⟨8⟩ [.prim .int])).value.map Ty.constructor? = ds.map some ∧
          ds.Nodup ∧ ∀ e, e ∈ ds ↔ e ≠ ⟨8⟩ ∧ spiral.isDescendant ⟨8⟩ e = true := by
  have hscoped : spiral.ParentsScoped := parentsScoped_of_forall (by decide)
  obtain ⟨-, hview, -, hancestors⟩ := hscoped.applied.walks_agree ⟨8⟩ ⟨0⟩ [.prim .int]
  refine ⟨hscoped.applied, ?_, ?_, hview.2 (by decide), hancestors⟩
  · exact ⟨.app ⟨9⟩ [.app ⟨1⟩ [.param ⟨8⟩ 0]], by decide, rfl⟩
  · exact ⟨.app ⟨8⟩ [.param ⟨9⟩ 0], by decide, rfl⟩

end Declarations

end CaseCover
