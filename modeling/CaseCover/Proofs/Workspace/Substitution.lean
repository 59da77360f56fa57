import CaseCover.Proofs.Ty.Made
import CaseCover.Proofs.Workspace.HashConsing

/-!
Substitution on handles. In every workspace that a client can arrive at, putting arguments into
a type with the parameters of one data type only and then further arguments into the result
leads to the same handle as putting in the arguments with the further ones put in already; and a
type into which a data type's own parameters are put keeps its handle
(`Reachable.substitute_composes`).
-/

namespace CaseCover

namespace Declarations

/-- The own parameters of a data type are put in for themselves. -/
theorem genericSelf_args_getElem? (D : Declarations) (d : DataId) {i : Nat}
    (hi : i < (D.get d).arity) : (D.genericSelf d).args[i]? = some (.param d i) := by
  simp [genericSelf, Ty.ownApplication, Ty.args, hi]

/-- A type that clients can build does not change when the own parameters of a data type are
put in, as long as it has no further ones of them. -/
theorem substitute_genericSelf_args (D : Declarations) (d : DataId) {t : Ty} (ht : t.Made)
    (hindices : ∀ i, t.HasParam d i → i < (D.get d).arity) :
    t.substitute d (D.genericSelf d).args = t := by
  refine ht.reduced.substitute_eq_self fun i hi => ?_
  rw [D.genericSelf_args_getElem? d (hindices i hi)]
  rfl

end Declarations

namespace Workspace

variable {w : Workspace}

/-- Substitution composes, on types and on their handles, with a parameter beyond the arguments
becoming top on both sides; it changes nothing when the flags kept with the type show no
parameters, nor when the parameters are put in for themselves. -/
theorem Reachable.substitute_composes (hw : w.Reachable) {t : Ty} (ht : t.Made) {o : DataId}
    (hparams : ∀ p i, t.HasParam p i → p = o) (args : List Ty) (q : DataId) (brgs : List Ty) :
    (t.substitute o args).substitute q brgs = t.substitute o (args.map (·.substitute q brgs)) ∧
      (∀ h h', w.types.Denotes h ((t.substitute o args).substitute q brgs) →
        w.types.Denotes h' (t.substitute o (args.map (·.substitute q brgs))) → h = h') ∧
      (∀ i, args.length ≤ i →
        ((Ty.param o i).substitute o args).substitute q brgs = .any ∧
          (Ty.param o i).substitute o (args.map (·.substitute q brgs)) = .any) ∧
      (∀ h, w.types.Denotes h t → (w.types.flagsAt h).hasParam = false →
        t.substitute o args = t) ∧
      ((∀ i, t.HasParam o i → i < (w.decls.get o).arity) →
        t.substitute o (w.decls.genericSelf o).args = t ∧
          ∀ h h', w.types.Denotes h (t.substitute o (w.decls.genericSelf o).args) →
            w.types.Denotes h' t → h = h') := by
  have hconsed := (hw.hash_consing .refl).1
  have hcompose : (t.substitute o args).substitute q brgs =
      t.substitute o (args.map (·.substitute q brgs)) :=
    Ty.substitute_substitute_of_hasParam hparams
  refine ⟨hcompose, fun h h' hh hh' => ?_, fun i hi => ?_, fun h hh hflag => ?_, fun hindices => ?_⟩
  · exact (hconsed.handle_eq_iff h h' _ _ hh hh').2 hcompose
  · simp [Ty.substitute, hi]
  · rw [hconsed.flags h t hh] at hflag
    exact ht.reduced.substitute_eq_of_flag hflag
  · have hself := w.decls.substitute_genericSelf_args o ht hindices
    exact ⟨hself, fun h h' hh hh' => (hconsed.handle_eq_iff h h' _ _ hh hh').2 hself⟩

/-- A type over the parameter of `Some`, in which two sides become equal when the other side of
a union is put in for it. -/
def presentOrAbsent : Ty :=
  .join (.app known.option [.join (.param known.some 0) (.app known.none [])])
    (.param known.some 0)

theorem substitute_composes_presentOrAbsent :
    initial.Reachable ∧ presentOrAbsent.Made ∧
      (presentOrAbsent.substitute known.some [.param known.left 0]).substitute known.left
          [.app known.none []] =
        .union (.app known.option [.app known.none []]) (.app known.none []) ∧
      presentOrAbsent.substitute known.some (initial.decls.genericSelf known.some).args =
        presentOrAbsent := by
  have hmade : presentOrAbsent.Made := by
    have hparam : (Ty.param known.some 0).Made := .parameter known.some 0
    have hnone : (Ty.app known.none []).Made := .app _ nofun
    refine .join (.app _ fun a ha => ?_) hparam
    rw [List.mem_singleton.1 ha]
    exact .join hparam hnone
  have hover : presentOrAbsent.Over known.some 1 := Ty.over_of_occurs (by decide)
  obtain ⟨htwice, -, -, -, hself⟩ := Reachable.substitute_composes (w := initial) .refl hmade
    (fun p i h => (hover.of_hasParam h).1) [.param known.left 0] known.left [.app known.none []]
  exact ⟨.refl, hmade, htwice.trans (by decide),
    (hself fun i h => (hover.of_hasParam h).2).1⟩

end Workspace

end CaseCover
