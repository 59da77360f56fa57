import CaseCover.Proofs.Hierarchy.JoinBounds

/-!
Joins as least upper bounds. Two applications meet at the nearest data type that both are viewed
as, if that is a proper ancestor of the first (`Linear.exists_meeting`); a first type that is
itself above the data type of the second is overlooked (`FallsShort`). A join that nowhere falls
short is below every plain type that is above both (`Linear.join_least`), since a type above two
arguments is above what they are joined to wherever a parameter stands for them
(`Junction.Fits`).
-/

namespace CaseCover

namespace Declarations

open Relation (ReflTransGen TransGen)

variable {D : Declarations}

/-- The join of two types meets, now or in a join that it leads to, a first type whose data type
is overlooked although the second inherits from it. -/
inductive FallsShort (D : Declarations) : Ty → Ty → Prop
  | here {d e : DataId} {as bs : List Ty} (hab : D.Unrelated (.app d as) (.app e bs))
      (hne : e ≠ d) (h : D.isDescendant e d = true) : D.FallsShort (.app d as) (.app e bs)
  | call {a b : Ty} {q : Ty × Ty} (hcall : D.JoinCall a b q) (h : D.FallsShort q.1 q.2) :
      D.FallsShort a b

/-- A walk upwards is about to visit an application: what else is in its queue was seen, and all
that was seen inherits from the application's data type. -/
structure Climbs (D : Declarations) (d : DataId) (as queue : List Ty) (seen : List DataId) :
    Prop where
  queued : Ty.app d as ∈ queue
  others : ∀ t ∈ queue, t = .app d as ∨ ∃ e ∈ seen, t.constructor? = some e
  below : ∀ e ∈ seen, TransGen D.Inherits e d

namespace Climbs

variable {t : Ty} {d : DataId} {as queue : List Ty} {seen : List DataId}

theorem start (d : DataId) (as : List Ty) : D.Climbs d as [.app d as] [] where
  queued := List.mem_singleton_self _
  others := fun _ ht => .inl (List.mem_singleton.1 ht)
  below := by simp

theorem not_seen (h : D.Climbs d as queue seen) (hD : D.Acyclic) : d ∉ seen :=
  fun hd => hD d (h.below d hd)

theorem ne_of_seen (h : D.Climbs d as queue seen) (hD : D.Acyclic)
    (ht : ∃ e ∈ seen, t.constructor? = some e) : Ty.app d as ≠ t := by
  rintro rfl
  obtain ⟨e, he, hde⟩ := ht
  exact h.not_seen hD (Option.some.inj hde ▸ he)

/-- What was seen is taken from the queue. -/
theorem skip (h : D.Climbs d as (t :: queue) seen) (hD : D.Acyclic)
    (ht : ∃ e ∈ seen, t.constructor? = some e) : D.Climbs d as queue seen where
  queued := (List.mem_cons.1 h.queued).resolve_left (h.ne_of_seen hD ht)
  others := fun u hu => h.others u (List.mem_cons_of_mem t hu)
  below := h.below

/-- The application is visited, and its only parent is the next to be. -/
theorem expand (h : D.Climbs d as (.app d as :: queue) seen) (hlinear : D.Linear)
    {g : DataId} {inner : List Ty} (hp : .app g inner ∈ (D.get d).parents) :
    D.Climbs g (inner.map (Ty.substitute d as)) (queue ++ D.parentsOf d as) (d :: seen) where
  queued := by
    have hparent := List.mem_map_of_mem (f := Ty.substitute d as) hp
    rw [Ty.substitute_app] at hparent
    exact List.mem_append_right queue hparent
  others := by
    intro t ht
    rcases List.mem_append.1 ht with ht | ht
    · right
      rcases h.others t (List.mem_cons_of_mem _ ht) with rfl | ⟨e, he, hte⟩
      · exact ⟨d, List.mem_cons_self, rfl⟩
      · exact ⟨e, List.mem_cons_of_mem d he, hte⟩
    · obtain ⟨p, hother, rfl⟩ := List.mem_map.1 ht
      rw [hlinear.parent_unique d p hother _ hp, Ty.substitute_app]
      exact .inl rfl
  below := by
    have hstep : D.Inherits d g := ⟨_, hp, rfl⟩
    intro e he
    rcases List.mem_cons.1 he with rfl | he
    · exact .single hstep
    · exact (h.below e he).tail hstep

end Climbs

namespace Linear

/-- The only way up from an application is by its parent. -/
theorem exists_parent (hlinear : D.Linear) {d f : DataId} {as us : List Ty}
    (hreach : ReflTransGen D.StepsUp (.app d as) (.app f us)) :
    (d = f ∧ as = us) ∨ ∃ g inner, .app g inner ∈ (D.get d).parents ∧
      ReflTransGen D.StepsUp (.app g (inner.map (Ty.substitute d as))) (.app f us) := by
  rcases hreach.cases_head with heq | ⟨up, ⟨_, _, heq, hparent⟩, hrest⟩
  · exact .inl (Ty.app.inj heq)
  · obtain ⟨rfl, rfl⟩ := Ty.app.inj heq
    obtain ⟨p, hp, rfl⟩ := List.mem_map.1 hparent
    obtain ⟨g, inner, rfl⟩ := hlinear.applied d p hp
    rw [Ty.substitute_app] at hrest
    exact .inr ⟨g, inner, hp, hrest⟩

/-- The walk upwards from a type that is not yet visited meets `b` at or below every view that
both have. -/
theorem meeting?_of_climbs (hlinear : D.Linear) {b start view : Ty} {fuel : Nat} {d f : DataId}
    {as us queue : List Ty} {seen : List DataId} (hclimbs : D.Climbs d as queue seen)
    (hstart : ∃ e ∈ seen, start.constructor? = some e)
    (hfuel : queue.length + D.unseen seen ≤ fuel)
    (hreach : ReflTransGen D.StepsUp (.app d as) (.app f us))
    (hview : (D.upcast b f).value = some view) :
    ∃ q, D.meeting? b (D.ancestorsFrom start fuel queue seen).value = some q ∧
      ReflTransGen D.StepsUp q.1 (.app f us) := by
  induction fuel generalizing d as queue seen with
  | zero => exact absurd (List.length_pos_of_mem hclimbs.queued) (by omega)
  | succ fuel ih =>
      have hnew := hclimbs.not_seen hlinear.acyclic
      cases queue with
      | nil => cases hclimbs.queued
      | cons t queue =>
          rw [List.length_cons] at hfuel
          rcases hclimbs.others t List.mem_cons_self with rfl | hseen
          · have hother := hclimbs.ne_of_seen hlinear.acyclic hstart
            simp only [ancestorsFrom, if_neg hnew, if_neg hother, meeting?]
            -- The first meeting is here, or at a parent, since `b` has no view here.
            cases hup : (D.upcast b d).value with
            | some view => exact ⟨_, rfl, hreach⟩
            | none =>
                rcases hlinear.exists_parent hreach with ⟨rfl, -⟩ | ⟨g, inner, hp, hrest⟩
                · rw [hview] at hup
                  cases hup
                · obtain ⟨e, he, hse⟩ := hstart
                  refine ih (hclimbs.expand hlinear hp) ⟨e, List.mem_cons_of_mem d he, hse⟩ ?_ hrest
                  have hunseen := unseen_cons (D := D) hnew
                  rw [List.length_append, parentsOf, List.length_map]
                  omega
          · have hrest := hclimbs.skip hlinear.acyclic hseen
            obtain ⟨e, he, ht⟩ := hseen
            cases t with
            | app e' args =>
                obtain rfl := Option.some.inj ht
                simp only [ancestorsFrom, if_pos he]
                exact ih hrest hstart (by omega) hreach
            | prim _ | lit _ | union _ _ | param _ _ => cases ht

/-- An application meets `b` at or below every view that both have, if that is of another data
type than its own. -/
theorem exists_meeting (hlinear : D.Linear) {b view : Ty} {d f : DataId} {as us : List Ty}
    (hreach : ReflTransGen D.StepsUp (.app d as) (.app f us)) (hne : f ≠ d)
    (hview : (D.upcast b f).value = some view) :
    ∃ q, D.meeting? b (D.ancestors (.app d as)).value = some q ∧
      ReflTransGen D.StepsUp q.1 (.app f us) := by
  obtain ⟨g, inner, hp, hrest⟩ := (hlinear.exists_parent hreach).resolve_left
    fun h => hne h.1.symm
  have hnew : d ∉ ([] : List DataId) := List.not_mem_nil
  have hunseen := unseen_cons (D := D) hnew
  rw [unseen_nil] at hunseen
  simp only [ancestors, walkLimit, ancestorsFrom, List.not_mem_nil, if_false, if_true,
    List.nil_append]
  have hclimbs := (Climbs.start d as).expand hlinear hp
  refine hlinear.meeting?_of_climbs hclimbs ⟨d, List.mem_singleton_self d, rfl⟩ ?_ hrest hview
  rw [parentsOf, List.length_map]
  omega

end Linear

namespace Junction

/-- A junction is below every plain type above its two sides. -/
def Least (D : Declarations) (j : Junction) : Prop :=
  ∀ c, D.Plain c → D.Below j.left c → D.Below j.right c → D.Below j.joined c

/-- A data type applied to the sides of junctions. -/
def app (d : DataId) (js : List Junction) : Junction :=
  ⟨.app d (js.map left), .app d (js.map right), .app d (js.map joined)⟩

/-- A type with the sides of junctions put in for the parameters of a data type. -/
def substitute (owner : DataId) (js : List Junction) (t : Ty) : Junction :=
  ⟨t.substitute owner (js.map left), t.substitute owner (js.map right),
    t.substitute owner (js.map joined)⟩

/-- Junctions that are least, and what is built from them argument by argument. -/
inductive Fits (D : Declarations) : Junction → Prop
  | least {j : Junction} (h : j.Least D) : j.Fits D
  | app (d : DataId) {js : List Junction} (h : ∀ j ∈ js, j.Fits D) : (Junction.app d js).Fits D

theorem fits_same (t : Ty) : Fits D ⟨t, t, t⟩ := .least fun _ _ hleft _ => hleft

theorem fits_substitute {t : Ty} (ht : t.flags.hasUnion = false) (owner : DataId)
    {js : List Junction} (hjs : ∀ j ∈ js, j.Fits D) : (substitute owner js t).Fits D := by
  induction t with
  | prim p => exact fits_same (.prim p)
  | lit v => exact fits_same (.lit v)
  | union a b => exact absurd ht (by rw [Ty.hasUnion_union]; exact Bool.noConfusion)
  | param o i =>
      unfold substitute Ty.substitute
      split
      · simp only [List.getElem?_map]
        cases hi : js[i]? with
        | none => exact fits_same .any
        | some j => exact hjs j (List.mem_of_getElem? hi)
      · exact fits_same (.param o i)
  | app d inner ih =>
      have heq : substitute owner js (.app d inner) =
          .app d (inner.map (substitute owner js)) := by
        simp only [substitute, Junction.app, Ty.substitute_app, List.map_map,
          Function.comp_def]
      rw [heq]
      refine .app d fun j hj => ?_
      obtain ⟨t, ht', rfl⟩ := List.mem_map.1 hj
      exact ih t ht' (Ty.hasUnion_arg ht ht')

/-- On the way up from applications whose arguments fit, the arguments fit again. -/
theorem fits_stepsUp (hlinear : D.Linear) {d f : DataId} {us : List Ty} {js : List Junction}
    (hjs : ∀ j ∈ js, j.Fits D) (hup : ReflTransGen D.StepsUp (app d js).left (.app f us)) :
    ∃ ks : List Junction, (∀ k ∈ ks, k.Fits D) ∧ (app f ks).left = .app f us ∧
      ReflTransGen D.StepsUp (app d js).right (app f ks).right ∧
      ReflTransGen D.StepsUp (app d js).joined (app f ks).joined := by
  suffices ∀ up, ReflTransGen D.StepsUp (app d js).left up → ∃ f, ∃ ks : List Junction,
      (∀ k ∈ ks, k.Fits D) ∧ (app f ks).left = up ∧
        ReflTransGen D.StepsUp (app d js).right (app f ks).right ∧
        ReflTransGen D.StepsUp (app d js).joined (app f ks).joined by
    obtain ⟨g, ks, hks, heq, hright, hjoined⟩ := this _ hup
    obtain ⟨rfl, -⟩ := Ty.app.inj heq
    exact ⟨ks, hks, heq, hright, hjoined⟩
  intro up hup
  induction hup with
  | refl => exact ⟨d, js, hjs, rfl, .refl, .refl⟩
  | tail _ hstep ih =>
      obtain ⟨m, ks, hks, rfl, hright, hjoined⟩ := ih
      obtain ⟨_, _, heq, hparent⟩ := hstep
      obtain ⟨rfl, rfl⟩ := Ty.app.inj heq
      obtain ⟨p, hp, rfl⟩ := List.mem_map.1 hparent
      obtain ⟨f, inner, rfl⟩ := hlinear.applied m p hp
      have hstep : ∀ args, D.StepsUp (.app m args) ((Ty.app f inner).substitute m args) :=
        fun args => stepsUp_app (List.mem_map_of_mem hp)
      have hside : ∀ side : Junction → Ty, (∀ t, side (substitute m ks t) =
          t.substitute m (ks.map side)) → Ty.app f ((inner.map (substitute m ks)).map side) =
            (Ty.app f inner).substitute m (ks.map side) := by
        intro side hside
        rw [Ty.substitute_app, List.map_map]
        exact congrArg (Ty.app f) (List.map_congr_left fun t _ => hside t)
      have hupRight : (app f (inner.map (substitute m ks))).right =
          (Ty.app f inner).substitute m (ks.map right) := hside right fun _ => rfl
      have hupJoined : (app f (inner.map (substitute m ks))).joined =
          (Ty.app f inner).substitute m (ks.map joined) := hside joined fun _ => rfl
      refine ⟨f, inner.map (substitute m ks), fun k hk => ?_, hside left fun _ => rfl,
        hright.tail ?_, hjoined.tail ?_⟩
      · obtain ⟨t, ht, rfl⟩ := List.mem_map.1 hk
        exact fits_substitute (Ty.hasUnion_arg (hlinear.plain m _ hp).1 ht) m hks
      · rw [hupRight]
        exact hstep _
      · rw [hupJoined]
        exact hstep _

/-- What fits is least. The induction is on the type above the two sides, which is compared with
views whose arguments fit. -/
theorem Fits.isLeast (hlinear : D.Linear) {j : Junction} (hj : j.Fits D) : j.Least D := by
  intro c hc hleft hright
  induction c generalizing j with
  | union x y => exact absurd rfl (hc.ne_union x y)
  | prim _ | lit _ | param _ _ =>
      cases hj with
      | least h => exact h _ hc hleft hright
      | app d hjs =>
          cases hleft.comparison with
          | atOnce hat =>
              rcases hat with h | h | h | h | h
              · cases h
              · cases h
              · exact absurd h hc.ne_noType
              · cases h
              · exact h ▸ D.below_any _
  | app f cs ih =>
      cases hj with
      | least h => exact h _ hc hleft hright
      | app d hjs =>
          -- The views of all three sides at `f` have arguments that fit position by position.
          obtain ⟨us, hus⟩ := exists_view_of_below hleft
          obtain ⟨ks, hks, heq, hupRight, hupJoined⟩ :=
            fits_stepsUp hlinear hjs (D.upcast_sound hus).2
          obtain ⟨-, rfl⟩ := Ty.app.inj heq
          have hconformLeft := (below_iff_of_view hus).1 hleft
          have hconformRight := (below_iff_of_view (hlinear.upcast_eq hupRight)).1 hright
          refine (below_iff_of_view (hlinear.upcast_eq hupJoined)).2 ?_
          intro i p w c hp hw hci
          have hvariance := hlinear.covariant f p (List.mem_of_getElem? hp)
          refine ⟨fun hne => ?_, fun hne => absurd hvariance hne⟩
          rw [List.getElem?_map, Option.map_eq_some_iff] at hw
          obtain ⟨k, hk, rfl⟩ := hw
          have hmem := List.mem_of_getElem? hci
          have hkLeft : (ks.map left)[i]? = some k.left := by rw [List.getElem?_map, hk]; rfl
          have hkRight : (ks.map right)[i]? = some k.right := by rw [List.getElem?_map, hk]; rfl
          exact ih c hmem (hks k (List.mem_of_getElem? hk)) (hc.arg hmem)
            ((hconformLeft i p _ c hp hkLeft hci).1 hne)
            ((hconformRight i p _ c hp hkRight hci).1 hne)

end Junction

theorem Unrelated.not_left_below {a b : Ty} (h : D.Unrelated a b) : ¬ D.Below a b :=
  fun hbelow => Bool.false_ne_true (h.not_below.unique hbelow)

theorem Unrelated.not_right_below {a b : Ty} (h : D.Unrelated a b) : ¬ D.Below b a :=
  fun hbelow => Bool.false_ne_true (h.not_above.unique hbelow)

/-- Below a plain type are its literals and what can be viewed as it. -/
theorem Plain.cases_below {a c : Ty} (hc : D.Plain c) (ha : D.UnionFree a) (hne : a ≠ c)
    (hnoType : a ≠ .noType) (hnever : a ≠ .never) (hany : c ≠ .any) (h : D.Below a c) :
    (∃ v, a = .lit v ∧ c = .prim v.base) ∨ ∃ d as f cs us, a = .app d as ∧ c = .app f cs ∧
      (D.upcast a f).value = some (.app f us) := by
  cases h.comparison with
  | atOnce hat =>
      rcases hat with h | h | h | h | h
      · exact absurd h hne
      · exact absurd h hnoType
      · exact absurd h hc.ne_noType
      · exact absurd h hnever
      · exact absurd h hany
  | union _ _ => exact absurd rfl (ha.ne_union _ _)
  | intoUnion _ _ _ => exact absurd rfl (hc.ne_union _ _)
  | @literal v _ hunion hbase =>
      rcases eq_of_base_below hunion hbase with rfl | h | h
      · exact .inl ⟨v, rfl, rfl⟩
      · exact absurd h hany
      · exact absurd h hc.ne_noType
  | view hup _ => exact .inr ⟨_, _, _, _, _, rfl, rfl, hup⟩

/-- Above two unrelated types are, of plain types, `any`, the built-in type of two literals, and
what two applications can be viewed as. -/
theorem Unrelated.cases_above {a b c : Ty} (hab : D.Unrelated a b) (ha : D.UnionFree a)
    (hb : D.UnionFree b) (hc : D.Plain c) (hac : D.Below a c) (hbc : D.Below b c) :
    c = .any ∨ (∃ v w, a = .lit v ∧ b = .lit w ∧ c = .prim v.base ∧ c = .prim w.base) ∨
      ∃ d as e bs f cs us vs, a = .app d as ∧ b = .app e bs ∧ c = .app f cs ∧
        (D.upcast a f).value = some (.app f us) ∧ (D.upcast b f).value = some (.app f vs) := by
  by_cases hany : c = .any
  · exact .inl hany
  have hleft := hc.cases_below ha (fun h => hab.not_right_below (h ▸ hbc))
    (fun h => hab.not_left_below (h ▸ D.noType_below b))
    (fun h => hab.not_left_below (h ▸ D.never_below b)) hany hac
  have hright := hc.cases_below hb (fun h => hab.not_left_below (h ▸ hac))
    (fun h => hab.not_right_below (h ▸ D.noType_below a))
    (fun h => hab.not_right_below (h ▸ D.never_below a)) hany hbc
  right
  rcases hleft with ⟨v, rfl, rfl⟩ | ⟨d, as, f, cs, us, rfl, rfl, hus⟩
  · rcases hright with ⟨w, rfl, hw⟩ | ⟨_, _, _, _, _, -, h, -⟩
    · exact .inl ⟨v, w, rfl, rfl, rfl, hw⟩
    · cases h
  · rcases hright with ⟨_, -, h⟩ | ⟨e, bs, _, _, vs, rfl, h, hvs⟩
    · cases h
    · obtain ⟨rfl, rfl⟩ := Ty.app.inj h
      exact .inr ⟨d, as, e, bs, f, cs, us, vs, rfl, rfl, rfl, hus, hvs⟩

namespace Linear

/-- Covariant arguments do not keep applications from being joined. -/
theorem not_argsDiffer {params : List TypeParam}
    (hcovariant : ∀ p ∈ params, p.variance = .covariant) (as bs : List Ty) :
    ¬ ArgsDiffer params as bs := by
  induction params generalizing as bs with
  | nil => exact id
  | cons p params ih =>
      cases as with
      | nil => exact id
      | cons a as =>
          cases bs with
          | nil => exact id
          | cons b bs =>
              rintro (⟨hp, -⟩ | hrest)
              · exact hp (hcovariant p List.mem_cons_self)
              · exact ih (fun q hq => hcovariant q (List.mem_cons_of_mem p hq)) as bs hrest

/-- Two unrelated applications with a common view meet at or below it, unless the first is
overlooked. -/
theorem meets_below_view (hlinear : D.Linear) {d e f : DataId} {as bs us vs : List Ty}
    (hab : D.Unrelated (.app d as) (.app e bs)) (hshort : ¬ D.FallsShort (.app d as) (.app e bs))
    (hus : (D.upcast (.app d as) f).value = some (.app f us))
    (hvs : (D.upcast (.app e bs) f).value = some (.app f vs)) :
    ∃ m ms ns, D.meeting? (.app e bs) (D.ancestors (.app d as)).value =
        some (.app m ms, .app m ns) ∧
      (D.upcast (.app m ms) f).value = some (.app f us) ∧
      (D.upcast (.app m ns) f).value = some (.app f vs) := by
  have hup := (D.upcast_sound hus).2
  have hup' := (D.upcast_sound hvs).2
  have hother : f ≠ d := by
    rintro rfl
    have hne : e ≠ f := by
      rintro rfl
      exact not_argsDiffer (hlinear.covariant e) as bs (hab.unjoined e as bs rfl rfl)
    obtain ⟨_, _, heq, hinherits⟩ := inherits_of_stepsUp hlinear.applied hup'
    obtain ⟨rfl, -⟩ := Ty.app.inj heq
    exact hshort (.here hab hne (isDescendant_iff.2 hinherits))
  obtain ⟨q, hq, hrest⟩ := hlinear.exists_meeting hup hother hvs
  obtain ⟨_, _, m, ms, ns, -, rfl, -, -, hright⟩ := meeting?_views hq
  refine ⟨m, ms, ns, hq, hlinear.upcast_eq hrest, ?_⟩
  -- The view of the second type at the meeting goes on to a view at `f`, and there is only one.
  obtain ⟨_, _, heq, hinherits⟩ := inherits_of_stepsUp hlinear.applied hrest
  obtain ⟨rfl, -⟩ := Ty.app.inj heq
  obtain ⟨ws, hws⟩ := exists_view_of_inherits ns hinherits
  have hsame := hlinear.upcast_eq (hright.trans (D.upcast_sound hws).2)
  rw [hvs] at hsame
  rw [hws, hsame]

/-- A join that nowhere falls short is below every plain type above both types. -/
theorem join_least (hlinear : D.Linear) (hD : D.Reachable) {n : Nat} {a b c r : Ty}
    (ha : D.UnionFree a) (hb : D.UnionFree b) (hr : (D.lubWithin n a b).value? = some r)
    (hshort : ¬ D.FallsShort a b) (hc : D.Plain c) (hac : D.Below a c) (hbc : D.Below b c) :
    D.Below r c := by
  induction n generalizing a b c r with
  | zero => cases hr
  | succ n ih =>
      cases joinOutcome hr with
      | same => exact hac
      | unconstrained => exact D.noType_below c
      | right => exact hbc
      | left => exact hac
      | args hab hargs =>
          obtain ⟨js, rfl, rfl, rfl, hjs⟩ := exists_junctions (hlinear.covariant _)
            ha.admitted.length_args hb.admitted.length_args hargs
          have hleast : ∀ j ∈ js, j.Fits D := by
            intro j hj
            refine .least fun c hc hleft hright => ?_
            exact ih (ha.arg (List.mem_map_of_mem hj)) (hb.arg (List.mem_map_of_mem hj))
              (hjs j hj).2 (fun h => hshort (.call (.arg hab (hjs j hj).1) h)) hc hleft hright
          exact (Junction.Fits.app _ hleast).isLeast hlinear c hc hac hbc
      | widened hab hw hwidened =>
          rcases hab.cases_above ha hb hc hac hbc with
            rfl | ⟨v, w, rfl, rfl, hv, hw'⟩ | ⟨d, as, e, bs, f, cs, us, vs, rfl, rfl, -⟩
          · exact D.below_any r
          · refine ih ha.widen hb.widen hwidened (fun h => hshort (.call (.widen hab hw) h)) hc
              ?_ ?_
            · exact hv ▸ D.below_self _
            · exact hw' ▸ D.below_self _
          · exact hw.elim (fun h => absurd rfl h) fun h => absurd rfl h
      | met hab hw hq hmet =>
          rcases hab.cases_above ha hb hc hac hbc with
            rfl | ⟨v, w, rfl, hlit, -⟩ | ⟨d, as, e, bs, f, cs, us, vs, rfl, heq, rfl, hus, hvs⟩
          · exact D.below_any r
          · cases hlit
          · obtain ⟨rfl, rfl⟩ := Ty.app.inj heq
            obtain ⟨m, ms, ns, hfirst, hms, hns⟩ := hlinear.meets_below_view hab hshort hus hvs
            obtain rfl := Option.some.inj (hq.symm.trans hfirst)
            obtain ⟨_, _, _, _, _, -, hpair, -, hleft, hright⟩ := meeting?_views hq
            obtain ⟨hms', hns'⟩ := Prod.mk.inj hpair
            refine ih (ha.stepsUp hD hlinear (hms' ▸ hleft)) (hb.stepsUp hD hlinear (hns' ▸ hright))
              hmet (fun h => hshort (.call (.meet hab hw hq) h)) hc ?_ ?_
            · exact (below_iff_of_view hms).2 ((below_iff_of_view hus).1 hac)
            · exact (below_iff_of_view hns).2 ((below_iff_of_view hvs).1 hbc)
      | top hab hw hnone =>
          rcases hab.cases_above ha hb hc hac hbc with
            rfl | ⟨v, w, rfl, rfl, -⟩ | ⟨d, as, e, bs, f, cs, us, vs, rfl, rfl, rfl, hus, hvs⟩
          · exact D.below_self _
          · exact absurd (.inl (by simp [Ty.widen])) hw
          · obtain ⟨m, ms, ns, hfirst, -⟩ := hlinear.meets_below_view hab hshort hus hvs
            rw [hnone e bs rfl] at hfirst
            cases hfirst

end Linear

end Declarations

end CaseCover
