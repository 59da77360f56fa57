import CaseCover.Proofs.Decl.Reachable
import CaseCover.Proofs.Pattern.ExtractionEnds

/-!
The language of patterns. Each node says what it asks of its parts (`Declarations.Allows`); an
extraction checks this while it enters a node or combines the results of its parts, and succeeds
exactly when all nodes allow what they have and the whole is no rest (`extract_succeeds`). An
ascription asks for nothing, so it hides a rest from every check (`exists_accepted_rest`).
-/

namespace CaseCover

/-- A pattern occurs in another: it is that pattern, or it occurs in one of its parts. -/
inductive Pattern.OccursIn (q : Pattern) : Pattern → Prop
  | refl : OccursIn q q
  | part {p r : Pattern} (hr : r ∈ p.parts) (h : OccursIn q r) : OccursIn q p

namespace Declarations

/-- Among the parts of a node, `_*` stands only at the end of a sequence. -/
def RestsClose (D : Declarations) (p : Pattern) : Prop :=
  ∀ before q after, p.parts = before ++ q :: after → q.isRest = true →
    after = [] ∧ ∃ n adt parts, p = .extractor n adt parts ∧ (D.get adt).isSequence = true

/-- A product is taken apart into its fields, and a singleton has no parts. -/
def TakesParts (D : Declarations) (adt : DataId) (count : Nat) : Prop :=
  match (D.get adt).kind with
  | .product fields => fields.length = count
  | .singleton => count = 0
  | .abstractType _ | .sequence => False

/-- What a node asks of its data type and of its parts. -/
def Allows (D : Declarations) : Pattern → Prop
  | .alternation n branches => D.RestsClose (.alternation n branches) ∧ branches ≠ []
  | .variant n adt parts => D.RestsClose (.variant n adt parts) ∧ D.TakesParts adt parts.length
  | .extractor n adt parts => D.RestsClose (.extractor n adt parts) ∧ (D.get adt).arity = 1
  | .wildcard _ | .binding _ _ | .named _ _ _ | .typed _ _ _ | .literal _ _ | .rest _ => True

/-- Every node of a pattern allows what it has. -/
def AllowsAll (D : Declarations) (p : Pattern) : Prop := ∀ q, q.OccursIn p → D.Allows q

theorem allowsAll_iff {D : Declarations} {p : Pattern} :
    D.AllowsAll p ↔ D.Allows p ∧ ∀ r ∈ p.parts, D.AllowsAll r := by
  constructor
  · intro h
    exact ⟨h p .refl, fun r hr q hq => h q (.part hr hq)⟩
  · rintro ⟨hroot, hparts⟩ q hq
    cases hq with
    | refl => exact hroot
    | part hr h => exact hparts _ hr q h

theorem allowsAll_of_parts_nil {D : Declarations} {p : Pattern} (hp : D.Allows p)
    (hparts : p.parts = []) : D.AllowsAll p := by
  refine allowsAll_iff.2 ⟨hp, fun r hr => ?_⟩
  rw [hparts] at hr
  exact nomatch hr

theorem allowsAll_named {D : Declarations} {n : PatternNode} {x : String} {p : Pattern} :
    D.AllowsAll (.named n x p) ↔ D.AllowsAll p := by
  rw [allowsAll_iff]
  simp [Allows, Pattern.parts]

theorem allowsAll_typed {D : Declarations} {n : PatternNode} {p : Pattern} {t : Ty} :
    D.AllowsAll (.typed n p t) ↔ D.AllowsAll p := by
  rw [allowsAll_iff]
  simp [Allows, Pattern.parts]

/-- Nothing is asked of a catch-all. -/
theorem allowsAll_of_isCatchAll {D : Declarations} {p : Pattern} (hp : p.isCatchAll = true) :
    D.AllowsAll p := by
  induction p with
  | wildcard n => exact allowsAll_of_parts_nil trivial rfl
  | binding n x => exact allowsAll_of_parts_nil trivial rfl
  | named n x p ih => exact allowsAll_named.2 (ih hp)
  | typed _ _ _ | literal _ _ | variant _ _ _ | extractor _ _ _ | rest _ | alternation _ _ =>
      exact nomatch hp

end Declarations

namespace Extraction

variable {α β : Type}

/-- A computation that has an answer is refused exactly when a condition fails. -/
def SucceedsIff (m : Extraction α) (P : Prop) : Prop :=
  ∀ fields result later, m.answer fields = some (result, later) → ((∃ a, result = .ok a) ↔ P)

theorem succeedsIff_pure (a : α) : SucceedsIff (pure a : Extraction α) True := by
  intro fields result later h
  obtain ⟨rfl, -⟩ := Prod.mk.inj (Option.some.inj h)
  exact iff_of_true ⟨a, rfl⟩ trivial

theorem succeedsIff_refuse (cause : ExtractionCause) (span : Span) :
    SucceedsIff (refuse cause span : Extraction α) False := by
  intro fields result later h
  obtain ⟨rfl, -⟩ := Prod.mk.inj (Option.some.inj h)
  exact iff_of_false (fun ⟨_, ha⟩ => nomatch ha) id

theorem succeedsIff_ask (q : Query α) : SucceedsIff (ask q) True := by
  intro fields result later h
  rw [answer_ask, Option.map_eq_some_iff] at h
  obtain ⟨a, -, hpair⟩ := h
  obtain ⟨rfl, -⟩ := Prod.mk.inj hpair
  exact iff_of_true ⟨a, rfl⟩ trivial

theorem SucceedsIff.bind {m : Extraction α} {f : α → Extraction β} {P Q : Prop}
    (hm : SucceedsIff m P)
    (hf : ∀ a before after, m.answer before = some (.ok a, after) → SucceedsIff (f a) Q) :
    SucceedsIff (m >>= f) (P ∧ Q) := by
  intro fields result later h
  rw [answer_bind, Option.bind_eq_some_iff] at h
  obtain ⟨⟨first, between⟩, hfirst, hnext⟩ := h
  have hP := hm fields first between hfirst
  cases first with
  | error e =>
      obtain ⟨rfl, -⟩ := Prod.mk.inj (Option.some.inj hnext)
      exact iff_of_false (fun ⟨_, ha⟩ => nomatch ha) fun hPQ => nomatch (hP.2 hPQ.1)
  | ok a =>
      rw [hf a fields between hfirst between result later hnext, and_iff_right (hP.1 ⟨a, rfl⟩)]

/-- Looking an alignment up is never refused. -/
theorem succeedsIff_resolve (D : Declarations) (adt : DataId)
    {f : List (List Occurrence) → Extraction α} {P : Prop}
    (hf : ∀ alignment, SucceedsIff (f alignment) P) :
    SucceedsIff (do
      let cache ← get
      set (cache.resolve D adt).2
      f (cache.resolve D adt).1) P := by
  intro fields result later h
  rw [answer_resolve] at h
  exact hf _ _ result later h

theorem SucceedsIff.congr {m : Extraction α} {P Q : Prop} (hm : SucceedsIff m P) (h : P ↔ Q) :
    SucceedsIff m Q :=
  fun fields result later hanswer => (hm fields result later hanswer).trans h

end Extraction

namespace Extractor

open Extraction (SucceedsIff succeedsIff_pure succeedsIff_refuse succeedsIff_ask)

theorem misplacedRest?_eq_none_iff {allowed : Bool} {parts : List Pattern} :
    misplacedRest? allowed parts = none ↔
      ∀ before q after, parts = before ++ q :: after → q.isRest = true →
        after = [] ∧ allowed = true := by
  induction parts with
  | nil => simp [misplacedRest?]
  | cons p rest ih =>
      unfold misplacedRest?
      by_cases hbad : (p.isRest && !(allowed && rest.isEmpty)) = true
      · rw [if_pos hbad]
        simp only [Bool.and_eq_true, Bool.not_eq_true', Bool.and_eq_false_iff] at hbad
        refine iff_of_false nofun fun hall => ?_
        obtain ⟨rfl, hallowed⟩ := hall [] p rest rfl hbad.1
        rcases hbad.2 with h | h
        · exact Bool.false_ne_true (h.symm.trans hallowed)
        · exact nomatch h
      · rw [if_neg hbad, ih]
        constructor
        · intro hrest before q after heq hq
          cases before with
          | nil =>
              obtain ⟨rfl, rfl⟩ := List.cons.inj heq
              simpa [hq, and_comm] using hbad
          | cons b before => exact hrest before q after (List.cons.inj heq).2 hq
        · intro hall before q after heq hq
          exact hall (p :: before) q after (by rw [heq]; rfl) hq

/-- Where no rest is allowed, there is to be none. -/
theorem misplacedRest?_false_eq_none_iff {parts : List Pattern} :
    misplacedRest? false parts = none ↔ ∀ p ∈ parts, p.isRest = false := by
  rw [misplacedRest?_eq_none_iff]
  constructor
  · intro h p hp
    obtain ⟨before, after, rfl⟩ := List.append_of_mem hp
    exact Bool.eq_false_iff.2 fun hrest => Bool.false_ne_true (h before p after rfl hrest).2
  · rintro h before p after rfl hrest
    rw [h p (List.mem_append_right before List.mem_cons_self)] at hrest
    cases hrest

variable {E : Extractor}

/-- Whether the last part of a node may be a rest. -/
def restMayClose (E : Extractor) : Pattern → Bool
  | .extractor _ adt _ => (E.hierarchy.decls.get adt).isSequence
  | _ => false

theorem restMayClose_iff {p : Pattern} : E.restMayClose p = true ↔
    ∃ n adt parts, p = .extractor n adt parts ∧
      (E.hierarchy.decls.get adt).isSequence = true := by
  cases p <;> simp [restMayClose]

theorem checkRest_eq (p : Pattern) :
    E.checkRest p = (misplacedRest? (E.restMayClose p) p.parts).elim (pure ())
      fun part => Extraction.refuse .misplacedRest part.span := by
  unfold checkRest restMayClose
  cases p <;> dsimp only <;> split <;> simp only [*, Option.elim]

theorem succeedsIff_checkRest (p : Pattern) :
    SucceedsIff (E.checkRest p) (E.hierarchy.decls.RestsClose p) := by
  have hnone : misplacedRest? (E.restMayClose p) p.parts = none ↔
      E.hierarchy.decls.RestsClose p := by
    simp only [misplacedRest?_eq_none_iff, restMayClose_iff, Declarations.RestsClose]
  rw [checkRest_eq]
  cases hfound : misplacedRest? (E.restMayClose p) p.parts with
  | none => exact (succeedsIff_pure ()).congr (iff_of_true trivial (hnone.1 hfound))
  | some part =>
      refine (succeedsIff_refuse _ _).congr (iff_of_false id fun hcloses => ?_)
      rw [hnone.2 hcloses] at hfound
      cases hfound

theorem succeedsIff_combineVariant (adt : DataId) (results : List (List PatternType))
    (span : Span) : SucceedsIff (E.combineVariant adt results span)
      (E.hierarchy.decls.TakesParts adt results.length) := by
  unfold combineVariant Declarations.TakesParts
  cases hkind : (E.hierarchy.decls.get adt).kind with
  | singleton =>
      simp only [hkind]
      by_cases hempty : results.isEmpty = true
      · rw [if_pos hempty]
        refine ((succeedsIff_ask _).bind fun t _ _ _ => succeedsIff_pure _).congr ?_
        exact iff_of_true ⟨trivial, trivial⟩ (List.length_eq_zero_iff.2 (List.isEmpty_iff.1 hempty))
      · rw [if_neg hempty]
        refine (succeedsIff_refuse _ _).congr (iff_of_false id fun hzero => hempty ?_)
        exact List.isEmpty_iff.2 (List.length_eq_zero_iff.1 hzero)
  | product fields =>
      simp only [hkind]
      by_cases hcount : fields.length = results.length
      · rw [if_neg (not_not.2 hcount)]
        refine (Extraction.succeedsIff_resolve E.hierarchy.decls adt
          (f := fun alignment => Extraction.ask (E.combineProduct adt alignment results))
          fun alignment => succeedsIff_ask _).congr ?_
        exact iff_of_true trivial hcount
      · rw [if_pos hcount]
        exact (succeedsIff_refuse _ _).congr (iff_of_false id hcount)
  | abstractType isSealed =>
      simp only [hkind]
      exact succeedsIff_refuse _ _
  | sequence =>
      simp only [hkind]
      exact succeedsIff_refuse _ _

theorem succeedsIff_evaluateAll {parts : List Pattern}
    (hparts : ∀ p ∈ parts, SucceedsIff (E.evaluate p) (E.hierarchy.decls.AllowsAll p)) :
    SucceedsIff (E.evaluateAll parts) (∀ p ∈ parts, E.hierarchy.decls.AllowsAll p) := by
  induction parts with
  | nil =>
      rw [evaluateAll]
      exact (succeedsIff_pure _).congr (iff_of_true trivial (by simp))
  | cons p parts ih =>
      rw [evaluateAll, List.forall_mem_cons]
      have hrest := ih fun q hq => hparts q (List.mem_cons_of_mem p hq)
      refine (hparts p List.mem_cons_self).bind fun results _ _ _ => ?_
      exact (hrest.bind fun others _ _ _ => succeedsIff_pure _).congr (and_iff_left trivial)

/-- A node is checked, its parts are evaluated, and their results are combined. -/
theorem succeedsIff_node {p : Pattern} {combines : Prop}
    (hparts : ∀ q ∈ p.parts, SucceedsIff (E.evaluate q) (E.hierarchy.decls.AllowsAll q))
    (hcombine : ∀ found : List (List PatternType), found.length = p.parts.length →
      SucceedsIff (E.combine p found) combines)
    (hallows : E.hierarchy.decls.Allows p ↔ E.hierarchy.decls.RestsClose p ∧ combines) :
    SucceedsIff (E.checkRest p >>= fun _ => E.evaluateAll p.parts >>= E.combine p)
      (E.hierarchy.decls.AllowsAll p) := by
  refine ((succeedsIff_checkRest p).bind fun _ _ _ _ =>
    (succeedsIff_evaluateAll hparts).bind fun found _ _ hfound =>
      hcombine found (length_of_evaluateAll hfound)).congr ?_
  rw [Declarations.allowsAll_iff, hallows, and_assoc, and_comm (b := combines)]

theorem succeedsIff_evaluate (p : Pattern) :
    SucceedsIff (E.evaluate p) (E.hierarchy.decls.AllowsAll p) := by
  induction p with
  | wildcard n =>
      rw [evaluate]
      exact (succeedsIff_pure _).congr
        (iff_of_true trivial (Declarations.allowsAll_of_parts_nil trivial rfl))
  | binding n x =>
      rw [evaluate]
      exact (succeedsIff_pure _).congr
        (iff_of_true trivial (Declarations.allowsAll_of_parts_nil trivial rfl))
  | rest n =>
      rw [evaluate]
      exact (succeedsIff_pure _).congr
        (iff_of_true trivial (Declarations.allowsAll_of_parts_nil trivial rfl))
  | literal n v =>
      rw [evaluate]
      refine ((succeedsIff_ask _).bind fun t _ _ _ => succeedsIff_pure _).congr ?_
      exact iff_of_true ⟨trivial, trivial⟩ (Declarations.allowsAll_of_parts_nil trivial rfl)
  | named n x p ih =>
      rw [evaluate]
      exact ih.congr Declarations.allowsAll_named.symm
  | typed n p t ih =>
      rw [evaluate]
      refine SucceedsIff.congr ?_ Declarations.allowsAll_typed.symm
      by_cases hp : p.isCatchAll = true
      · rw [if_pos hp]
        exact (succeedsIff_pure _).congr
          (iff_of_true trivial (Declarations.allowsAll_of_isCatchAll hp))
      · rw [if_neg hp]
        exact (ih.bind fun found _ _ _ => succeedsIff_ask _).congr (and_iff_left trivial)
  | alternation n branches ih =>
      cases branches with
      | nil =>
          rw [evaluate]
          refine (succeedsIff_refuse _ _).congr (iff_of_false id fun hall => ?_)
          exact (Declarations.allowsAll_iff.1 hall).1.2 rfl
      | cons p rest =>
          rw [evaluate]
          refine succeedsIff_node (p := .alternation n (p :: rest)) ih
            (fun found _ => succeedsIff_pure _) ?_
          exact and_congr_right fun _ => iff_of_true (by simp) trivial
  | variant n adt parts ih =>
      rw [evaluate]
      refine succeedsIff_node (p := .variant n adt parts) ih (fun found hlength => ?_) .rfl
      have hcount : found.length = parts.length := hlength
      rw [← hcount]
      exact ((succeedsIff_combineVariant adt found n.span).bind
        fun t _ _ _ => succeedsIff_pure _).congr (and_iff_left trivial)
  | extractor n adt parts ih =>
      rw [evaluate]
      refine succeedsIff_node (p := .extractor n adt parts) ih (fun found _ => ?_) .rfl
      simp only [combine]
      by_cases harity : (E.hierarchy.decls.get adt).arity = 1
      · rw [if_pos harity]
        exact ((succeedsIff_ask _).bind fun t _ _ _ => succeedsIff_pure _).congr
          (iff_of_true ⟨trivial, trivial⟩ harity)
      · rw [if_neg harity]
        exact (succeedsIff_refuse _ _).congr (iff_of_false id harity)

/-- An extraction that has an answer succeeds exactly when the pattern is no rest and each of
its nodes allows what it has, and it has an answer where questions about types have one. -/
theorem extract_succeeds (E : Extractor) (p : Pattern) :
    (∀ fields result later, (E.extract p).answer fields = some (result, later) →
      ((∃ types, result = .ok types) ↔
        p.isRest = false ∧ ∀ q, q.OccursIn p → E.hierarchy.decls.Allows q)) ∧
      (E.hierarchy.decls.Settled → Extraction.Ends fun n => (E.within n).extract p) := by
  refine ⟨fun fields result later hanswer => ?_, fun hD => extract_ends hD p⟩
  rw [answer_extract] at hanswer
  cases hrest : p.isRest with
  | true =>
      rw [hrest, if_pos rfl] at hanswer
      obtain ⟨rfl, -⟩ := Prod.mk.inj (Option.some.inj hanswer)
      exact iff_of_false (fun ⟨_, hok⟩ => nomatch hok) fun h => nomatch h.1
  | false =>
      rw [hrest, if_neg Bool.false_ne_true] at hanswer
      rw [and_iff_right rfl]
      exact succeedsIff_evaluate p fields result later hanswer

/-- `List(1, _*)` is accepted. -/
theorem extract_succeeds_list :
    Workspace.initial.decls.Settled ∧ ∃ limit types later,
      ((⟨Workspace.initial.decls.within limit, 64⟩ : Extractor).extract
        (.extractor ⟨2, default⟩ ⟨7⟩ [.literal ⟨0, default⟩ (.int 1), .rest ⟨1, default⟩])).answer
          {} = some (.ok types, later) := by
  have hD : Workspace.initial.decls.Settled := Declarations.settled_of_ordered (by decide)
  let E : Extractor := ⟨Workspace.initial.decls.within 0, 64⟩
  let list : Pattern := .extractor ⟨2, default⟩ ⟨7⟩
    [.literal ⟨0, default⟩ (.int 1), .rest ⟨1, default⟩]
  have hcloses : Workspace.initial.decls.RestsClose list := by
    rintro (_ | ⟨_, _ | ⟨_, _⟩⟩) q after heq hq
    · obtain ⟨rfl, -⟩ := List.cons.inj heq
      exact nomatch hq
    · obtain ⟨-, heq⟩ := List.cons.inj heq
      obtain ⟨-, rfl⟩ := List.cons.inj heq
      exact ⟨rfl, _, _, _, rfl, rfl⟩
    · simp [list, Pattern.parts] at heq
  have hall : Workspace.initial.decls.AllowsAll list := by
    refine Declarations.allowsAll_iff.2 ⟨⟨hcloses, rfl⟩, fun r hr => ?_⟩
    have hmem : r = .literal ⟨0, default⟩ (.int 1) ∨ r = .rest ⟨1, default⟩ := by
      simpa [list, Pattern.parts] using hr
    rcases hmem with rfl | rfl
    · exact Declarations.allowsAll_of_parts_nil trivial rfl
    · exact Declarations.allowsAll_of_parts_nil trivial rfl
  obtain ⟨⟨result, later⟩, limit, hlimit⟩ := (extract_succeeds E list).2 hD {}
  have hanswer : ((E.within limit).extract list).answer {} = some (result, later) :=
    hlimit limit (Nat.le_refl limit)
  obtain ⟨types, rfl⟩ := ((extract_succeeds (E.within limit) list).1 {} result later hanswer).2
    ⟨rfl, hall⟩
  exact ⟨hD, limit, types, later, hanswer⟩

/-- Not only the patterns in which `_*` closes a sequence are accepted: `_* : int` is. -/
theorem exists_accepted_rest :
    ¬ ∀ (E : Extractor) (p : Pattern), E.hierarchy.decls.Reachable →
      ∀ fields result later, (E.extract p).answer fields = some (result, later) →
        ((∃ types, result = .ok types) ↔ p.isRest = false ∧
          (∀ q, q.OccursIn p → E.hierarchy.decls.Allows q) ∧
          ∀ n q t, (Pattern.typed n q t).OccursIn p → q.isRest = false) := by
  intro hall
  have hanswer : ((⟨Workspace.initial.decls.within 1, 64⟩ : Extractor).extract
      (.typed ⟨1, default⟩ (.rest ⟨0, default⟩) (.prim .int))).answer {} =
        some (.ok [⟨.prim .int, [.prim .int, .noType]⟩], {}) := by
    rw [answer_extract]
    rfl
  have hiff := hall _ _ .initial _ _ _ hanswer
  exact nomatch (hiff.1 ⟨_, rfl⟩).2.2 _ _ _ .refl

end Extractor

end CaseCover
