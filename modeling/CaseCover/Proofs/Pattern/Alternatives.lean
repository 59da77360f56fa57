import CaseCover.Proofs.Pattern.Grammar
import CaseCover.Workspace

/-!
Pattern types with and without the alternatives they belong to. An extraction of each
alternative at the top of a pattern flattens alternations first, and an extraction of the whole
flattens what it found; they yield the same pattern types in the same order. Only an alternation
without branches has nothing to extract and is refused as a whole
(`extract_iff_extractAlternatives`). The alternatives are those that a visit with a stack lists, in
the same order (`splits_iff`).
-/

namespace CaseCover

/-- At the top of a pattern, through names and alternations, some alternation is empty. -/
inductive Pattern.EmptyAtTop : Pattern → Prop
  | here (n : PatternNode) : EmptyAtTop (.alternation n [])
  | named {n : PatternNode} {x : String} {p : Pattern} (h : EmptyAtTop p) :
      EmptyAtTop (.named n x p)
  | branch {n : PatternNode} {branches : List Pattern} {p : Pattern} (hp : p ∈ branches)
      (h : EmptyAtTop p) : EmptyAtTop (.alternation n branches)

namespace Pattern

theorem emptyAtTop_named {n : PatternNode} {x : String} {p : Pattern} :
    (Pattern.named n x p).EmptyAtTop ↔ p.EmptyAtTop :=
  ⟨fun h => by cases h; assumption, .named⟩

theorem emptyAtTop_cons {n : PatternNode} {p : Pattern} {rest : List Pattern} :
    (Pattern.alternation n (p :: rest)).EmptyAtTop ↔ ∃ q ∈ p :: rest, q.EmptyAtTop := by
  constructor
  · intro h
    cases h with
    | branch hq h => exact ⟨_, hq, h⟩
  · rintro ⟨q, hq, h⟩
    exact .branch hq h

/-- The visit of the patterns on a stack puts the branches of an alternation in its place and
lists the other patterns, without their names. -/
inductive Splits : List Pattern → List Pattern → Prop
  | done : Splits [] []
  | alternation {p : Pattern} {n : PatternNode} {branches rest found : List Pattern}
      (hp : p.stripNames = .alternation n branches) (h : Splits (branches ++ rest) found) :
      Splits (p :: rest) found
  | single {p : Pattern} {rest found : List Pattern}
      (hp : ∀ n branches, p.stripNames ≠ .alternation n branches) (h : Splits rest found) :
      Splits (p :: rest) (p.stripNames :: found)

theorem topAlternatives_stripNames (p : Pattern) :
    p.stripNames.topAlternatives = p.topAlternatives := by
  fun_induction stripNames p with
  | case1 n x p ih => rw [ih, topAlternatives]
  | case2 p => rfl

/-- Without its names a pattern has none at its top. -/
theorem stripNames_ne_named (p : Pattern) (n : PatternNode) (x : String) (q : Pattern) :
    p.stripNames ≠ .named n x q := by
  fun_induction stripNames p with
  | case1 _ _ p ih => exact ih
  | case2 p hp => exact hp n x q

theorem topAlternatives_of_ne_alternation {p : Pattern}
    (hp : ∀ n branches, p.stripNames ≠ .alternation n branches) :
    p.topAlternatives = [p.stripNames] := by
  rw [← topAlternatives_stripNames]
  cases hq : p.stripNames with
  | named n x q => exact absurd hq (p.stripNames_ne_named n x q)
  | alternation n branches => exact absurd hq (hp n branches)
  | wildcard _ | binding _ _ | typed _ _ _ | literal _ _ | variant _ _ _ | extractor _ _ _
  | rest _ => rfl

theorem Splits.named {p : Pattern} {rest found : List Pattern} (h : Splits (p :: rest) found)
    (n : PatternNode) (x : String) : Splits (.named n x p :: rest) found := by
  cases h with
  | alternation hp h => exact .alternation hp h
  | single hp h => exact .single hp h

/-- A visit lists the alternatives of a pattern before it goes on. -/
theorem Splits.cons {p : Pattern} {rest found : List Pattern} (h : Splits rest found) :
    Splits (p :: rest) (p.topAlternatives ++ found) := by
  induction p generalizing rest found with
  | named n x p ih => exact (ih h).named n x
  | alternation n branches ih =>
      refine .alternation rfl ?_
      rw [topAlternatives]
      induction branches with
      | nil => exact h
      | cons q branches ihs =>
          rw [topAlternativesList, List.append_assoc]
          exact ih q List.mem_cons_self (ihs fun r hr => ih r (List.mem_cons_of_mem q hr))
  | wildcard _ | binding _ _ | typed _ _ _ | literal _ _ | variant _ _ _ | extractor _ _ _
  | rest _ => exact .single (by simp [stripNames]) h

/-- The visit of the patterns on a stack ends, with the alternatives of each of them in order. -/
theorem splits_iff {ps found : List Pattern} :
    Splits ps found ↔ found = topAlternativesList ps := by
  constructor
  · intro h
    induction h with
    | done => rfl
    | @alternation p n branches rest found hp _ ih =>
        rw [ih, topAlternativesList, ← p.topAlternatives_stripNames, hp, topAlternatives]
        simp only [topAlternativesList_eq_flatMap, List.flatMap_append]
    | single hp _ ih => rw [ih, topAlternativesList, topAlternatives_of_ne_alternation hp]; rfl
  · rintro rfl
    induction ps with
    | nil => exact .done
    | cons p ps ih => exact ih.cons

end Pattern

namespace Extractor

open Extraction (answer_bind_eq_ok answer_pure_eq_ok)

variable {E : Extractor} {fields later : FieldCache}

/-- A pattern that is no rest has the pattern types it is evaluated to. -/
theorem extract_eq_ok_iff {p : Pattern} {types : List PatternType} :
    (E.extract p).answer fields = some (.ok types, later) ↔
      p.isRest = false ∧ (E.evaluate p).answer fields = some (.ok types, later) := by
  rw [answer_extract]
  cases p.isRest <;> simp

/-- A list of patterns is extracted one after the other. -/
theorem extractEach_append_eq_ok {ps qs : List Pattern} {pairs : List (Pattern × PatternType)} :
    (E.extractEach (ps ++ qs)).answer fields = some (.ok pairs, later) ↔
      ∃ first between others, (E.extractEach ps).answer fields = some (.ok first, between) ∧
        (E.extractEach qs).answer between = some (.ok others, later) ∧
          pairs = first ++ others := by
  induction ps generalizing fields later pairs with
  | nil => simp [extractEach]
  | cons p ps ih =>
      simp only [List.cons_append, extractEach, answer_bind_eq_ok, answer_pure_eq_ok, ih]
      constructor
      · rintro ⟨types, l₁, htypes, _, _, ⟨first, l₂, others, hfirst, hothers, rfl⟩, rfl, rfl⟩
        exact ⟨_, l₂, others, ⟨types, l₁, htypes, first, l₂, hfirst, rfl, rfl⟩, hothers,
          (List.append_assoc _ _ _).symm⟩
      · rintro ⟨_, l₂, others, ⟨types, l₁, htypes, first, _, hfirst, rfl, rfl⟩, hothers, rfl⟩
        exact ⟨types, l₁, htypes, _, later, ⟨first, l₂, others, hfirst, hothers, rfl⟩,
          List.append_assoc _ _ _, rfl⟩

/-- A single pattern is paired with each of its pattern types. -/
theorem extractEach_singleton_eq_ok {p : Pattern} {pairs : List (Pattern × PatternType)} :
    (E.extractEach [p]).answer fields = some (.ok pairs, later) ↔
      ∃ types, (E.extract p).answer fields = some (.ok types, later) ∧
        pairs = types.map (p, ·) := by
  simp only [extractEach, answer_bind_eq_ok, answer_pure_eq_ok]
  constructor
  · rintro ⟨types, between, htypes, _, _, ⟨rfl, rfl⟩, rfl, rfl⟩
    exact ⟨types, htypes, List.append_nil _⟩
  · rintro ⟨types, htypes, rfl⟩
    exact ⟨types, later, htypes, [], later, ⟨rfl, rfl⟩, (List.append_nil _).symm, rfl⟩

/-- Nothing but a part that is a rest makes the check of an alternation fail. -/
theorem checkRest_alternation_eq_ok {n : PatternNode} {branches : List Pattern} {u : Unit} :
    (E.checkRest (.alternation n branches)).answer fields = some (.ok u, later) ↔
      (∀ p ∈ branches, p.isRest = false) ∧ later = fields := by
  rw [checkRest_eq, ← misplacedRest?_false_eq_none_iff]
  change Extraction.answer (Option.elim (misplacedRest? false branches) _ _) fields = _ ↔ _
  cases misplacedRest? false branches with
  | none => simp [eq_comm]
  | some p => simp

/-- An alternation has the pattern types of its branches, none of which is a rest. -/
theorem extract_alternation_eq_ok {n : PatternNode} {p : Pattern} {rest : List Pattern}
    {types : List PatternType} :
    (E.extract (.alternation n (p :: rest))).answer fields = some (.ok types, later) ↔
      (∀ q ∈ p :: rest, q.isRest = false) ∧
        ∃ found, (E.evaluateAll (p :: rest)).answer fields = some (.ok found, later) ∧
          found.flatten = types := by
  rw [extract_eq_ok_iff, evaluate, answer_bind_eq_ok]
  constructor
  · rintro ⟨-, _, between, hcheck, hrest⟩
    obtain ⟨hparts, rfl⟩ := checkRest_alternation_eq_ok.1 hcheck
    obtain ⟨found, between, hfound, hcombine⟩ := answer_bind_eq_ok.1 hrest
    obtain ⟨rfl, rfl⟩ := answer_pure_eq_ok.1 hcombine
    exact ⟨hparts, found, hfound, rfl⟩
  · rintro ⟨hparts, found, hfound, rfl⟩
    exact ⟨rfl, (), fields, checkRest_alternation_eq_ok.2 ⟨hparts, rfl⟩,
      answer_bind_eq_ok.2 ⟨found, later, hfound, rfl⟩⟩

/-- Both ways to extract a pattern yield the same pattern types, where no alternation at the
top is empty. -/
def ExtractsAlike (E : Extractor) (p : Pattern) : Prop :=
  ∀ fields types later, (E.extract p).answer fields = some (.ok types, later) ↔
    ¬ p.EmptyAtTop ∧ ∃ pairs,
      (E.extractEach p.topAlternatives).answer fields = some (.ok pairs, later) ∧
        pairs.map Prod.snd = types

/-- Both ways to extract a list of patterns, of which each is extracted alike. -/
theorem extractAll_alike {ps : List Pattern} (hps : ∀ p ∈ ps, E.ExtractsAlike p)
    (fields : FieldCache) (types : List PatternType) (later : FieldCache) :
    ((∀ p ∈ ps, p.isRest = false) ∧ ∃ found,
      (E.evaluateAll ps).answer fields = some (.ok found, later) ∧ found.flatten = types) ↔
      (∀ p ∈ ps, ¬ p.EmptyAtTop) ∧ ∃ pairs,
        (E.extractEach (Pattern.topAlternativesList ps)).answer fields =
          some (.ok pairs, later) ∧ pairs.map Prod.snd = types := by
  induction ps generalizing fields types with
  | nil =>
      simp only [evaluateAll, extractEach, Pattern.topAlternativesList, answer_pure_eq_ok]
      constructor
      · rintro ⟨-, _, ⟨rfl, rfl⟩, rfl⟩
        exact ⟨by simp, [], ⟨rfl, rfl⟩, rfl⟩
      · rintro ⟨-, _, ⟨rfl, rfl⟩, rfl⟩
        exact ⟨by simp, [], ⟨rfl, rfl⟩, rfl⟩
  | cons p ps ih =>
      have hp := hps p List.mem_cons_self
      have hrest := ih fun q hq => hps q (List.mem_cons_of_mem p hq)
      simp only [List.forall_mem_cons, Pattern.topAlternativesList, extractEach_append_eq_ok,
        evaluateAll_cons_eq_ok]
      constructor
      · rintro ⟨⟨hfirst, hothers⟩, _, ⟨found, between, others, hfound, hall, rfl⟩, rfl⟩
        obtain ⟨hsolid, pairs, hpairs, rfl⟩ :=
          (hp fields found between).1 (extract_eq_ok_iff.2 ⟨hfirst, hfound⟩)
        obtain ⟨hsolids, more, hmore, hsnd⟩ :=
          (hrest between others.flatten).1 ⟨hothers, others, hall, rfl⟩
        refine ⟨⟨hsolid, hsolids⟩, pairs ++ more,
          ⟨pairs, between, more, hpairs, hmore, rfl⟩, ?_⟩
        rw [List.map_append, hsnd, List.flatten_cons]
      · rintro ⟨⟨hsolid, hsolids⟩, _, ⟨pairs, between, more, hpairs, hmore, rfl⟩, rfl⟩
        obtain ⟨hfirst, hfound⟩ :=
          extract_eq_ok_iff.1 ((hp fields _ between).2 ⟨hsolid, pairs, hpairs, rfl⟩)
        obtain ⟨hothers, others, hall, hsnd⟩ :=
          (hrest between _).2 ⟨hsolids, more, hmore, rfl⟩
        refine ⟨⟨hfirst, hothers⟩, _, ⟨_, between, others, hfound, hall, rfl⟩, ?_⟩
        rw [List.flatten_cons, hsnd, List.map_append]

theorem extractsAlike (E : Extractor) (p : Pattern) : E.ExtractsAlike p := by
  induction p with
  | named n x p ih =>
      intro fields types later
      have hname : (E.extract (.named n x p)).answer fields = some (.ok types, later) ↔
          (E.extract p).answer fields = some (.ok types, later) := by
        rw [extract_eq_ok_iff, extract_eq_ok_iff, evaluate]
        rfl
      rw [hname, ih fields types later, Pattern.emptyAtTop_named, Pattern.topAlternatives]
  | alternation n branches ih =>
      intro fields types later
      cases branches with
      | nil =>
          rw [extract_eq_ok_iff, evaluate]
          exact iff_of_false (fun h => Extraction.answer_refuse_ne_ok h.2) fun h => h.1 (.here n)
      | cons p rest =>
          rw [extract_alternation_eq_ok, extractAll_alike ih, Pattern.emptyAtTop_cons,
            Pattern.topAlternatives]
          simp only [not_exists, not_and]
  | wildcard _ | binding _ _ | typed _ _ _ | literal _ _ | variant _ _ _ | extractor _ _ _
  | rest _ =>
      intro fields types later
      simp only [Pattern.topAlternatives, extractEach_singleton_eq_ok]
      constructor
      · intro h
        exact ⟨by rintro ⟨⟩, _, ⟨types, h, rfl⟩, by simp⟩
      · rintro ⟨-, _, ⟨found, hfound, rfl⟩, rfl⟩
        simpa using hfound

/-- Each pattern type is paired with one of the patterns it was asked of. -/
theorem mem_of_extractEach {ps : List Pattern} {pairs : List (Pattern × PatternType)}
    (hpairs : (E.extractEach ps).answer fields = some (.ok pairs, later))
    {pair : Pattern × PatternType} (hpair : pair ∈ pairs) : pair.1 ∈ ps := by
  induction ps generalizing fields later pairs with
  | nil =>
      obtain ⟨rfl, -⟩ := answer_pure_eq_ok.1 hpairs
      cases hpair
  | cons p ps ih =>
      obtain ⟨types, between, -, hrest⟩ := answer_bind_eq_ok.1 hpairs
      obtain ⟨others, last, hothers, hdone⟩ := answer_bind_eq_ok.1 hrest
      obtain ⟨rfl, -⟩ := answer_pure_eq_ok.1 hdone
      rcases List.mem_append.1 hpair with hfirst | hlater
      · obtain ⟨t, -, rfl⟩ := List.mem_map.1 hfirst
        exact List.mem_cons_self
      · exact List.mem_cons_of_mem p (ih hothers hlater)

/-- The whole of a pattern has exactly the pattern types of its alternatives, in their order, and
leaves the same remembered fields; an empty alternation at the top is refused in the whole and
passed over among the alternatives. Each pattern type is paired with one of the alternatives. -/
theorem extract_iff_extractAlternatives (E : Extractor) (p : Pattern) (fields : FieldCache) :
    (∀ types later, (E.extract p).answer fields = some (.ok types, later) ↔
      ¬ p.EmptyAtTop ∧ ∃ pairs,
        (E.extractAlternatives p).answer fields = some (.ok pairs, later) ∧
          pairs.map Prod.snd = types) ∧
      ∀ pairs later, (E.extractAlternatives p).answer fields = some (.ok pairs, later) →
        ∀ pair ∈ pairs, pair.1 ∈ p.topAlternatives :=
  ⟨fun types later => E.extractsAlike p fields types later,
    fun _ _ hpairs _ hpair => mem_of_extractEach hpairs hpair⟩

/-- An empty alternation has no alternatives to refuse, so the two ways differ on it. -/
theorem exists_extracted_emptiness :
    ¬ ∀ (E : Extractor) (p : Pattern) (fields : FieldCache) (types : List PatternType)
        (later : FieldCache), (E.extract p).answer fields = some (.ok types, later) ↔
      ∃ pairs, (E.extractAlternatives p).answer fields = some (.ok pairs, later) ∧
        pairs.map Prod.snd = types := by
  intro hall
  have hrefused := (hall ⟨Workspace.initial.decls.within 0, 64⟩ (.alternation default []) {} []
    {}).2 ⟨[], rfl, rfl⟩
  rw [extract_eq_ok_iff, evaluate] at hrefused
  exact Extraction.answer_refuse_ne_ok hrefused.2

end Extractor

end CaseCover
