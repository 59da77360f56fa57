import CaseCover.Pattern.Alignment
import CaseCover.Proofs.Hierarchy.Walks
import CaseCover.Workspace

/-!
Where a parameter occurs. A parameter stands in a type at the end of a path of argument
positions (`Ty.ParamAt`, which `Ty.follow?` decides); a path does not lead into unions. The
occurrences that are found are all there are (`mem_occurrencesIn_iff`), each found once and from
left to right (`pairwise_occurrencesIn`), as a visit of the type with a stack lists them
(`occurrencesEnd_iff`), and following the path of an occurrence through the type
with arguments put in ends at the argument for the parameter (`project_substitute`). Together:
the alignment of a product addresses the parameters in its fields (`alignment_addresses`).
-/

namespace CaseCover

/-- A path of argument positions leads to a parameter of a data type. -/
inductive Ty.ParamAt (owner : DataId) (index : Nat) : List Nat → Ty → Prop
  | here : ParamAt owner index [] (.param owner index)
  | arg {d : DataId} {args : List Ty} {position : Nat} {t : Ty} {path : List Nat}
      (ht : args[position]? = some t) (h : ParamAt owner index path t) :
      ParamAt owner index (position :: path) (.app d args)

/-- What stands in a type at the end of a path of argument positions. Only applied data types have
arguments. -/
def Ty.follow? : Ty → List Nat → Option Ty
  | t, [] => some t
  | t, position :: path => t.args[position]?.bind fun a => a.follow? path

/-- The paths to a parameter are those at whose end it stands. -/
theorem Ty.paramAt_iff_follow? {owner : DataId} {index : Nat} {path : List Nat} {t : Ty} :
    t.ParamAt owner index path ↔ t.follow? path = some (.param owner index) := by
  constructor
  · intro h
    induction h with
    | here => rfl
    | arg ht _ ih => rw [follow?, args, ht, Option.bind_some, ih]
  · intro h
    induction path generalizing t with
    | nil =>
        obtain rfl := Option.some.inj h
        exact .here
    | cons position path ih =>
        obtain ⟨a, ha, hpath⟩ := Option.bind_eq_some_iff.1 h
        cases t with
        | app d args => exact .arg ha (ih hpath)
        | prim _ | lit _ | param _ _ | union _ _ => cases ha

namespace Declarations

/-- The occurrences in a list of arguments are those in its elements. -/
theorem mem_occurrencesInArgs_iff {owner : DataId} {index first : Nat} {path : List Nat}
    {args : List Ty} :
    (index, path) ∈ occurrencesInArgs owner first args ↔
      ∃ position t rest, args[position]? = some t ∧ path = (first + position) :: rest ∧
        (index, rest) ∈ occurrencesIn owner t := by
  induction args generalizing first with
  | nil => simp [occurrencesInArgs]
  | cons a args ih =>
      rw [occurrencesInArgs, List.mem_append, ih, List.mem_map]
      constructor
      · rintro (⟨⟨i, rest⟩, hmem, heq⟩ | ⟨position, t, rest, ht, rfl, hmem⟩)
        · obtain ⟨rfl, rfl⟩ := Prod.mk.inj heq
          exact ⟨0, a, rest, rfl, rfl, hmem⟩
        · exact ⟨position + 1, t, rest, ht, by simp [Nat.add_comm, Nat.add_left_comm], hmem⟩
      · rintro ⟨position, t, rest, ht, rfl, hmem⟩
        cases position with
        | zero =>
            obtain rfl := Option.some.inj ht
            exact .inl ⟨(index, rest), hmem, rfl⟩
        | succ position =>
            exact .inr ⟨position, t, rest, ht, by simp [Nat.add_comm, Nat.add_left_comm], hmem⟩

/-- The occurrences in a type are the paths that lead to a parameter. -/
theorem mem_occurrencesIn_iff {owner : DataId} {index : Nat} {path : List Nat} {t : Ty} :
    (index, path) ∈ occurrencesIn owner t ↔ t.ParamAt owner index path := by
  induction t generalizing path with
  | prim _ | lit _ => exact iff_of_false (by simp [occurrencesIn]) nofun
  | union _ _ _ _ => exact iff_of_false (by simp [occurrencesIn]) nofun
  | param o i =>
      rw [occurrencesIn]
      constructor
      · intro h
        split at h
        · rename_i ho
          obtain ⟨rfl, rfl⟩ := Prod.mk.inj (List.mem_singleton.1 h)
          exact ho ▸ .here
        · cases h
      · rintro ⟨⟩
        simp
  | app d args ih =>
      rw [occurrencesIn, mem_occurrencesInArgs_iff]
      constructor
      · rintro ⟨position, t, rest, ht, rfl, hmem⟩
        have hat := (ih t (List.mem_of_getElem? ht)).1 hmem
        rw [Nat.zero_add]
        exact .arg ht hat
      · rintro (_ | ⟨ht, hat⟩)
        exact ⟨_, _, _, ht, by simp, (ih _ (List.mem_of_getElem? ht)).2 hat⟩

/-- From left to right, so by the lexicographic order of their paths, come the occurrences in a
list of arguments when those in each argument do: an earlier argument has a smaller position. -/
theorem pairwise_occurrencesInArgs {owner : DataId} {first : Nat} {args : List Ty}
    (h : ∀ t ∈ args, (occurrencesIn owner t).Pairwise fun a b => a.2 < b.2) :
    (occurrencesInArgs owner first args).Pairwise fun a b => a.2 < b.2 := by
  induction args generalizing first with
  | nil => exact .nil
  | cons a args ih =>
      rw [occurrencesInArgs, List.pairwise_append, List.pairwise_map]
      refine ⟨?_, ih fun t ht => h t (.tail _ ht), ?_⟩
      · exact (h a (.head _)).imp fun hlt => List.Lex.cons hlt
      · rintro x hx ⟨index, path⟩ hy
        obtain ⟨found, -, rfl⟩ := List.mem_map.1 hx
        obtain ⟨position, t, rest, -, rfl, -⟩ := mem_occurrencesInArgs_iff.1 hy
        exact List.Lex.rel (by omega)

/-- The occurrences in a type are found from left to right. -/
theorem pairwise_occurrencesIn (owner : DataId) (t : Ty) :
    (occurrencesIn owner t).Pairwise fun a b => a.2 < b.2 := by
  induction t with
  | prim _ | lit _ | union _ _ _ _ => simp [occurrencesIn]
  | param o i =>
      rw [occurrencesIn]
      split
      · exact List.pairwise_singleton _ _
      · exact .nil
  | app d args ih =>
      rw [occurrencesIn]
      exact pairwise_occurrencesInArgs ih

/-- The occurrences in a type that stands at the end of a path. -/
def occurrencesAt (owner : DataId) (s : Ty × List Nat) : List (Nat × List Nat) :=
  (occurrencesIn owner s.1).map fun found => (found.1, s.2 ++ found.2)

/-- The visit of the types on a stack, each with its path, ends with a list of the parameters of a
data type that it met. -/
inductive OccurrencesEnd (owner : DataId) : List (Ty × List Nat) → List (Nat × List Nat) → Prop
  | done : OccurrencesEnd owner [] []
  | own {index : Nat} {path : List Nat} {rest : List (Ty × List Nat)}
      {found : List (Nat × List Nat)} (h : OccurrencesEnd owner rest found) :
      OccurrencesEnd owner ((.param owner index, path) :: rest) ((index, path) :: found)
  | foreign {o : DataId} {index : Nat} {path : List Nat} {rest : List (Ty × List Nat)}
      {found : List (Nat × List Nat)} (ho : o ≠ owner) (h : OccurrencesEnd owner rest found) :
      OccurrencesEnd owner ((.param o index, path) :: rest) found
  | args {t : Ty} {path : List Nat} {rest : List (Ty × List Nat)} {found : List (Nat × List Nat)}
      (ht : ∀ o index, t ≠ .param o index)
      (h : OccurrencesEnd owner
        (t.args.zipIdx.map (fun a => (a.1, path ++ [a.2])) ++ rest) found) :
      OccurrencesEnd owner ((t, path) :: rest) found

/-- The occurrences in a list of arguments, by the arguments with their paths. -/
theorem flatMap_occurrencesAt (owner : DataId) (path : List Nat) (first : Nat) (args : List Ty) :
    ((args.zipIdx first).map fun a => (a.1, path ++ [a.2])).flatMap (occurrencesAt owner) =
      (occurrencesInArgs owner first args).map fun found => (found.1, path ++ found.2) := by
  induction args generalizing first with
  | nil => rfl
  | cons a args ih =>
      rw [List.zipIdx_cons, List.map_cons, List.flatMap_cons, ih, occurrencesInArgs,
        List.map_append, List.map_map, occurrencesAt]
      simp

/-- Other types than parameters have the occurrences in their arguments. -/
theorem occurrencesAt_eq {owner : DataId} {t : Ty} (ht : ∀ o index, t ≠ .param o index)
    (path : List Nat) :
    occurrencesAt owner (t, path) =
      (t.args.zipIdx.map fun a => (a.1, path ++ [a.2])).flatMap (occurrencesAt owner) := by
  cases t with
  | param o index => exact absurd rfl (ht o index)
  | app d args => rw [flatMap_occurrencesAt]; rfl
  | prim _ | lit _ | union _ _ => rfl

/-- A visit lists the occurrences in a type before it goes on. -/
theorem OccurrencesEnd.cons {owner : DataId} {t : Ty} {path : List Nat}
    {rest : List (Ty × List Nat)} {found : List (Nat × List Nat)}
    (h : OccurrencesEnd owner rest found) :
    OccurrencesEnd owner ((t, path) :: rest) (occurrencesAt owner (t, path) ++ found) := by
  induction t generalizing path rest found with
  | param o index =>
      rw [occurrencesAt, occurrencesIn]
      split
      · rename_i ho
        rw [ho]
        simpa using h.own
      · rename_i ho
        exact .foreign ho h
  | app d args ih =>
      have visit : ∀ (first : Nat) (ts : List Ty), (∀ t ∈ ts, t ∈ args) →
          OccurrencesEnd owner ((ts.zipIdx first).map (fun a => (a.1, path ++ [a.2])) ++ rest)
            (((ts.zipIdx first).map fun a => (a.1, path ++ [a.2])).flatMap (occurrencesAt owner) ++
              found) := by
        intro first ts hts
        induction ts generalizing first with
        | nil => exact h
        | cons a ts ihs =>
            have hrest := ihs (first + 1) fun t ht => hts t (List.mem_cons_of_mem a ht)
            rw [List.zipIdx_cons, List.map_cons, List.flatMap_cons, List.append_assoc]
            exact ih a (hts a List.mem_cons_self) hrest
      rw [occurrencesAt_eq (t := .app d args) nofun]
      exact .args nofun (visit 0 args fun _ ht => ht)
  | prim _ | lit _ | union _ _ _ _ => exact .args nofun h

/-- The visit of the types on a stack ends, with the occurrences in each of them in order. -/
theorem occurrencesEnd_iff {owner : DataId} {stack : List (Ty × List Nat)}
    {found : List (Nat × List Nat)} :
    OccurrencesEnd owner stack found ↔ found = stack.flatMap (occurrencesAt owner) := by
  constructor
  · intro h
    induction h with
    | done => rfl
    | own _ ih => simp [ih, occurrencesAt, occurrencesIn]
    | foreign ho _ ih => simp [ih, occurrencesAt, occurrencesIn, ho]
    | args ht _ ih => rw [ih, List.flatMap_append, List.flatMap_cons, occurrencesAt_eq ht]
  · rintro rfl
    induction stack with
    | nil => exact .done
    | cons s stack ih => exact ih.cons

/-- The visit of a type alone lists the occurrences in it. -/
theorem occurrencesEnd_occurrencesIn (owner : DataId) (t : Ty) :
    OccurrencesEnd owner [(t, [])] (occurrencesIn owner t) :=
  occurrencesEnd_iff.2 (by simp [occurrencesAt])

/-- The occurrences listed for a field are those in its type. -/
theorem mem_listed_iff {owner : DataId} {field : Nat} {t : Ty} {o : Occurrence} :
    o ∈ (occurrencesIn owner t).map (fun found => ⟨field, found.1, found.2⟩) ↔
      o.field = field ∧ t.ParamAt owner o.param o.path := by
  obtain ⟨i, param, path⟩ := o
  rw [List.mem_map]
  constructor
  · rintro ⟨⟨j, rest⟩, hoccurs, heq⟩
    obtain ⟨rfl, rfl, rfl⟩ := Occurrence.mk.inj heq
    exact ⟨rfl, mem_occurrencesIn_iff.1 hoccurs⟩
  · rintro ⟨rfl, hat⟩
    exact ⟨(param, path), mem_occurrencesIn_iff.2 hat, rfl⟩

/-- The occurrences listed for a field stand from left to right. -/
theorem pairwise_listed (owner : DataId) (field : Nat) (t : Ty) :
    ((occurrencesIn owner t).map fun found => (⟨field, found.1, found.2⟩ : Occurrence)).Pairwise
      fun a b => a.path < b.path :=
  List.pairwise_map.2 (pairwise_occurrencesIn owner t)

/-- The occurrences of an alignment are those in the types of the fields. -/
theorem mem_alignment_iff {D : Declarations} {d : DataId} {o : Occurrence} :
    o ∈ (D.alignment d).flatten ↔
      ∃ f, (D.get d).fields[o.field]? = some f ∧ f.ty.ParamAt d o.param o.path := by
  simp only [alignment, List.mem_flatten, List.mem_map, Prod.exists, List.mem_zipIdx_iff_getElem?]
  constructor
  · rintro ⟨_, ⟨f, field, hf, rfl⟩, hlisted⟩
    obtain ⟨rfl, hat⟩ := mem_listed_iff.1 hlisted
    exact ⟨f, hf, hat⟩
  · rintro ⟨f, hf, hat⟩
    exact ⟨_, ⟨f, o.field, hf, rfl⟩, mem_listed_iff.2 ⟨rfl, hat⟩⟩

/-- Following a path through an instance of a type leads to the argument for the parameter. -/
theorem project_substitute (D : Declarations) {owner : DataId} {index : Nat} {path : List Nat}
    {t : Ty} (args : List Ty) (h : t.ParamAt owner index path) :
    (D.project (t.substitute owner args) t path).value = args[index]?.getD .any := by
  induction h with
  | here => simp [project, Ty.substitute]
  | @arg d inner position t path ht _ ih =>
      rw [Ty.substitute_app]
      have hnext : (inner.map (Ty.substitute owner args))[position]? =
          some (t.substitute owner args) := by
        rw [List.getElem?_map, ht]
        rfl
      simp only [project, reduceCtorEq, if_false, Traced.value_bind, upcast_self, Ty.args, ht,
        hnext]
      exact ih

/-- The list for a field has the occurrences in its type, at the position of the field. -/
theorem getElem?_alignment (D : Declarations) (d : DataId) (field : Nat) :
    (D.alignment d)[field]? = (D.get d).fields[field]?.map fun f =>
      (occurrencesIn d f.ty).map fun found => ⟨field, found.1, found.2⟩ := by
  rw [alignment, List.getElem?_map, List.getElem?_zipIdx, Option.map_map, Nat.zero_add]
  rfl

/-- The alignment of a product addresses the parameters in the types of its fields. It has a list
for each field, with each occurrence of a parameter outside unions once and from left to right,
direct when it is the type of the field; and following an occurrence through an instance of that
type leads to the argument for its parameter. -/
theorem alignment_addresses (D : Declarations) (d : DataId) :
    (D.alignment d).length = (D.get d).fields.length ∧
      ∀ (field : Nat) (f : Field), (D.get d).fields[field]? = some f →
        ∃ found : List Occurrence, (D.alignment d)[field]? = some found ∧
          (∀ o, found.count o =
            if o.field = field ∧ f.ty.follow? o.path = some (.param d o.param) then 1 else 0) ∧
          found.Pairwise (fun a b => a.path < b.path) ∧
          ∀ o ∈ found, f.ty.follow? o.path = some (.param d o.param) ∧
            (o.isDirect = true ↔ o.path = []) ∧ (o.path = [] ↔ f.ty = .param d o.param) ∧
            ∀ args : List Ty, args.length = (D.get d).arity → o.param < (D.get d).arity →
              args[o.param]? = some (D.project (f.ty.substitute d args) f.ty o.path).value := by
  refine ⟨by simp [alignment], fun field f hf => ?_⟩
  have hfound := D.getElem?_alignment d field
  rw [hf, Option.map_some] at hfound
  refine ⟨_, hfound, ?_⟩
  have hpairwise := pairwise_listed d field f.ty
  have hnodup := hpairwise.imp (S := (· ≠ ·)) fun hlt heq => List.lt_irrefl _ (heq ▸ hlt)
  refine ⟨fun o => ?_, hpairwise, fun o ho => ?_⟩
  · rw [List.Nodup.count hnodup]
    simp only [mem_listed_iff, Ty.paramAt_iff_follow?]
  · have hat := (mem_listed_iff.1 ho).2
    have hfollow := Ty.paramAt_iff_follow?.1 hat
    have hdirect : o.path = [] ↔ f.ty = .param d o.param := by
      constructor
      · intro hpath
        rw [hpath] at hfollow
        exact Option.some.inj hfollow
      · intro hty
        rw [hty] at hfollow
        cases hpath : o.path with
        | nil => rfl
        | cons position path =>
            rw [hpath] at hfollow
            cases hfollow
    refine ⟨hfollow, List.isEmpty_iff, hdirect, fun args hargs hparam => ?_⟩
    rw [D.project_substitute args hat, List.getElem?_eq_getElem (hargs ▸ hparam)]
    rfl

/-- A product of one parameter, which is the type of a field, stands deep in that of another, and
stands beside and inside a union in that of a third. -/
def wrapping : Declarations :=
  let (d, D) := Workspace.initial.decls.declare "Wrapper" [⟨"A", .covariant⟩] (.product [])
  D.defineFields d [⟨"direct", .param d 0⟩,
    ⟨"nested", .app ⟨6⟩ [.prim .int, .app Workspace.known.option [.param d 0]]⟩,
    ⟨"mixed", .app ⟨6⟩ [.param d 0, .union (.param d 0) (.prim .str)]⟩]

theorem alignment_addresses_wrapping :
    wrapping.alignment ⟨8⟩ = [[⟨0, 0, []⟩], [⟨1, 0, [1, 0]⟩], [⟨2, 0, [0]⟩]] ∧
      ∃ f, (wrapping.get ⟨8⟩).fields[1]? = some f ∧
        (wrapping.project (f.ty.substitute ⟨8⟩ [.noType]) f.ty [1, 0]).value = .noType := by
  have hlisted : wrapping.alignment ⟨8⟩ =
      [[⟨0, 0, []⟩], [⟨1, 0, [1, 0]⟩], [⟨2, 0, [0]⟩]] := by decide
  refine ⟨hlisted, _, rfl, ?_⟩
  obtain ⟨-, haddresses⟩ := alignment_addresses wrapping ⟨8⟩
  obtain ⟨found, hfound, -, -, hoccurrences⟩ := haddresses 1 _ rfl
  rw [hlisted] at hfound
  obtain rfl := Option.some.inj hfound
  obtain ⟨-, -, -, hargs⟩ := hoccurrences ⟨1, 0, [1, 0]⟩ (.head _)
  exact (Option.some.inj (hargs [.noType] (by decide) (by decide))).symm

end Declarations

end CaseCover
