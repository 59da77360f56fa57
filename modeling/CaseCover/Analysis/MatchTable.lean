import CaseCover.Pattern.Basic
import CaseCover.Pattern.PatternType

/-!
Which cases can match which members of a union.
-/

namespace CaseCover

/-- An alternative of a case that can match a member. -/
structure MatchResult where
  /-- The position of the case. -/
  caseIndex : Nat
  span : Span
  guarded : Bool
  alternative : Pattern
  member : Ty
  patternType : PatternType
  deriving Repr

/-- The results for each member that has any. Members stand in the order of their
first results.

One list of groups does the work of a list of members beside a map from members to results.
A table changes by `add` alone, which enters a new member at the end of both and an old one in
neither, and nothing moves or removes a member: the keys of the map in the order of their
entry are the list of members at any time, each of them once. -/
structure MatchTable where
  groups : List (Ty × List MatchResult) := []
  deriving Repr

namespace MatchTable

def empty : MatchTable := {}

/-- A result added at the end of the group of its member, which is a new last group
for a member without results. -/
def addTo (result : MatchResult) : List (Ty × List MatchResult) →
    List (Ty × List MatchResult)
  | [] => [(result.member, [result])]
  | (member, results) :: groups =>
    if member = result.member then (member, results ++ [result]) :: groups
    else (member, results) :: addTo result groups

/-- Record a result. -/
def add (table : MatchTable) (result : MatchResult) : MatchTable :=
  ⟨addTo result table.groups⟩

/-- The results for a member; none for one that no case touches. -/
def get (table : MatchTable) (member : Ty) : List MatchResult :=
  (table.groups.lookup member).getD []

def members (table : MatchTable) : List Ty := table.groups.map Prod.fst

/-- Whether a member has results. -/
def contains (table : MatchTable) (member : Ty) : Bool :=
  (table.groups.lookup member).isSome

/-- The number of results over all members. -/
def resultCount (table : MatchTable) : Nat :=
  (table.groups.flatMap Prod.snd).length

theorem get_addTo (result : MatchResult) (groups : List (Ty × List MatchResult))
    (member : Ty) :
    ((addTo result groups).lookup member).getD [] =
      if result.member = member then (groups.lookup member).getD [] ++ [result]
      else (groups.lookup member).getD [] := by
  induction groups with
  | nil =>
    by_cases h : result.member = member
    · simp [addTo, h]
    · have : (member == result.member) = false := by simpa using Ne.symm h
      simp [addTo, h, List.lookup_cons, this]
  | cons group groups ih =>
    obtain ⟨m, results⟩ := group
    by_cases hm : m = result.member
    · subst hm
      by_cases h : result.member = member
      · subst h
        simp [addTo]
      · have : (member == result.member) = false := by simpa using Ne.symm h
        simp [addTo, h, List.lookup_cons, this]
    · by_cases h : member = m
      · subst h
        simp [addTo, hm, Ne.symm hm]
      · have : (member == m) = false := by simpa using h
        simpa [addTo, hm, List.lookup_cons, this] using ih

/-- Recording a result adds it at the end of its member's results and changes no
others. -/
theorem get_add (table : MatchTable) (result : MatchResult) (member : Ty) :
    (table.add result).get member =
      if result.member = member then table.get member ++ [result]
      else table.get member :=
  get_addTo result table.groups member

end MatchTable

end CaseCover
