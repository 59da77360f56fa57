import CaseCover.Diagnostic.Code

/-!
The long explanations of the codes, as Markdown under a heading with the code and a
title. Codes about the analysis itself have none.
-/

namespace CaseCover

/-- What a code means and what to do about it. -/
structure Explanation where
  code : DiagnosticCode
  title : String
  lines : List String
  deriving DecidableEq, Repr

namespace Explanation

/-- The heading and, after an empty line, the text. -/
def markdown (e : Explanation) : String :=
  let heading := "# " ++ e.code.text ++ ": " ++ e.title
  String.join ((heading :: "" :: e.lines).map (· ++ "\n"))

def unsupportedPattern : Explanation where
  code := .unsupportedPattern
  title := "Unsupported pattern"
  lines := [
    "The pattern uses a shape the analysis cannot model, for example an extractor",
    "whose type constructor has more than one type parameter, or a `_*` sequence",
    "wildcard that is not the last element.",
    "",
    "Unsupported patterns stop the analysis immediately. Approximating them could",
    "report a case-set as exhaustive when it is not.",
    "",
    "Rewrite the pattern using constructor deconstruction, literals, type",
    "ascriptions or alternatives."]

def notInUnion : Explanation where
  code := .notInUnion
  title := "Type is not in the declared union"
  lines := [
    "A case matches a type that is neither equal to nor a subtype of any member of",
    "the declared union.",
    "",
    "```text",
    "Baz is not in \x7bFoo | Bar\x7d.",
    "```",
    "",
    "Either add the type to the union or remove the case."]

def uncoveredMembers : Explanation where
  code := .uncoveredMembers
  title := "Partial function does not cover the union"
  lines := [
    "The case-set is declared total, but at least one member of the union has no",
    "case at all.",
    "",
    "```text",
    "The partial function fails to match on these types: \x7bBar | Baz\x7d.",
    "```",
    "",
    "Add a case for every listed member, or declare the case-set partial."]

def notExhaustive : Explanation where
  code := .notExhaustive
  title := "Patterns are not exhaustive"
  lines := [
    "Every union member has at least one case, but the cases for one member do not",
    "cover all of its values.",
    "",
    "```text",
    "The patterns for Option[int] are not exhaustive; It would fail on the " ++
      "following inputs: None, Some(_).",
    "```",
    "",
    "Add cases for the listed inputs or a catch-all `_` case."]

def notVerified : Explanation where
  code := .notVerified
  title := "Exhaustiveness could not be verified"
  lines := [
    "The target type is recursive and unfolding it exceeded the configured depth or",
    "step budget. The cases are accepted without verification.",
    "",
    "Raise `max_unfold_depth` / `step_budget` in the check configuration, or add a",
    "catch-all case."]

def notContained : Explanation where
  code := .notContained
  title := "Narrowed union is not a subset"
  lines := [
    "A handle was narrowed to a union that contains members the handle's own union",
    "does not accept.",
    "",
    "```text",
    "Qux is not in \x7bFoo | Bar | Baz\x7d.",
    "```"]

/-- Every explanation, in the order in which they are listed. -/
def all : List Explanation :=
  [unsupportedPattern, notInUnion, uncoveredMembers,
    notExhaustive, notVerified, notContained]

/-- The explanation of a code, if it has one. -/
def of? (code : DiagnosticCode) : Option Explanation :=
  all.find? fun e => e.code == code

end Explanation

end CaseCover
