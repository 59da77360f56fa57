import CaseCover.Source.Span
import CaseCover.Ty.Basic

/-!
Patterns as trees. Every node knows the number under which it was allocated and where
it was written. `Pattern.stripNames` looks through `name @`, and
`Pattern.topAlternatives` lists the branches of an alternation at the top. A
`PatternArena` hands out the numbers; as a node is allocated after its parts, every
pattern is a finite tree.
-/

namespace CaseCover

/-- Which node a pattern is: its number and its place in the source. -/
structure PatternNode where
  id : Nat
  span : Span
  deriving DecidableEq, Repr, Inhabited

/-- A pattern. -/
inductive Pattern
  /-- The wildcard `_`. -/
  | wildcard (node : PatternNode)
  /-- A name for any value. -/
  | binding (node : PatternNode) (name : String)
  /-- A name for what the part matches: `name @ part`. -/
  | named (node : PatternNode) (name : String) (part : Pattern)
  /-- The values of a type that the part matches: `part : T`. -/
  | typed (node : PatternNode) (part : Pattern) (ty : Ty)
  /-- One literal value. -/
  | literal (node : PatternNode) (value : Literal)
  /-- A product taken apart field by field, or the value of a singleton. -/
  | variant (node : PatternNode) (adt : DataId) (parts : List Pattern)
  /-- The elements of a sequence, in order. -/
  | extractor (node : PatternNode) (adt : DataId) (parts : List Pattern)
  /-- The rest of a sequence, `_*`. -/
  | rest (node : PatternNode)
  /-- The values that some branch matches. -/
  | alternation (node : PatternNode) (branches : List Pattern)
  deriving Repr

namespace Pattern

instance : Inhabited Pattern := ⟨.wildcard default⟩

/-- Induction on a pattern, with a hypothesis for every part. -/
@[elab_as_elim, induction_eliminator]
theorem induct {P : Pattern → Prop} (wildcard : ∀ n, P (.wildcard n))
    (binding : ∀ n x, P (.binding n x))
    (named : ∀ n x p, P p → P (.named n x p))
    (typed : ∀ n p t, P p → P (.typed n p t))
    (literal : ∀ n v, P (.literal n v))
    (variant : ∀ n d ps, (∀ p ∈ ps, P p) → P (.variant n d ps))
    (extractor : ∀ n d ps, (∀ p ∈ ps, P p) → P (.extractor n d ps))
    (rest : ∀ n, P (.rest n))
    (alternation : ∀ n ps, (∀ p ∈ ps, P p) → P (.alternation n ps))
    (p : Pattern) : P p :=
  Pattern.rec (motive_1 := P) (motive_2 := fun ps => ∀ p ∈ ps, P p)
    wildcard binding (fun n x p h => named n x p h) (fun n p t h => typed n p t h)
    literal (fun n d ps h => variant n d ps h) (fun n d ps h => extractor n d ps h)
    rest (fun n ps h => alternation n ps h)
    (fun _ h => absurd h List.not_mem_nil)
    (fun _ _ hd tl a ha => (List.mem_cons.1 ha).elim (fun e => e ▸ hd) (tl a)) p

/-- The node of a pattern. -/
def node : Pattern → PatternNode
  | .wildcard n | .binding n _ | .named n _ _ | .typed n _ _ | .literal n _
  | .variant n _ _ | .extractor n _ _ | .rest n | .alternation n _ => n

def id (p : Pattern) : Nat := p.node.id

def span (p : Pattern) : Span := p.node.span

/-- The direct parts, in source order. -/
def parts : Pattern → List Pattern
  | .named _ _ p | .typed _ p _ => [p]
  | .variant _ _ ps | .extractor _ _ ps | .alternation _ ps => ps
  | .wildcard _ | .binding _ _ | .literal _ _ | .rest _ => []

/-- The pattern under all names at its top. -/
def stripNames : Pattern → Pattern
  | .named _ _ p => p.stripNames
  | p => p

/-- Whether a pattern is a wildcard or a binding, possibly named. -/
def isCatchAll (p : Pattern) : Bool :=
  match p.stripNames with
  | .wildcard _ | .binding _ _ => true
  | _ => false

/-- Whether a pattern is `_*`, possibly named. -/
def isRest (p : Pattern) : Bool :=
  match p.stripNames with
  | .rest _ => true
  | _ => false

mutual

/-- The alternatives of a pattern, from left to right through nested alternations and
names. A pattern that is no alternation is its own single alternative. -/
def topAlternatives : Pattern → List Pattern
  | .named _ _ p => p.topAlternatives
  | .alternation _ branches => topAlternativesList branches
  | p => [p]

/-- The alternatives of each pattern of a list. -/
def topAlternativesList : List Pattern → List Pattern
  | [] => []
  | p :: ps => p.topAlternatives ++ topAlternativesList ps

end

mutual

/-- The number of nodes of a pattern. -/
def size : Pattern → Nat
  | .named _ _ p | .typed _ p _ => p.size + 1
  | .variant _ _ ps | .extractor _ _ ps | .alternation _ ps => sizeList ps + 1
  | .wildcard _ | .binding _ _ | .literal _ _ | .rest _ => 1

/-- The number of nodes of all patterns of a list. -/
def sizeList : List Pattern → Nat
  | [] => 0
  | p :: ps => p.size + sizeList ps

end

theorem topAlternativesList_eq_flatMap (ps : List Pattern) :
    topAlternativesList ps = ps.flatMap topAlternatives := by
  induction ps with
  | nil => rfl
  | cons p ps ih => simp [topAlternativesList, ih]

end Pattern

/-- The patterns allocated so far, by number. -/
structure PatternArena where
  patterns : Array Pattern := #[]
  deriving Repr

namespace PatternArena

def empty : PatternArena := {}

def size (arena : PatternArena) : Nat := arena.patterns.size

/-- Allocate a pattern, made from its node, under the next number. -/
def alloc (arena : PatternArena) (span : Span) (make : PatternNode → Pattern) :
    Pattern × PatternArena :=
  let pattern := make ⟨arena.size, span⟩
  (pattern, ⟨arena.patterns.push pattern⟩)

def get? (arena : PatternArena) (id : Nat) : Option Pattern := arena.patterns[id]?

end PatternArena

/-- One case of a case set: its pattern, where it was written, and where its guard
was, if it has one. -/
structure Case where
  pattern : Pattern
  span : Span
  guard : Option Span := none
  deriving Repr

def Case.isGuarded (c : Case) : Bool := c.guard.isSome

end CaseCover
