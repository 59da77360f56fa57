import CaseCover.Ty.Basic

/-!
Answers that remember the types built on the way. A type is built together with
its parts, and the order in which types are first built is the order of their
handles in a type table; apart from that order a trail has no meaning, and no
answer depends on one. `Traced` is a value with its trail. `Query` may also have no
answer, which is how a question that never ends shows; `Query.value?` forgets the
trail and respects sequencing (`value?_bind`).
-/

namespace CaseCover

/-- Types in the order in which they were built. -/
inductive Trail
  | empty
  | built (t : Ty)
  | both (first second : Trail)
  deriving Repr

namespace Trail

instance : Inhabited Trail := ⟨empty⟩

/-- One trail after another. -/
def append : Trail → Trail → Trail
  | .empty, v => v
  | u, .empty => u
  | u, v => .both u v

instance : Append Trail := ⟨append⟩

/-- The types of a trail, in order, before a list. -/
def toListAppend : Trail → List Ty → List Ty
  | .empty, tail => tail
  | .built t, tail => t :: tail
  | .both u v, tail => u.toListAppend (v.toListAppend tail)

def toList (u : Trail) : List Ty := u.toListAppend []

/-- The trail that builds the types of a list. -/
def ofList (types : List Ty) : Trail :=
  types.foldr (fun t rest => .both (.built t) rest) .empty

theorem toListAppend_eq (u : Trail) (tail : List Ty) :
    u.toListAppend tail = u.toList ++ tail := by
  induction u generalizing tail with
  | empty => rfl
  | built t => rfl
  | both u v ihu ihv =>
    rw [toList, toListAppend, toListAppend, ihu, ihv, ihu (v.toListAppend []),
      ← List.append_assoc, ihv []]
    simp

@[simp] theorem toList_append (u v : Trail) :
    (u ++ v).toList = u.toList ++ v.toList := by
  change (append u v).toList = _
  unfold append
  split
  · simp [toList, toListAppend]
  · simp [toList, toListAppend]
  · rw [toList, toListAppend, toListAppend_eq, ← toList]

@[simp] theorem toList_ofList (types : List Ty) : (ofList types).toList = types := by
  induction types with
  | nil => rfl
  | cons t rest ih =>
    change t :: (ofList rest).toListAppend [] = _
    rw [← toList, ih]

end Trail

/-- A value together with the types built while it was computed. -/
structure Traced (α : Type) where
  value : α
  trail : Trail := .empty

namespace Traced

/-- A type, built. -/
def build (t : Ty) : Traced Ty := ⟨t, .built t⟩

@[always_inline] instance : Monad Traced where
  pure a := ⟨a, .empty⟩
  bind x f :=
    let y := f x.value
    ⟨y.value, x.trail ++ y.trail⟩
  map f x := ⟨f x.value, x.trail⟩

@[simp] theorem value_pure {α : Type} (a : α) : (pure a : Traced α).value = a := rfl

@[simp] theorem value_bind {α β : Type} (x : Traced α) (f : α → Traced β) :
    (x >>= f).value = (f x.value).value := rfl

@[simp] theorem value_map {α β : Type} (f : α → β) (x : Traced α) :
    (f <$> x).value = f x.value := rfl

@[simp] theorem value_build (t : Ty) : (build t).value = t := rfl

end Traced

/-- A question about types: a traced answer, or none when the question does not end
within its limit. -/
structure Query (α : Type) where
  answer : Option (Traced α)

namespace Query

def unanswered {α : Type} : Query α := ⟨none⟩

def ofTraced {α : Type} (x : Traced α) : Query α := ⟨some x⟩

/-- A type, built. -/
def build (t : Ty) : Query Ty := ofTraced (Traced.build t)

def value? {α : Type} (q : Query α) : Option α := q.answer.map Traced.value

/-- The types built on the way to the answer; none without an answer. -/
def trail {α : Type} (q : Query α) : Trail := (q.answer.map Traced.trail).getD .empty

/-- Ask, and then ask what depends on the answer. -/
@[always_inline, inline]
def andThen {α β : Type} (q : Query α) (f : α → Query β) : Query β :=
  match q.answer with
  | none => unanswered
  | some x =>
    match (f x.value).answer with
    | none => unanswered
    | some y => ⟨some ⟨y.value, x.trail ++ y.trail⟩⟩

@[always_inline] instance : Monad Query where
  pure a := ⟨some ⟨a, .empty⟩⟩
  bind := andThen

instance : MonadLift Traced Query := ⟨ofTraced⟩

@[simp] theorem value?_pure {α : Type} (a : α) :
    (pure a : Query α).value? = some a := rfl

@[simp] theorem value?_unanswered {α : Type} :
    (unanswered : Query α).value? = none := rfl

@[simp] theorem value?_ofTraced {α : Type} (x : Traced α) :
    (ofTraced x).value? = some x.value := rfl

@[simp] theorem value?_build (t : Ty) : (build t).value? = some t := rfl

@[simp] theorem value?_bind {α β : Type} (q : Query α) (f : α → Query β) :
    (q >>= f).value? = q.value?.bind fun a => (f a).value? := by
  change (andThen q f).value? = _
  unfold andThen value?
  cases q.answer with
  | none => rfl
  | some x =>
    cases h : (f x.value).answer <;> simp [h, unanswered]

@[simp] theorem value?_map {α β : Type} (f : α → β) (q : Query α) :
    (f <$> q).value? = q.value?.map f := by
  change (q >>= fun a => pure (f a)).value? = _
  rw [value?_bind]
  cases q.value? <;> rfl

@[simp] theorem value?_ite {α : Type} (c : Prop) [Decidable c] (p q : Query α) :
    (if c then p else q).value? = if c then p.value? else q.value? := by
  split <;> rfl

/-- The first of two answers decides when it is false. -/
@[macro_inline]
def both (p q : Query Bool) : Query Bool := do
  if ← p then q else pure false

/-- The first of two answers decides when it is true. -/
@[macro_inline]
def either (p q : Query Bool) : Query Bool := do
  if ← p then pure true else q

/-- Whether every element of a list passes, asked from left to right up to the first
that does not. -/
def all {α : Type} (p : α → Query Bool) : List α → Query Bool
  | [] => pure true
  | a :: rest => both (p a) (all p rest)

/-- Whether some element of a list passes, asked from left to right up to the first
that does. -/
def any {α : Type} (p : α → Query Bool) : List α → Query Bool
  | [] => pure false
  | a :: rest => either (p a) (any p rest)

/-- The elements of a list that pass. -/
def filter {α : Type} (p : α → Query Bool) : List α → Query (List α)
  | [] => pure []
  | a :: rest => do
    let keep ← p a
    let kept ← filter p rest
    pure (if keep then a :: kept else kept)

/-- The present results over a list, from left to right. -/
def filterMap {α β : Type} (f : α → Query (Option β)) : List α → Query (List β)
  | [] => pure []
  | a :: rest => do
    match ← f a with
    | none => filterMap f rest
    | some b => return b :: (← filterMap f rest)

/-- The results over a list, from left to right. -/
def each {α β : Type} (f : α → Query β) : List α → Query (List β)
  | [] => pure []
  | a :: rest => do
    let b ← f a
    return b :: (← each f rest)

/-- Combine a list from left to right. -/
def fold {α β : Type} (f : β → α → Query β) (start : β) : List α → Query β
  | [] => pure start
  | a :: rest => do fold f (← f start a) rest

end Query

end CaseCover
