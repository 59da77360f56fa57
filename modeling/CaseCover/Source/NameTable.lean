/-!
The table of names. Each text gets a number when it is first seen and keeps it; number
0 is the empty text. A number that was never given out stands for the empty text.
-/

namespace CaseCover

/-- The distinct texts seen so far, in the order in which they were first seen. -/
structure NameTable where
  texts : Array String
  deriving Repr

namespace NameTable

def initial : NameTable := ⟨#[""]⟩

instance : Inhabited NameTable := ⟨initial⟩

def size (t : NameTable) : Nat := t.texts.size

/-- The number of a text, which is added at the end when it is new. -/
def intern (t : NameTable) (text : String) : Nat × NameTable :=
  match t.texts.findIdx? (· == text) with
  | some number => (number, t)
  | none => (t.texts.size, ⟨t.texts.push text⟩)

def insert (t : NameTable) (text : String) : NameTable := (t.intern text).2

/-- The table after each text of a list has been given its number. -/
def insertAll (t : NameTable) (texts : List String) : NameTable := texts.foldl insert t

/-- The text of a number, which is empty for a number not given out. -/
def lookup (t : NameTable) (number : Nat) : String := t.texts[number]?.getD ""

/-- The size of the table. -/
def render (t : NameTable) : String :=
  "StringInterner \x7b len: " ++ toString t.size ++ " \x7d"

def renderNumber (number : Nat) : String := "Name(" ++ toString number ++ ")"

/-- Looking up the number just given to a text returns that text. -/
theorem lookup_intern (t : NameTable) (text : String) :
    (t.intern text).2.lookup (t.intern text).1 = text := by
  unfold intern
  split
  · next number found =>
    obtain ⟨inside, hit⟩ := Array.findIdx?_eq_some_iff_getElem.1 found
    simp only [beq_iff_eq] at hit
    simp [lookup, inside, hit.1]
  · simp [lookup]

end NameTable

end CaseCover
