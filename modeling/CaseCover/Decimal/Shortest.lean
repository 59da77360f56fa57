/-!
The shortest decimal that stands for a binary fraction. A value `m · 2^q` is read
back from every decimal in the interval of reals that round to it. `shortest` takes
the least number of digits for which a decimal of that many digits lies in the
interval, and of two such decimals the nearer; of two equally near ones the larger.
-/

namespace CaseCover.Decimal

/-- A non-negative decimal: `digits · 10^exponent`. -/
structure Scientific where
  digits : Nat
  exponent : Int
  deriving DecidableEq, Repr, Inhabited

/-- A positive value with the bounds of the interval that rounds to it, all three
over one denominator. -/
structure Rounded where
  low : Nat
  value : Nat
  high : Nat
  denominator : Nat
  /-- Whether the bounds themselves round to the value. -/
  closed : Bool

namespace Rounded

/-- The value `m · 2^q`. The values next to it are one unit of `2^q` away, except
that the one below is half a unit away where `halfBelow` holds. -/
def ofBinary (m : Nat) (q : Int) (halfBelow : Bool) : Rounded :=
  let scale := Nat.pow 2 (q - 2).toNat
  { low := (4 * m - if halfBelow then 1 else 2) * scale
    value := 4 * m * scale
    high := (4 * m + 2) * scale
    denominator := Nat.pow 2 (2 - q).toNat
    closed := m % 2 == 0 }

/-- Whether a fraction rounds to the value. -/
def accepts (r : Rounded) (numerator denominator : Nat) : Bool :=
  let x := numerator * r.denominator
  let low := r.low * denominator
  let high := r.high * denominator
  if r.closed then decide (low ≤ x) && decide (x ≤ high)
  else decide (low < x) && decide (x < high)

/-- The exponent of the leading digit of the value: the number of places to the left
or right of the units. -/
def leadingExponent (r : Rounded) : Int :=
  if r.denominator ≤ r.value then
    ((Nat.toDigits 10 (r.value / r.denominator)).length : Int) - 1
  else
    let places := (Nat.toDigits 10 (r.denominator / r.value)).length
    if r.denominator ≤ r.value * Nat.pow 10 (places - 1) then 1 - (places : Int)
    else -(places : Int)

/-- The decimal with the given exponent that rounds to the value and is nearest to
it, if there is one. -/
def onGrid? (r : Rounded) (exponent : Int) : Option Scientific :=
  let up := Nat.pow 10 exponent.toNat
  let down := Nat.pow 10 (-exponent).toNat
  let below := r.value * down / (r.denominator * up)
  let lowHit := r.accepts (below * up) down
  let highHit := r.accepts ((below + 1) * up) down
  let twice := 2 * (r.value * down)
  let middle := (2 * below + 1) * (r.denominator * up)
  if highHit && (!lowHit || decide (middle ≤ twice)) then some ⟨below + 1, exponent⟩
  else if lowHit then some ⟨below, exponent⟩
  else none

/-- The first hit with at most `fuel` further digits, from the grid of an exponent
on. -/
def search (r : Rounded) : Nat → Int → Scientific
  | 0, exponent => ⟨r.value / r.denominator, exponent⟩
  | fuel + 1, exponent =>
    match r.onGrid? exponent with
    | some d => d
    | none => r.search fuel (exponent - 1)

/-- The shortest decimal that rounds to the value. Seventeen digits always do. -/
def shortest (r : Rounded) : Scientific := r.search 18 r.leadingExponent

end Rounded

end CaseCover.Decimal
