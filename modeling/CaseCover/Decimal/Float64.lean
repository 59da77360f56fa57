import CaseCover.Decimal.Shortest

/-!
The text of a binary64 number given by its bit pattern: the shortest decimal that
reads back, positional or with an exponent as a `FloatStyle` says.
-/

namespace CaseCover.Decimal

/-- The decisions that the shortest digits leave open. -/
structure FloatStyle where
  /-- The least leading exponent that is written positionally. -/
  positionalFrom : Int
  /-- The leading exponent from which on positional writing stops. -/
  positionalBelow : Int
  /-- What is written for a whole number after the point. -/
  wholeFraction : String
  exponentMark : String

/-- A binary64 number, decoded. -/
inductive Float64
  | notANumber
  | infinite (negative : Bool)
  /-- Zero, or `m · 2^q`; `halfBelow` says that the next smaller magnitude is half a
  unit of `2^q` away. -/
  | finite (negative : Bool) (m : Nat) (q : Int) (halfBelow : Bool)
  deriving DecidableEq, Repr

namespace Float64

/-- The number of a bit pattern: a sign, eleven bits of exponent and fifty-two of
fraction. -/
def ofBits (bits : UInt64) : Float64 :=
  let negative := bits.toNat / Nat.pow 2 63 == 1
  let biased : Nat := bits.toNat / Nat.pow 2 52 % 2048
  let fraction : Nat := bits.toNat % Nat.pow 2 52
  if biased = 2047 then
    if fraction = 0 then .infinite negative else .notANumber
  else if biased = 0 then .finite negative fraction (-1074) false
  else
    .finite negative (Nat.pow 2 52 + fraction) ((biased : Int) - 1075)
      (fraction == 0 && decide (1 < biased))

end Float64

/-- The digits of a decimal without trailing zeros. -/
def significantDigits (digits : List Char) : List Char :=
  (digits.reverse.dropWhile (· == '0')).reverse

/-- A list of digits, or a single zero where there are none. -/
def orZero (digits : List Char) : String :=
  if digits.isEmpty then "0" else String.ofList digits

/-- A positive decimal as text. -/
def FloatStyle.writePositive (style : FloatStyle) (d : Scientific) : String :=
  let all := Nat.toDigits 10 d.digits
  let leading := d.exponent + (all.length : Int) - 1
  let digits := significantDigits all
  if style.positionalFrom ≤ leading ∧ leading < style.positionalBelow then
    let whole := (leading + 1).toNat
    let padding := List.replicate (-(leading + 1)).toNat '0'
    let wholeDigits := digits.take whole ++ List.replicate (whole - digits.length) '0'
    let fraction := padding ++ digits.drop whole
    orZero wholeDigits ++ "." ++
      (if fraction.isEmpty then style.wholeFraction else String.ofList fraction)
  else
    let point := if digits.length ≤ 1 then "" else "."
    String.ofList (digits.take 1) ++ point ++ String.ofList (digits.drop 1) ++
      style.exponentMark ++ toString leading

/-- The text of a bit pattern. -/
def FloatStyle.write (style : FloatStyle) (bits : UInt64) : String :=
  match Float64.ofBits bits with
  | .notANumber => "NaN"
  | .infinite negative => if negative then "-inf" else "inf"
  | .finite negative m q halfBelow =>
    (if negative then "-" else "") ++
      if m = 0 then "0." ++ style.wholeFraction
      else style.writePositive (Rounded.ofBinary m q halfBelow).shortest

end CaseCover.Decimal
