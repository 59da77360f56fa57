import CaseCover.Text.Unprintable

/-!
Quoted texts. A character that would end the quotation, a backslash, a control
character or a character without a visible form is written as an escape; all others
stand for themselves.
-/

namespace CaseCover.Text

/-- The escape by code point, in lower-case hexadecimal without leading zeros. -/
def codeEscape (c : Char) : String :=
  "\\u\x7b" ++ String.ofList (Nat.toDigits 16 c.toNat) ++ "\x7d"

/-- A character as it is written between quotation marks of the given kind. -/
def escape (quote c : Char) : String :=
  if c = '\x00' then "\\0"
  else if c = '\t' then "\\t"
  else if c = '\r' then "\\r"
  else if c = '\n' then "\\n"
  else if c = '\\' then "\\\\"
  else if c = quote then "\\" ++ quote.toString
  else if isUnprintable c then codeEscape c
  else c.toString

/-- A text between double quotation marks. -/
def quoted (text : String) : String :=
  "\"" ++ String.join (text.toList.map (escape '"')) ++ "\""

def quotedChar (c : Char) : String := "'" ++ escape '\'' c ++ "'"

end CaseCover.Text
