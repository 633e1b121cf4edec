import Coverability.Text.Unprintable

/-! Texts in double quotes, as they are shown in diagnostic output. -/

namespace Coverability.Text

/-- The digits of a number in hexadecimal notation, without leading zeros. -/
def hexNumber (number : Nat) : String := String.ofList (Nat.toDigits 16 number)

/-- Quotes, backslashes and characters that show nothing by themselves are escaped. -/
def escape (char : Char) : String :=
  if char = '"' then "\\\""
  else if char = '\\' then "\\\\"
  else if char = '\n' then "\\n"
  else if char = '\r' then "\\r"
  else if char = '\t' then "\\t"
  else if char.toNat = 0 then "\\0"
  else if isUnprintable char then "\\u\x7b" ++ hexNumber char.toNat ++ "\x7d"
  else String.singleton char

def quoted (text : String) : String := "\"" ++ String.join (text.toList.map escape) ++ "\""

end Coverability.Text
