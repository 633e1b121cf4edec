/-! Numbers and texts as bytes, and bytes as hexadecimal digits. -/

namespace Coverability.Text

abbrev Bytes := List UInt8

/-- The lowest bytes of a number, the least significant first. -/
def littleEndian : Nat → Nat → Bytes
  | 0, _ => []
  | width + 1, number => number.toUInt8 :: littleEndian width (number / 256)

/-- The lowest bytes of a number, the most significant first. -/
def bigEndian (width number : Nat) : Bytes := (littleEndian width number).reverse

/-- Reads bytes as a number, the most significant first. -/
def ofBigEndian (bytes : Bytes) : Nat := bytes.foldl (fun number byte => 256 * number + byte.toNat) 0

def utf8 (text : String) : Bytes := text.toUTF8.data.toList

def ofUtf8? (bytes : Bytes) : Option String := String.fromUTF8? ⟨bytes.toArray⟩

def hexDigit (digit : Nat) : Char := ("0123456789abcdef".toList)[digit]?.getD '0'

/-- Two lower-case digits for every byte. -/
def hex (bytes : Bytes) : String :=
  String.ofList (bytes.flatMap fun byte => [hexDigit (byte.toNat / 16), hexDigit (byte.toNat % 16)])

def hexValue? (digit : Char) : Option Nat :=
  if digit.isDigit then some (digit.toNat - '0'.toNat)
  else if 'a' ≤ digit ∧ digit ≤ 'f' then some (digit.toNat - 'a'.toNat + 10)
  else if 'A' ≤ digit ∧ digit ≤ 'F' then some (digit.toNat - 'A'.toNat + 10)
  else none

def ofHexDigits? : List Char → Option Bytes
  | [] => some []
  | high :: low :: rest => do
    let high ← hexValue? high
    let low ← hexValue? low
    let rest ← ofHexDigits? rest
    return (16 * high + low).toUInt8 :: rest
  | [_] => none

def ofHex? (text : String) : Option Bytes := ofHexDigits? text.toList

end Coverability.Text
