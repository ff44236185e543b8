import MerkleSync.Bytes

/-!
# Hexadecimal text

Bytes are written as two lowercase digits each.  Reading accepts either case
and looks at the UTF-8 bytes of the text: an odd number of them is refused
first, then the first byte that is no hexadecimal digit.
-/

namespace MerkleSync

/-- Why a text is no hexadecimal form of what was expected. -/
inductive HexError where
  | oddLength
  | invalidCharacter (byte : UInt8) (position : Nat)
  | invalidLength
deriving DecidableEq, Repr

namespace Bytes

/-- The lowercase digit of a number below sixteen. -/
def hexDigit (n : Nat) : Char :=
  Char.ofNat (if n < 10 then n + 48 else n + 87)

/-- Two lowercase hexadecimal digits for each byte. -/
def toHex (data : Bytes) : String :=
  String.ofList (data.flatMap fun b => [hexDigit (b.toNat / 16), hexDigit (b.toNat % 16)])

/-- The value of an ASCII hexadecimal digit of either case. -/
def hexValue? (b : UInt8) : Option Nat :=
  let n := b.toNat
  if 48 ≤ n ∧ n ≤ 57 then some (n - 48)
  else if 65 ≤ n ∧ n ≤ 70 then some (n - 55)
  else if 97 ≤ n ∧ n ≤ 102 then some (n - 87)
  else none

/-- Reads pairs of digits; `position` is the offset of the first of them and
`done` holds what was read so far, last byte first. -/
def ofHexDigits : (position : Nat) → (done : Bytes) → (digits : Bytes) → Except HexError Bytes
  | _, done, [] => .ok done.reverse
  | _, _, [_] => .error .oddLength
  | position, done, high :: low :: rest =>
    match hexValue? high, hexValue? low with
    | some h, some l => ofHexDigits (position + 2) (UInt8.ofNat (h * 16 + l) :: done) rest
    | none, _ => .error (.invalidCharacter high position)
    | some _, none => .error (.invalidCharacter low (position + 1))

/-- Reads hexadecimal text. -/
def ofHex (text : String) : Except HexError Bytes :=
  let digits := text.toUTF8.data.toList
  if digits.length % 2 = 1 then .error .oddLength else ofHexDigits 0 [] digits

end Bytes

/-- A byte, taken as the character of the same number, in single quotes:
control characters, the no-break space and the soft hyphen are escaped, as are
the quote and the backslash. -/
def quotedByte (byte : UInt8) : String :=
  let n := byte.toNat
  let escaped :=
    if n = 0 then "\\0"
    else if n = 9 then "\\t"
    else if n = 10 then "\\n"
    else if n = 13 then "\\r"
    else if n = 39 then "\\'"
    else if n = 92 then "\\\\"
    else if n < 32 ∨ (127 ≤ n ∧ n ≤ 160) ∨ n = 173 then
      "\\u\x7b" ++ String.ofList (Nat.toDigits 16 n) ++ "\x7d"
    else String.singleton (Char.ofNat n)
  "'" ++ escaped ++ "'"

/-- The text shown for a hexadecimal error. -/
def HexError.message : HexError → String
  | .oddLength => "Odd number of digits"
  | .invalidCharacter byte position =>
    "Invalid character " ++ quotedByte byte ++ " at position " ++ toString position
  | .invalidLength => "Invalid string length"

end MerkleSync
