import MerkleSync.Bytes

/-!
# Bytes as text

Strict reading of UTF-8 and a reading that never fails.  The latter follows the
table of well-formed byte sequences of the Unicode standard: each longest
beginning of a well-formed sequence that cannot be completed, and each byte
that begins none, is shown as one replacement character.
-/

namespace MerkleSync
namespace Bytes

/-- The bytes of a text. -/
def ofText (text : String) : Bytes := text.toUTF8.data.toList

/-- The text whose UTF-8 form is `data`. -/
def toText? (data : Bytes) : Option String := String.fromUTF8? data.toByteArray

/-- What a first byte says about a character: the bits it gives and the ranges
of the bytes that have to follow. -/
def leadByte (n : Nat) : Option (Nat × List (Nat × Nat)) :=
  let tail := (0x80, 0xBF)
  if n < 0x80 then some (n, [])
  else if 0xC2 ≤ n ∧ n ≤ 0xDF then some (n - 0xC0, [tail])
  else if n = 0xE0 then some (0, [(0xA0, 0xBF), tail])
  else if n = 0xED then some (0xD, [(0x80, 0x9F), tail])
  else if 0xE1 ≤ n ∧ n ≤ 0xEF then some (n - 0xE0, [tail, tail])
  else if n = 0xF0 then some (0, [(0x90, 0xBF), tail, tail])
  else if 0xF1 ≤ n ∧ n ≤ 0xF3 then some (n - 0xF0, [tail, tail, tail])
  else if n = 0xF4 then some (4, [(0x80, 0x8F), tail, tail])
  else none

/-- Starts a character with a byte: characters that are complete and, if one is
not, its bits so far and the ranges still to come. -/
def startChar (b : UInt8) : List Char × Option (Nat × List (Nat × Nat)) :=
  match leadByte b.toNat with
  | none => (['\uFFFD'], none)
  | some (bits, []) => ([Char.ofNat bits], none)
  | some (bits, ranges) => ([], some (bits, ranges))

/-- The characters of the rest of the bytes, after an unfinished one. -/
def lossyChars : Option (Nat × List (Nat × Nat)) → Bytes → List Char
  | none, [] => []
  | some _, [] => ['\uFFFD']
  | none, b :: rest =>
    let (done, pending) := startChar b
    done ++ lossyChars pending rest
  | some (_, []), b :: rest =>
    let (done, pending) := startChar b
    done ++ lossyChars pending rest
  | some (bits, (low, high) :: ranges), b :: rest =>
    let n := b.toNat
    if low ≤ n ∧ n ≤ high then
      let bits := bits * 64 + n % 64
      if ranges.isEmpty then Char.ofNat bits :: lossyChars none rest
      else lossyChars (some (bits, ranges)) rest
    else
      let (done, pending) := startChar b
      '\uFFFD' :: (done ++ lossyChars pending rest)

/-- The text of any bytes, with replacement characters where they are no UTF-8. -/
def toTextLossy (data : Bytes) : String := String.ofList (lossyChars none data)

end Bytes
end MerkleSync
