import MerkleSync.Error
import MerkleSync.Bytes.Text
import MerkleSync.Digest

/-!
# Identifiers

An identifier is a string of thirty bytes: ten ASCII decimal digits of a
timestamp in seconds, then twenty bytes of a content hash.  Identifiers are
ordered as byte strings, so by time first.  Any thirty bytes are accepted as
an identifier; only those that start with ten digits have a timestamp.
-/

namespace MerkleSync

/-- The number of bytes that carry the timestamp. -/
def timestampLength : Nat := 10

/-- The number of bytes of the content hash. -/
def hashLength : Nat := 20

/-- The number of bytes of an identifier, and the depth of every leaf. -/
def identLength : Nat := 30

/-- The largest timestamp of ten digits. -/
def maxTimestamp : Nat := 9999999999

/-- Thirty bytes. -/
structure Ident where
  bytes : Bytes
  length_eq : bytes.length = identLength

/-- The `width` lowest decimal digits of `n` in ASCII, most significant first. -/
def decimalDigits : (width : Nat) → (n : Nat) → Bytes
  | 0, _ => []
  | width + 1, n => decimalDigits width (n / 10) ++ [UInt8.ofNat (48 + n % 10)]

@[simp] theorem length_decimalDigits (width n : Nat) :
    (decimalDigits width n).length = width := by
  induction width generalizing n with
  | zero => rfl
  | succ width ih => simp [decimalDigits, ih]

/-- The ten bytes that an identifier of time `timestamp` starts with. -/
def timestampDigits (timestamp : Nat) : Except DataError Bytes :=
  if maxTimestamp < timestamp then .error (.timestampOutOfRange timestamp)
  else .ok (decimalDigits timestampLength timestamp)

namespace Ident

@[ext] theorem ext {a b : Ident} (h : a.bytes = b.bytes) : a = b := by
  cases a; cases b; cases h; rfl

instance : DecidableEq Ident := fun a b =>
  decidable_of_iff (a.bytes = b.bytes) ⟨ext, fun h => h ▸ rfl⟩

/-- The order of the bytes. -/
def le (a b : Ident) : Bool := (compare a.bytes b.bytes).isLE

/-- Reads an identifier from its bytes. -/
def ofBytes (data : Bytes) : Except DataError Ident :=
  if h : data.length = identLength then .ok ⟨data, h⟩
  else .error (.invalidLength "sync id" identLength data.length)

/-- The identifier of a timestamp and a content hash.  The length of the hash
is looked at first. -/
def make (timestamp : Nat) (hash : Bytes) : Except DataError Ident :=
  if h : hash.length = hashLength then
    if maxTimestamp < timestamp then .error (.timestampOutOfRange timestamp)
    else .ok ⟨decimalDigits timestampLength timestamp ++ hash, by
      simp [h, timestampLength, hashLength, identLength]⟩
  else .error (.invalidLength "hash" hashLength hash.length)

/-- The bytes that carry the timestamp. -/
def timestampBytes (i : Ident) : Bytes := i.bytes.take timestampLength

/-- The bytes of the content hash. -/
def hashBytes (i : Ident) : Bytes := i.bytes.drop timestampLength

/-- The number that ASCII digits stand for, continuing from `n`. -/
def readDigits : (n : Nat) → Bytes → Option Nat
  | n, [] => some n
  | n, b :: rest =>
    if 48 ≤ b.toNat ∧ b.toNat ≤ 57 then readDigits (n * 10 + (b.toNat - 48)) rest else none

/-- The timestamp in seconds, if the identifier starts with ten digits. -/
def timestamp? (i : Ident) : Option Nat := readDigits 0 i.timestampBytes

/-- The digest of the leaf that holds an identifier. -/
def digest (i : Ident) : Digest := Digest.of i.bytes

/-- Lowercase hexadecimal form. -/
def toHex (i : Ident) : String := i.bytes.toHex

/-- A short form for people: the timestamp and four bytes of the hash. -/
def debugText (i : Ident) : String :=
  "SyncId(" ++ i.timestampBytes.toTextLossy ++ ":" ++ Bytes.toHex (i.hashBytes.take 4) ++ ")"

/-- The identifiers of a list in ascending order, repetitions kept. -/
def sort (ids : List Ident) : List Ident := ids.mergeSort le

/-- Keeps one of each run of equal identifiers. -/
def dropRepeats : List Ident → List Ident
  | a :: b :: rest => if a = b then dropRepeats (b :: rest) else a :: dropRepeats (b :: rest)
  | ids => ids

end Ident
end MerkleSync
