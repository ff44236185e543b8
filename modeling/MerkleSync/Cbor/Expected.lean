import MerkleSync.Cbor.Item

/-!
# Reading CBOR items of an expected kind

These readers know what should come next.  Tags in front of it are skipped, big
integers are accepted as integers, and a byte string is accepted where an
array of bytes is expected.  Names of fields and variants are texts or byte
strings of definite length.
-/

namespace MerkleSync
namespace Cbor

/-- The next head that is no tag; `bound` is as long as the input at least. -/
def untaggedFrom : (bound : Bytes) → Reader Head
  | [], _ => none
  | _ :: bound, input =>
    match head input with
    | some (.tag _, rest) => untaggedFrom bound rest
    | result => result

/-- The next head that is no tag. -/
def untagged : Reader Head := fun input => untaggedFrom input input

/-- The byte string of a big integer: leading zeros do not count, and at most
sixteen bytes may remain. -/
def bigNatural : Reader Nat := do
  let .bytes length ← head | failure
  let digits := (← bytesBody length).dropWhile (· == 0)
  if digits.length ≤ 16 then return Bytes.toNat digits else failure

/-- An integer that is not negative; `bound` is as long as the input at least. -/
def naturalFrom : (bound : Bytes) → Reader Nat
  | [], _ => none
  | _ :: bound, input =>
    match head input with
    | some (.positive n, rest) => some (n, rest)
    | some (.tag 2, rest) => bigNatural rest
    | some (.tag 3, _) => none
    | some (.tag _, rest) => naturalFrom bound rest
    | _ => none

/-- An integer that is not negative. -/
def natural : Reader Nat := fun input => naturalFrom input input

/-- An integer from 0 to 255. -/
def byte : Reader UInt8 := do
  let n ← natural
  if n < UInt8.size then return UInt8.ofNat n else failure

/-- An integer from 0 to `2 ^ 64 - 1`. -/
def word : Reader UInt64 := do
  let n ← natural
  if n < UInt64.size then return UInt64.ofNat n else failure

/-- The start of a list: an array of a given length whose items come next, or a
byte string, which was read and stands for an array of its bytes. -/
inductive Sequence where
  | items (length : Option Nat)
  | octets (data : Bytes)

/-- The start of a list. -/
def sequence : Reader Sequence := do
  match ← untagged with
  | .array length => return .items length
  | .bytes length => return .octets (← bytesBody length)
  | _ => failure

/-- A list of bytes. -/
def byteList : Reader Bytes := do
  match ← sequence with
  | .items length => listOf byte length
  | .octets data => return data

/-- The first `n` of a list of bytes.  What follows them in an array is left in
the input. -/
def leadingBytes (n : Nat) : Reader Bytes := do
  match ← sequence with
  | .items length => leading byte n length
  | .octets data => if n ≤ data.length then return data.take n else failure

/-- A list of items none of which is a plain integer. -/
def list {α : Type} (item : Reader α) : Reader (List α) := do
  match ← sequence with
  | .items length => listOf item length
  | .octets data => if data.isEmpty then return [] else failure

/-- A text. -/
def text : Reader String := do
  match ← untagged with
  | .text length => textBody length
  | _ => failure

/-- An item or null. -/
def optional {α : Type} (item : Reader α) : Reader (Option α) := fun input =>
  match head input with
  | some (.simple 22, rest) | some (.simple 23, rest) => some (none, rest)
  | _ => (item input).map fun (a, rest) => (some a, rest)

/-- The longest name that is accepted. -/
def nameLimit : Nat := 4096

/-- The name whose head was read. -/
def nameBody : Head → Reader Bytes
  | .text (some n) => do
    if nameLimit < n then failure
    let name ← take n
    if (Bytes.toText? name).isSome then return name else failure
  | .bytes (some n) => if nameLimit < n then failure else take n
  | _ => failure

/-- The name of a field. -/
def name : Reader Bytes := do nameBody (← untagged)

/-- The name of a variant: the only key of a map of one entry, or a text alone.
Its content, if it has any, comes next. -/
def variant : Reader Bytes := do
  match ← untagged with
  | .map (some 1) => name
  | .text length => nameBody (.text length)
  | _ => failure

/-- The length of a map whose entries come next. -/
def mapLength : Reader (Option Nat) := do
  match ← untagged with
  | .map length => return length
  | _ => failure

/-- Passes over an item that has `around` arrays, maps and variants around it. -/
def skip (around : Nat) : Reader Unit := do
  let _ ← item (nestingLimit - around)

/-- Reads the value of a field that was not read before. -/
def once {α : Type} (seen : Option α) (item : Reader α) : Reader (Option α) := do
  if seen.isSome then failure
  return some (← item)

/-- The entries of a structure of the given length: `field` reads the value that
belongs to a name into what was gathered before. -/
def fields {σ : Type} (field : σ → Bytes → Reader σ) (start : σ) (length : Option Nat) :
    Reader σ :=
  iterate (fun s => do field s (← name)) length start

end Cbor
end MerkleSync
