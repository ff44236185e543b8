import MerkleSync.Bytes

/-!
# Heads of CBOR items

Every item of CBOR (RFC 8949) starts with a head: three bits of major type and
an argument of up to 64 bits.  Heads are written with the shortest argument and
read with any.  Additional information 28 to 30 is reserved, and 31 stands for
an indefinite length or, alone, for the break that ends one.
-/

namespace MerkleSync
namespace Cbor

/-- The first part of an item.  A missing length is indefinite; a float keeps
the bytes of its number. -/
inductive Head where
  | positive (n : Nat)
  | negative (n : Nat)
  | bytes (length : Option Nat)
  | text (length : Option Nat)
  | array (length : Option Nat)
  | map (length : Option Nat)
  | tag (number : Nat)
  | simple (value : Nat)
  | float (number : Bytes)
  | stop
deriving DecidableEq, Repr

/-- A reader consumes bytes from the front of the input, or fails. -/
abbrev Reader (α : Type) := StateT Bytes Option α

/-- The next `n` bytes. -/
def take (n : Nat) : Reader Bytes := fun input => input.splitExact n

/-- The argument that follows an initial byte with additional information
`info`, with its bytes; `none` as argument stands for 31. -/
def argument (info : Nat) : Reader (Option Nat × Bytes) := fun input =>
  if info < 24 then some ((some info, []), input)
  else if info < 28 then
    match input.splitExact (1 <<< (info - 24)) with
    | some (number, rest) => some ((some number.toNat, number), rest)
    | none => none
  else if info = 31 then some ((none, []), input)
  else none

/-- The head of a major type with an argument; integers and tags need one. -/
def Head.ofArgument (major : Nat) (argument : Option Nat) (number : Bytes) : Option Head :=
  match major with
  | 0 => argument.map .positive
  | 1 => argument.map .negative
  | 2 => some (.bytes argument)
  | 3 => some (.text argument)
  | 4 => some (.array argument)
  | 5 => some (.map argument)
  | 6 => argument.map .tag
  | _ =>
    match argument with
    | none => some .stop
    | some n => if number.length ≤ 1 then some (.simple n) else some (.float number)

/-- Reads a head. -/
def head : Reader Head := fun input =>
  match input with
  | [] => none
  | first :: rest =>
    match argument (first.toNat % 32) rest with
    | none => none
    | some ((n, number), rest) =>
      (Head.ofArgument (first.toNat / 32) n number).map fun h => (h, rest)

/-- Writes a head with the shortest argument; `n` is below `2 ^ 64`. -/
def writeHead (major n : Nat) : Bytes :=
  if n < 24 then [UInt8.ofNat (major * 32 + n)]
  else if n < UInt8.size then UInt8.ofNat (major * 32 + 24) :: Bytes.bigEndian 1 n
  else if n < UInt16.size then UInt8.ofNat (major * 32 + 25) :: Bytes.bigEndian 2 n
  else if n < UInt32.size then UInt8.ofNat (major * 32 + 26) :: Bytes.bigEndian 4 n
  else UInt8.ofNat (major * 32 + 27) :: Bytes.bigEndian 8 n

/-- Writes an unsigned integer. -/
def writeNat (n : Nat) : Bytes := writeHead 0 n

/-- Writes a byte string. -/
def writeBytes (data : Bytes) : Bytes := writeHead 2 data.length ++ data

/-- Writes a text. -/
def writeText (utf8 : Bytes) : Bytes := writeHead 3 utf8.length ++ utf8

/-- Writes an array of items that are written already. -/
def writeArray (items : List Bytes) : Bytes := writeHead 4 items.length ++ items.flatten

/-- Writes a map of entries that are written already. -/
def writeMap (entries : List (Bytes × Bytes)) : Bytes :=
  writeHead 5 entries.length ++ entries.flatMap fun e => e.1 ++ e.2

/-- Writes the null value. -/
def writeNull : Bytes := [0xF6]

end Cbor
end MerkleSync
