import MerkleSync.Blake3
import MerkleSync.Bytes.Hex

/-!
# Digests

A digest is the BLAKE3 output cut to twenty bytes.  The digest of several
digests is that of their concatenation; of none, it is the empty digest, all
zero, because a node without children and a level without siblings both
summarise nothing.
-/

namespace MerkleSync

/-- The number of bytes of a digest. -/
def digestLength : Nat := 20

/-- Twenty bytes that stand for a subtree. -/
structure Digest where
  bytes : Bytes
  length_eq : bytes.length = digestLength

namespace Digest

@[ext] theorem ext {d e : Digest} (h : d.bytes = e.bytes) : d = e := by
  cases d; cases e; cases h; rfl

instance : DecidableEq Digest := fun d e =>
  decidable_of_iff (d.bytes = e.bytes) ⟨ext, fun h => h ▸ rfl⟩

/-- The digest of an empty subtree. -/
def empty : Digest := ⟨List.replicate digestLength 0, List.length_replicate⟩

instance : Inhabited Digest := ⟨empty⟩

/-- The digest with given bytes, if there are twenty of them. -/
def ofBytes? (data : Bytes) : Option Digest :=
  if h : data.length = digestLength then some ⟨data, h⟩ else none

/-- The first five words of a hash output. -/
def ofWords (w : Blake3.Words) : Digest where
  bytes := [w.lo.a, w.lo.b, w.lo.c, w.lo.d, w.hi.a].flatMap Blake3.wordBytes
  length_eq := rfl

/-- The digest of a byte string. -/
def of (data : Bytes) : Digest := ofWords (Blake3.hash data)

/-- The byte string that stands for a list of digests. -/
def concat (digests : List Digest) : Bytes := digests.flatMap (·.bytes)

/-- The digest of a list of digests, in the given order. -/
def combine (digests : List Digest) : Digest :=
  if digests.isEmpty then empty else of (concat digests)

/-- Whether this is the empty digest. -/
def isEmpty (d : Digest) : Bool := d == empty

/-- Lowercase hexadecimal form. -/
def toHex (d : Digest) : String := d.bytes.toHex

/-- Reads a hexadecimal form of twenty bytes. -/
def ofHex (text : String) : Except HexError Digest :=
  match Bytes.ofHex text with
  | .error e => .error e
  | .ok data => match ofBytes? data with
    | some d => .ok d
    | none => .error .invalidLength

/-- A short form for people: the first six bytes. -/
def debugText (d : Digest) : String :=
  if d.isEmpty then "TrieHash(empty)"
  else "TrieHash(" ++ Bytes.toHex (d.bytes.take 6) ++ ")"

end Digest
end MerkleSync
