import Std.Data.TreeMap

/-!
# Byte strings and the tables that they order

Paths, keys and encoded values are plain lists of bytes.  They are compared
lexicographically, byte by byte, a proper beginning coming first; this is the
order of `compare` on lists, and the order of every table in this library.

The keys that start with a given beginning form one interval of that order.
Its lower end is the beginning itself; its upper end, excluded, is found by
dropping trailing bytes `0xff` and adding one to the last byte that remains.
Where nothing remains the interval has no upper end.  A table lists the
entries under a beginning by reading this interval off an ordered tree.
-/

namespace MerkleSync

/-- A path, a key or an encoded value. -/
abbrev Bytes := List UInt8

namespace Bytes

/-- The `width` lowest base-256 digits of `n`, most significant first. -/
def bigEndian : (width : Nat) → (n : Nat) → Bytes
  | 0, _ => []
  | width + 1, n => bigEndian width (n / 256) ++ [UInt8.ofNat n]

@[simp] theorem length_bigEndian (width n : Nat) :
    (bigEndian width n).length = width := by
  induction width generalizing n with
  | zero => rfl
  | succ width ih => simp [bigEndian, ih]

/-- The number whose base-256 digits, most significant first, are `data`. -/
def toNat (data : Bytes) : Nat :=
  data.foldl (fun n b => n * 256 + b.toNat) 0

/-- `data` cut into `count` consecutive pieces of `size` bytes; the last ones
are shorter or empty where the data runs out. -/
def pieces (size : Nat) : (count : Nat) → (data : Bytes) → List Bytes
  | 0, _ => []
  | count + 1, data => data.take size :: pieces size count (data.drop size)

/-- The beginning of `data` of exactly `n` bytes, and the rest. -/
def splitExact (n : Nat) (data : Bytes) : Option (Bytes × Bytes) :=
  let parts := data.splitAt n
  if parts.1.length = n then some parts else none

/-- `successor` on the reversed bytes. -/
def successorRev : Bytes → Option Bytes
  | [] => none
  | b :: rest => if b = 255 then successorRev rest else some ((b + 1) :: rest)

/-- The least byte string above every byte string that starts with `start`. -/
def successor (start : Bytes) : Option Bytes :=
  (successorRev start.reverse).map List.reverse

end Bytes

/-- A finite map from byte strings, ordered by key. -/
abbrev Table (α : Type) := Std.TreeMap Bytes α

namespace Table

variable {α : Type}

/-- The entries whose keys start with `start`, ascending by key. -/
def under (t : Table α) (start : Bytes) : List (Bytes × α) :=
  match start.successor with
  | some stop => t[start...stop].toList
  | none => t[start...*].toList

/-- The entries whose keys start with `start` and are longer, ascending. -/
def strictlyUnder (t : Table α) (start : Bytes) : List (Bytes × α) :=
  (t.under start).filter fun entry => entry.1 != start

/-- The table without the entries whose keys start with `start` and are longer. -/
def dropStrictlyUnder (t : Table α) (start : Bytes) : Table α :=
  (t.strictlyUnder start).foldl (fun rest entry => rest.erase entry.1) t

end Table
end MerkleSync
