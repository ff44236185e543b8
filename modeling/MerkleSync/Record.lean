import MerkleSync.ByteMap
import MerkleSync.Ident

/-!
# Node records

A record is what is stored about one node of the trie: its digest, the number
of identifiers below it, for a leaf the identifier, and for every child its
byte with the child's digest and count.  So a node can be rebuilt without
reading its grandchildren, and a child can be checked against its parent.

Counts are 64-bit words and are added modulo `2 ^ 64`.
-/

namespace MerkleSync

/-- What a parent knows about a child. -/
structure Summary where
  digest : Digest
  itemCount : UInt64
deriving DecidableEq

/-- One node of the trie. -/
structure Record where
  digest : Digest
  itemCount : UInt64
  key : Option Ident
  children : ByteMap Summary
deriving DecidableEq

/-- The digest of a list of children. -/
def childrenDigest (children : ByteMap Summary) : Digest :=
  Digest.combine (children.values.map (·.digest))

/-- The number of identifiers below a list of children. -/
def childrenCount (children : ByteMap Summary) : UInt64 :=
  children.values.foldl (fun n child => n + child.itemCount) 0

namespace Record

/-- The record of a node that holds nothing. -/
def empty : Record := ⟨Digest.empty, 0, none, ByteMap.empty⟩

instance : Inhabited Record := ⟨empty⟩

/-- The record of a leaf. -/
def leaf (id : Ident) : Record := ⟨id.digest, 1, some id, ByteMap.empty⟩

/-- The record of an internal node, its digest and count those of its children. -/
def ofChildren (children : ByteMap Summary) : Record :=
  ⟨childrenDigest children, childrenCount children, none, children⟩

/-- Whether the record holds an identifier. -/
def isLeaf (r : Record) : Bool := r.key.isSome

/-- Whether the record holds neither an identifier nor children. -/
def isEmpty (r : Record) : Bool := r.key.isNone && r.children.isEmpty

/-- The record as its parent sees it. -/
def summary (r : Record) : Summary := ⟨r.digest, r.itemCount⟩

/-- The digest of all children except the one at `b`. -/
def digestExcept (r : Record) (b : UInt8) : Digest :=
  childrenDigest (r.children.erase b)

/-- The first reason why a record cannot stand `depth` bytes below the root.
Digests of children are not recomputed; a leaf's digest is. -/
def shapeFault (r : Record) (depth : Nat) : Option RecordFault :=
  if identLength < depth then some (.belowLeafDepth depth)
  else if depth = identLength then
    match r.key with
    | none => some .leafWithoutKey
    | some key =>
      if !r.children.isEmpty then some .leafWithChildren
      else if r.itemCount ≠ 1 then some (.leafCount r.itemCount)
      else if r.digest ≠ key.digest then some .leafDigest
      else none
  else if r.key.isSome then some (.internalKey depth)
  else if r.children.isEmpty then some (.internalChildless depth)
  else if childrenCount r.children ≠ r.itemCount then
    some (.countMismatch r.itemCount (childrenCount r.children))
  else none

/-- Accepts a record whose shape is that of a node at `depth`. -/
def checkShape (r : Record) (depth : Nat) : Except DataError Unit :=
  match r.shapeFault depth with
  | none => .ok ()
  | some fault => .error (.malformedRecord fault)

end Record

/-- The answer to a question about one node: its path, what it holds, and the
summaries of its children. -/
structure NodeInfo where
  path : Bytes
  itemCount : UInt64
  digest : Digest
  children : ByteMap Summary
deriving DecidableEq

/-- The trie along one path: for each byte of `path` the digest of all other
children of the node before it, and the count at the end of the walk. -/
structure Snapshot where
  path : Bytes
  siblings : List Digest
  itemCount : UInt64
deriving DecidableEq, Inhabited

end MerkleSync
