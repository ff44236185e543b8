import MerkleSync.Bytes

/-!
# BLAKE3

The unkeyed BLAKE3 hash function with its default output of eight words.

**Input.**  A byte string.  It is cut into chunks of 1024 bytes (one empty
chunk for the empty string) and each chunk into blocks of 64 bytes.

**Algorithm.**  The state of the compression function is kept as four rows of
four words.  A round mixes the four columns at once, as operations on whole
rows, then turns the rows so that the diagonals become columns and mixes
again.  Chunks are joined two by two into parents, level by level; an odd one
at the end of a level moves up as it is, so that the left part of every parent
is a full tree.  The compression of a node is delayed until it is known
whether the node is the root.
-/

namespace MerkleSync
namespace Blake3

/-- Four words. -/
structure Row where
  a : UInt32
  b : UInt32
  c : UInt32
  d : UInt32
deriving DecidableEq

namespace Row

/-- Word by word addition modulo `2 ^ 32`. -/
def add (x y : Row) : Row := ⟨x.a + y.a, x.b + y.b, x.c + y.c, x.d + y.d⟩

/-- Word by word exclusive or. -/
def xor (x y : Row) : Row := ⟨x.a ^^^ y.a, x.b ^^^ y.b, x.c ^^^ y.c, x.d ^^^ y.d⟩

/-- Each word turned right by `n` bits, `0 < n < 32`. -/
def rotateBits (n : UInt32) (x : Row) : Row :=
  let turn (w : UInt32) := (w >>> n) ||| (w <<< (32 - n))
  ⟨turn x.a, turn x.b, turn x.c, turn x.d⟩

/-- The words moved one place to the left. -/
def rotate (x : Row) : Row := ⟨x.b, x.c, x.d, x.a⟩

end Row

/-- The sixteen words of a message block, in reading order. -/
structure Block where
  p : Row
  q : Row
  r : Row
  s : Row

/-- The order in which the next round takes the message words. -/
def Block.permute (m : Block) : Block where
  p := ⟨m.p.c, m.q.c, m.p.d, m.r.c⟩
  q := ⟨m.q.d, m.p.a, m.q.a, m.s.b⟩
  r := ⟨m.p.b, m.r.d, m.s.a, m.q.b⟩
  s := ⟨m.r.b, m.s.c, m.s.d, m.r.a⟩

/-- The working state of the compression function. -/
structure State where
  r0 : Row
  r1 : Row
  r2 : Row
  r3 : Row

namespace State

/-- Mixes the four columns with two message words each. -/
def mix (s : State) (x y : Row) : State :=
  let r0 := (s.r0.add s.r1).add x
  let r3 := (s.r3.xor r0).rotateBits 16
  let r2 := s.r2.add r3
  let r1 := (s.r1.xor r2).rotateBits 12
  let r0 := (r0.add r1).add y
  let r3 := (r3.xor r0).rotateBits 8
  let r2 := r2.add r3
  let r1 := (r1.xor r2).rotateBits 7
  ⟨r0, r1, r2, r3⟩

/-- Turns the rows so that the diagonals become the columns. -/
def toDiagonals (s : State) : State :=
  ⟨s.r0, s.r1.rotate, s.r2.rotate.rotate, s.r3.rotate.rotate.rotate⟩

/-- Turns the rows back. -/
def toColumns (s : State) : State :=
  ⟨s.r0, s.r1.rotate.rotate.rotate, s.r2.rotate.rotate, s.r3.rotate⟩

/-- One round: the columns take the first half of the block, the diagonals the
second. -/
def round (s : State) (m : Block) : State :=
  let s := s.mix ⟨m.p.a, m.p.c, m.q.a, m.q.c⟩ ⟨m.p.b, m.p.d, m.q.b, m.q.d⟩
  (s.toDiagonals.mix ⟨m.r.a, m.r.c, m.s.a, m.s.c⟩ ⟨m.r.b, m.r.d, m.s.b, m.s.d⟩).toColumns

/-- Several rounds, the block permuted between them. -/
def rounds : Nat → State → Block → State
  | 0, s, _ => s
  | n + 1, s, m => rounds n (s.round m) m.permute

end State

/-- Eight words: a chaining value, or the default output. -/
structure Words where
  lo : Row
  hi : Row
deriving DecidableEq

/-- The words every chunk and every parent starts from. -/
def initial : Words where
  lo := ⟨0x6A09E667, 0xBB67AE85, 0x3C6EF372, 0xA54FF53A⟩
  hi := ⟨0x510E527F, 0x9B05688C, 0x1F83D9AB, 0x5BE0CD19⟩

/-- The compression function, without the second half of its output. -/
def compress (chain : Words) (m : Block) (counter : UInt64) (size flags : UInt32) : Words :=
  let s := State.rounds 7
    ⟨chain.lo, chain.hi, initial.lo,
      ⟨counter.toUInt32, (counter >>> 32).toUInt32, size, flags⟩⟩ m
  ⟨s.r0.xor s.r2, s.r1.xor s.r3⟩

/-- A node whose last compression is still to be done. -/
structure Node where
  chain : Words
  block : Block
  counter : UInt64
  size : UInt32
  flags : UInt32

namespace Node

/-- Marks the first block of a chunk. -/
def chunkStart : UInt32 := 1
/-- Marks the last block of a chunk. -/
def chunkEnd : UInt32 := 2
/-- Marks a block made of two chaining values. -/
def parentFlag : UInt32 := 4
/-- Marks the last compression of all. -/
def rootFlag : UInt32 := 8

/-- The chaining value of a node that has a parent. -/
def value (n : Node) : Words := compress n.chain n.block n.counter n.size n.flags

/-- The output of a node that has none. -/
def output (n : Node) : Words := compress n.chain n.block 0 n.size (n.flags ||| rootFlag)

/-- The parent of two nodes. -/
def parent (left right : Node) : Node :=
  let l := left.value
  let r := right.value
  ⟨initial, ⟨l.lo, l.hi, r.lo, r.hi⟩, 0, 64, parentFlag⟩

/-- One level of the tree from the level below it. -/
def joinPairs : List Node → List Node
  | left :: right :: rest => parent left right :: joinPairs rest
  | rest => rest

end Node

/-- The little-endian word at the front of `data`, which is read as if zero
bytes followed it, and the bytes after it. -/
def takeWord : Bytes → UInt32 × Bytes
  | a :: b :: c :: d :: rest =>
    (a.toUInt32 ||| (b.toUInt32 <<< 8) ||| (c.toUInt32 <<< 16) ||| (d.toUInt32 <<< 24), rest)
  | [a, b, c] => (a.toUInt32 ||| (b.toUInt32 <<< 8) ||| (c.toUInt32 <<< 16), [])
  | [a, b] => (a.toUInt32 ||| (b.toUInt32 <<< 8), [])
  | [a] => (a.toUInt32, [])
  | [] => (0, [])

/-- Four words from the front of `data`, and the bytes after them. -/
def takeRow (data : Bytes) : Row × Bytes :=
  let (a, data) := takeWord data
  let (b, data) := takeWord data
  let (c, data) := takeWord data
  let (d, data) := takeWord data
  (⟨a, b, c, d⟩, data)

/-- The block of at most 64 bytes, filled up with zero bytes. -/
def Block.ofBytes (data : Bytes) : Block :=
  let (p, data) := takeRow data
  let (q, data) := takeRow data
  let (r, data) := takeRow data
  ⟨p, q, r, (takeRow data).1⟩

/-- The node of the blocks of a chunk that are left, from the chaining value
so far; `start` is the start flag as long as no block was taken. -/
def chunkNode (counter : UInt64) : (chain : Words) → (start : UInt32) → List Bytes → Node
  | chain, start, [] => ⟨chain, Block.ofBytes [], counter, 0, start ||| Node.chunkEnd⟩
  | chain, start, [last] =>
    ⟨chain, Block.ofBytes last, counter, UInt32.ofNat last.length, start ||| Node.chunkEnd⟩
  | chain, start, block :: rest =>
    chunkNode counter (compress chain (Block.ofBytes block) counter 64 start) 0 rest

/-- `data` cut into pieces of `size` bytes, the last of which may be shorter
but is empty only if `data` is. -/
def cut (size : Nat) (data : Bytes) : List Bytes :=
  Bytes.pieces size (max 1 ((data.length + size - 1) / size)) data

/-- The chunks of `data`, in order. -/
def chunks (data : Bytes) : List Node :=
  (cut 1024 data).zipIdx.map fun chunk =>
    chunkNode (UInt64.ofNat chunk.2) initial Node.chunkStart (cut 64 chunk.1)

/-- The root above a level of nodes: as many joins as there are nodes are more
than enough to be left with one. -/
def root (level : List Node) : List Node :=
  level.foldl (fun nodes _ => Node.joinPairs nodes) level

/-- The default output for `data`. -/
def hash (data : Bytes) : Words :=
  match root (chunks data) with
  | node :: _ => node.output
  | [] => initial

/-- The bytes of a word, least significant first. -/
def wordBytes (w : UInt32) : Bytes :=
  [w.toUInt8, (w >>> 8).toUInt8, (w >>> 16).toUInt8, (w >>> 24).toUInt8]

end Blake3
end MerkleSync
