import MerkleSync.Engine.Mutation

/-!
# Sample identifiers and tries

Identifiers with a chosen timestamp and a hash computed from it and a number,
and tries that hold given identifiers.  The identifiers of thirty equal bytes
and the one of a fixed time are small enough to be written out, so facts about
them can be computed.
-/

namespace MerkleSync

/-- An identifier of thirty equal bytes. -/
def constantIdent (b : UInt8) : Ident := ⟨List.replicate identLength b, List.length_replicate⟩

/-- Two of them, out of order and one of them twice. -/
def disordered : List Ident := [constantIdent 1, constantIdent 0, constantIdent 1]

/-- An identifier of the time 1665182340. -/
def recentIdent : Ident :=
  ⟨decimalDigits timestampLength 1665182340 ++ List.replicate hashLength 0, rfl⟩

theorem make_recentIdent : Ident.make 1665182340 (List.replicate 20 0) = .ok recentIdent := rfl

namespace Sample

/-- Three timestamps for examples. -/
def timestamps : List Nat := [1665182332, 1665182343, 1665182345]

/-- The hash part for a timestamp and a number: the digest of both, big-endian. -/
def hash (timestamp n : Nat) : Digest :=
  Digest.of (Bytes.bigEndian 8 timestamp ++ Bytes.bigEndian 4 n)

/-- The sample identifier of a timestamp and a number. -/
def ident (timestamp n : Nat) : Except DataError Ident :=
  Ident.make timestamp (hash timestamp n).bytes

/-- `count` sample identifiers, `step` seconds apart from `start`, numbered from
`first`. -/
def idents (start count step first : Nat) : Except DataError (List Ident) :=
  (List.range count).mapM fun i => ident (start + step * i) (first + i)

/-- A new trie over an empty store that holds the given identifiers. -/
def trie (config : EngineConfig) (ids : List Ident) : Outcome Nat :=
  (Engine.new config).insertAll Store.empty ids

end Sample
end MerkleSync
