import MerkleSync.Error
import MerkleSync.Bytes

/-!
# Stores

A store is an ordered map from byte strings to byte strings with point reads,
scans of all keys with a given beginning, and commits of whole batches.  A
batch is applied entirely or not at all.  Reads and commits can be set to
fail; a failing commit leaves the store as it was.
-/

namespace MerkleSync

/-- One change of a store. -/
inductive Write where
  | put (key value : Bytes)
  | delete (key : Bytes)
deriving DecidableEq, Repr

/-- The key that a change is about. -/
def Write.key : Write → Bytes
  | .put key _ => key
  | .delete key => key

/-- Changes that are made together, in order; of two for one key the later counts. -/
abbrev Batch := List Write

/-- The entries after one change. -/
def Write.apply (entries : Table Bytes) : Write → Table Bytes
  | .put key value => entries.insert key value
  | .delete key => entries.erase key

/-- The entries after a batch. -/
def Batch.apply (batch : Batch) (entries : Table Bytes) : Table Bytes :=
  batch.foldl Write.apply entries

/-- What a store holds, how many batches were committed to it, and which of its
operations fail at present. -/
structure Store where
  entries : Table Bytes := ∅
  commits : Nat := 0
  readsFail : Bool := false
  commitsFail : Bool := false

namespace Store

/-- The store without entries. -/
def empty : Store := {}

instance : Inhabited Store := ⟨empty⟩

/-- The error of a read that was set to fail. -/
def readFailure : StoreError := .task "injected read failure"

/-- The error of a commit that was set to fail. -/
def commitFailure (batch : Batch) : StoreError :=
  .commit ("injected failure (" ++ toString batch.length ++ " ops dropped)")

/-- The value stored under a key. -/
def get? (s : Store) (key : Bytes) : Except StoreError (Option Bytes) :=
  if s.readsFail then .error readFailure else .ok s.entries[key]?

/-- Whether a key is present. -/
def contains (s : Store) (key : Bytes) : Except StoreError Bool :=
  (s.get? key).map Option.isSome

/-- Every entry whose key starts with `start`, ascending by key. -/
def scan (s : Store) (start : Bytes) : Except StoreError (List (Bytes × Bytes)) :=
  if s.readsFail then .error readFailure else .ok (s.entries.under start)

/-- The store after a batch. -/
def commit (s : Store) (batch : Batch) : Except StoreError Store :=
  if s.commitsFail then .error (commitFailure batch)
  else .ok { s with entries := batch.apply s.entries, commits := s.commits + 1 }

/-- The number of entries. -/
def size (s : Store) : Nat := s.entries.size

end Store
end MerkleSync
