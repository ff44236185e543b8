import MerkleSync.Store
import MerkleSync.Record.Codec

/-!
# Node records in a store

The record of the node at a path is stored under the path with one byte, the
namespace, in front.  Every record that is read is checked for the shape of a
node at its depth.
-/

namespace MerkleSync

/-- The namespace used where none is chosen. -/
def defaultNamespace : UInt8 := 8

/-- The key of the node at `path`. -/
def nodeKey (ns : UInt8) (path : Bytes) : Bytes := ns :: path

/-- Reads the record stored under `key` for a node at `depth`. -/
def readRecord (key : Bytes) (depth : Nat) (value : Bytes) : Except StoreError Record :=
  match Record.decode value with
  | .error e => .error (StoreError.ofData key e)
  | .ok r =>
    match r.checkShape depth with
    | .error e => .error (StoreError.ofData key e)
    | .ok () => .ok r

namespace Store

variable (s : Store) (ns : UInt8)

/-- The record of the node at `path`, if there is one. -/
def loadNode (path : Bytes) : Except StoreError (Option Record) :=
  match s.get? (nodeKey ns path) with
  | .error e => .error e
  | .ok none => .ok none
  | .ok (some value) => (readRecord (nodeKey ns path) path.length value).map some

/-- Reads the entries of a scan as records, each with its path. -/
def readNodes (entries : List (Bytes × Bytes)) : Except StoreError (List (Bytes × Record)) :=
  entries.mapM fun (key, value) =>
    (readRecord key (key.length - 1) value).map fun r => (key.drop 1, r)

/-- Every record at or below `path`, ascending by path. -/
def scanNodes (path : Bytes) : Except StoreError (List (Bytes × Record)) :=
  match s.scan (nodeKey ns path) with
  | .error e => .error e
  | .ok entries => readNodes entries

/-- The identifiers of all leaf records at or below `path`, ascending by path.
Records of internal nodes are not read. -/
def leafIdents (path : Bytes) : Except StoreError (List Ident) :=
  match s.scan (nodeKey ns path) with
  | .error e => .error e
  | .ok entries =>
    (readNodes (entries.filter fun entry => entry.1.length == identLength + 1)).map fun nodes =>
      nodes.filterMap fun node => node.2.key

/-- The number of records in the namespace. -/
def countNodes : Except StoreError Nat := (s.scan [ns]).map List.length

end Store

/-- The change that stores `r` for the node at `path`, or removes the record of
a node that holds nothing. -/
def nodeWrite (ns : UInt8) (path : Bytes) (r : Record) : Write :=
  if r.isEmpty then .delete (nodeKey ns path) else .put (nodeKey ns path) r.encode

end MerkleSync
