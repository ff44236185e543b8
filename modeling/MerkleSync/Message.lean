import MerkleSync.Record

/-!
# Messages

A replica asks another one question at a time, about one path, and gets one
answer.  Both directions are bounded by limits on the length of paths and lists
and on the size of the encoded message.
-/

namespace MerkleSync

/-- The version of the exchange. -/
def exchangeVersion : Nat := 0

namespace Limit

/-- The longest path that may be asked about or described. -/
def path : Nat := identLength
/-- The most digests in a snapshot. -/
def siblings : Nat := identLength
/-- The most children in the description of a node. -/
def children : Nat := 256
/-- The most identifiers in one answer. -/
def idents : Nat := 1024
/-- The most bytes of an encoded message. -/
def encoded : Nat := 1024 * 1024

end Limit

/-- What is asked about a path: the snapshot along it, the description of the
node there, or the identifiers below it. -/
inductive Question where
  | snapshot
  | nodeInfo
  | idents
deriving DecidableEq, Repr

/-- A question about a path. -/
structure Request where
  question : Question
  path : Bytes
deriving DecidableEq, Repr

/-- An answer.  A node that does not exist has no description. -/
inductive Response where
  | snapshot (snap : Snapshot)
  | nodeInfo (info : Option NodeInfo)
  | idents (ids : List Ident)
  | error (code : ErrorCode) (text : String)
deriving DecidableEq

/-- The limit that a request breaks. -/
def Request.brokenLimit (r : Request) : Option String :=
  if Limit.path < r.path.length then some "prefix too long" else none

/-- The first limit that a response breaks. -/
def Response.brokenLimit : Response → Option String
  | .snapshot snap =>
    if Limit.siblings < snap.siblings.length then some "too many excluded hashes"
    else if Limit.path < snap.path.length then some "snapshot prefix too long"
    else none
  | .nodeInfo (some info) =>
    if Limit.path < info.path.length then some "metadata prefix too long"
    else if Limit.children < info.children.size then some "too many children"
    else none
  | .idents ids => if Limit.idents < ids.length then some "too many sync ids" else none
  | .nodeInfo none | .error _ _ => none

end MerkleSync
