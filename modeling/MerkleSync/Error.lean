import MerkleSync.Bytes.Hex

/-!
# Errors

One type of error for each layer: the data itself, the store below it, the
trie engine, the exchange with a peer, and a replica as a whole.  A layer
wraps the errors of the layers below.  `message` gives the text of each error,
the same text that is sent to a peer.
-/

namespace MerkleSync

/-- What is wrong with an encoded node, or with a node at its depth. -/
inductive RecordFault where
  | undecodable
  | notMap
  | missingDigest
  | badDigest
  | missingCount
  | countNotInteger
  | countOutOfRange
  | keyNotBytes
  | keyLength (got : Nat)
  | childrenNotArray
  | childNotTriple
  | childByteNotInteger
  | childByteOutOfRange
  | badChildDigest
  | childCountNotInteger
  | childCountOutOfRange
  | duplicateChild (byte : UInt8)
  | belowLeafDepth (depth : Nat)
  | leafWithoutKey
  | leafWithChildren
  | leafCount (count : UInt64)
  | leafDigest
  | internalKey (depth : Nat)
  | internalChildless (depth : Nat)
  | countMismatch (count total : UInt64)
  | described (text : String)
deriving DecidableEq, Repr

/-- An error in identifiers, timestamps or node records. -/
inductive DataError where
  | invalidLength (what : String) (expected got : Nat)
  | timestampOutOfRange (timestamp : Nat)
  | malformedRecord (fault : RecordFault)
  | encoding (text : String)
deriving DecidableEq, Repr

/-- An error of a store. -/
inductive StoreError where
  | database (text : String)
  | malformedRecord (key reason : String)
  | serialization (text : String)
  | commit (text : String)
  | migration (text : String)
  | task (text : String)
  | io (text : String)
deriving DecidableEq, Repr

/-- An error of the trie engine. -/
inductive EngineError where
  | storage (cause : StoreError)
  | malformedRecord (text : String)
  | missingNode (path : String)
  | notMaterialized (path : String)
  | integrity (path reason : String)
deriving DecidableEq, Repr

/-- What a peer says about a request that it does not answer. -/
inductive ErrorCode where
  | invalidRequest
  | tooLarge
  | internal
deriving DecidableEq, Repr

/-- An error while talking to a peer. -/
inductive SyncError where
  | invalidMessage (text : String)
  | encoding (text : String)
  | transport (text : String)
  | data (cause : DataError)
  | engine (cause : EngineError)
  | peer (code : ErrorCode) (text : String)
  | unexpectedResponse (expected : String)
  | timeout (text : String)
deriving DecidableEq, Repr

/-- An error of a replica. -/
inductive ReplicaError where
  | data (cause : DataError)
  | store (cause : StoreError)
  | engine (cause : EngineError)
  | sync (cause : SyncError)
deriving DecidableEq, Repr

/-- The text for input that is no well-formed CBOR item of the expected kind. -/
def undecodableText : String := "<cbor>"

/-- The text of an error in the length of a byte string. -/
def invalidLengthText (what : String) (expected got : Nat) : String :=
  "invalid " ++ what ++ " length: expected " ++ toString expected ++ ", got " ++ toString got

namespace RecordFault

/-- The text of a fault. -/
def message : RecordFault → String
  | undecodable => undecodableText
  | notMap => "expected map"
  | missingDigest => "missing digest"
  | badDigest => "invalid digest"
  | missingCount => "missing item count"
  | countNotInteger => "item count is not an integer"
  | countOutOfRange => "item count out of range"
  | keyNotBytes => "key is not a byte string"
  | keyLength got => invalidLengthText "sync id" 30 got
  | childrenNotArray => "children is not an array"
  | childNotTriple => "child entry is not a 3-element array"
  | childByteNotInteger => "child byte is not an integer"
  | childByteOutOfRange => "child byte out of range"
  | badChildDigest => "invalid child digest"
  | childCountNotInteger => "child item count is not an integer"
  | childCountOutOfRange => "child item count out of range"
  | duplicateChild byte => "duplicate child " ++ toString byte.toNat
  | belowLeafDepth depth => "record at depth " ++ toString depth ++ " is below leaf depth"
  | leafWithoutKey => "leaf record without key"
  | leafWithChildren => "leaf record with children"
  | leafCount count => "leaf record counts " ++ toString count.toNat ++ " items"
  | leafDigest => "leaf digest does not match key"
  | internalKey depth => "internal record at depth " ++ toString depth ++ " has a key"
  | internalChildless depth =>
    "internal record at depth " ++ toString depth ++ " has no children"
  | countMismatch count total =>
    "item count " ++ toString count.toNat ++ " does not match children total " ++
      toString total.toNat
  | described text => text

end RecordFault

namespace DataError

/-- The text of an error. -/
def message : DataError → String
  | invalidLength what expected got => invalidLengthText what expected got
  | timestampOutOfRange timestamp =>
    "timestamp " ++ toString timestamp ++ " does not fit in the identifier prefix"
  | malformedRecord fault => "malformed node record: " ++ fault.message
  | encoding text => "encoding error: " ++ text

end DataError

namespace StoreError

/-- The text of an error. -/
def message : StoreError → String
  | database text => "database error: " ++ text
  | malformedRecord key reason => "malformed record at " ++ key ++ ": " ++ reason
  | serialization text => "serialization error: " ++ text
  | commit text => "commit failed: " ++ text
  | migration text => "migration error: " ++ text
  | task text => "background task failed: " ++ text
  | io text => "I/O error: " ++ text

/-- The error for a value under `key` that is no record: a fault is named alone,
any other error by its whole text. -/
def ofData (key : Bytes) : DataError → StoreError
  | .malformedRecord fault => malformedRecord key.toHex fault.message
  | error => malformedRecord key.toHex error.message

end StoreError

namespace EngineError

/-- The text of an error. -/
def message : EngineError → String
  | storage cause => "storage failure: " ++ cause.message
  | malformedRecord text => "malformed record: " ++ text
  | missingNode path => "missing node record at " ++ path
  | notMaterialized path => "node at " ++ path ++ " was not materialized"
  | integrity path reason => "integrity violation at " ++ path ++ ": " ++ reason

/-- The engine's view of a store error: a record that cannot be read is no
failure of the store. -/
def ofStore : StoreError → EngineError
  | .malformedRecord key reason => malformedRecord (key ++ ": " ++ reason)
  | error => storage error

/-- Whether the store failed. -/
def isStorage : EngineError → Bool
  | storage _ => true
  | _ => false

end EngineError

/-- The name of a code. -/
def ErrorCode.name : ErrorCode → String
  | .invalidRequest => "InvalidRequest"
  | .tooLarge => "TooLarge"
  | .internal => "Internal"

namespace SyncError

/-- The text of an error. -/
def message : SyncError → String
  | invalidMessage text => "invalid message: " ++ text
  | encoding text => "encoding error: " ++ text
  | transport text => "transport error: " ++ text
  | data cause => "core error: " ++ cause.message
  | engine cause => "trie error: " ++ cause.message
  | peer code text => "peer error (" ++ code.name ++ "): " ++ text
  | unexpectedResponse expected => "unexpected response: expected " ++ expected
  | timeout text => "timeout: " ++ text

end SyncError

namespace ReplicaError

/-- The text of an error. -/
def message : ReplicaError → String
  | data cause => "core error: " ++ cause.message
  | store cause => "storage error: " ++ cause.message
  | engine cause => "trie error: " ++ cause.message
  | sync cause => "sync error: " ++ cause.message

/-- Whether a store failed, at any layer. -/
def isStorage : ReplicaError → Bool
  | store _ => true
  | engine cause | sync (.engine cause) => cause.isStorage
  | _ => false

end ReplicaError
end MerkleSync
