import MerkleSync.Message
import MerkleSync.Cbor.Expected

/-!
# Encoded messages

A message is a map of one entry from the name of its kind to its content.
Structures are maps from field names, in a fixed order when written and in any
when read; paths, digests and identifiers are arrays of small integers; the
children of a node are a map from bytes.

**Reading.**  Every field has to be there once; unknown fields are passed over.
The content of a request, and of an error, may also be an array of the fields
in their order.
-/

namespace MerkleSync

open Cbor (Reader)

namespace Name

/-- Names of the kinds of messages and of their fields. -/
def getSnapshot : Bytes := .ofText "GetSnapshot"
@[inherit_doc getSnapshot] def getMetadata : Bytes := .ofText "GetMetadata"
@[inherit_doc getSnapshot] def getSyncIds : Bytes := .ofText "GetSyncIds"
@[inherit_doc getSnapshot] def snapshot : Bytes := .ofText "Snapshot"
@[inherit_doc getSnapshot] def metadata : Bytes := .ofText "Metadata"
@[inherit_doc getSnapshot] def syncIds : Bytes := .ofText "SyncIds"
@[inherit_doc getSnapshot] def error : Bytes := .ofText "Error"
@[inherit_doc getSnapshot] def path : Bytes := .ofText "prefix"
@[inherit_doc getSnapshot] def excludedHashes : Bytes := .ofText "excluded_hashes"
@[inherit_doc getSnapshot] def itemCount : Bytes := .ofText "item_count"
@[inherit_doc getSnapshot] def hash : Bytes := .ofText "hash"
@[inherit_doc getSnapshot] def children : Bytes := .ofText "children"
@[inherit_doc getSnapshot] def code : Bytes := .ofText "code"
@[inherit_doc getSnapshot] def message : Bytes := .ofText "message"

end Name

/-- The name of the message that asks a question. -/
def Question.name : Question → Bytes
  | .snapshot => Name.getSnapshot
  | .nodeInfo => Name.getMetadata
  | .idents => Name.getSyncIds

/-- The question that a message of some name asks. -/
def Question.ofName? (name : Bytes) : Option Question :=
  if name = Name.getSnapshot then some .snapshot
  else if name = Name.getMetadata then some .nodeInfo
  else if name = Name.getSyncIds then some .idents
  else none

/-- The code of a name. -/
def ErrorCode.ofName? (name : Bytes) : Option ErrorCode :=
  if name = .ofText ErrorCode.invalidRequest.name then some .invalidRequest
  else if name = .ofText ErrorCode.tooLarge.name then some .tooLarge
  else if name = .ofText ErrorCode.internal.name then some .internal
  else none

/-! ## Writing -/

namespace Message

/-- An array of small integers. -/
def writeByteList (data : Bytes) : Bytes :=
  Cbor.writeArray (data.map fun b => Cbor.writeNat b.toNat)

/-- A structure with fields whose values are written already. -/
def writeStruct (fields : List (Bytes × Bytes)) : Bytes :=
  Cbor.writeMap (fields.map fun f => (Cbor.writeText f.1, f.2))

/-- A count. -/
def writeCount (n : UInt64) : Bytes := Cbor.writeNat n.toNat

/-- The summary of a child. -/
def writeSummary (s : Summary) : Bytes :=
  writeStruct [(Name.hash, writeByteList s.digest.bytes), (Name.itemCount, writeCount s.itemCount)]

/-- The map of the children of a node. -/
def writeChildren (children : ByteMap Summary) : Bytes :=
  Cbor.writeMap (children.entries.map fun c => (Cbor.writeNat c.1.toNat, writeSummary c.2))

/-- The description of a node. -/
def writeNodeInfo (info : NodeInfo) : Bytes :=
  writeStruct [(Name.path, writeByteList info.path), (Name.itemCount, writeCount info.itemCount),
    (Name.hash, writeByteList info.digest.bytes), (Name.children, writeChildren info.children)]

/-- A snapshot. -/
def writeSnapshot (snap : Snapshot) : Bytes :=
  writeStruct [(Name.path, writeByteList snap.path),
    (Name.excludedHashes, Cbor.writeArray (snap.siblings.map fun d => writeByteList d.bytes)),
    (Name.itemCount, writeCount snap.itemCount)]

/-- Accepts an encoded message that is not too large. -/
def checkSize (data : Bytes) : Except SyncError Bytes :=
  if Limit.encoded < data.length then
    .error (.invalidMessage ("message of " ++ toString data.length ++ " bytes exceeds limit"))
  else .ok data

end Message

open Message in
/-- The written form of a request. -/
def Request.write (r : Request) : Bytes :=
  writeStruct [(r.question.name, writeStruct [(Name.path, writeByteList r.path)])]

open Message in
/-- The written form of a response. -/
def Response.write : Response → Bytes
  | .snapshot snap => writeStruct [(Name.snapshot, writeSnapshot snap)]
  | .nodeInfo none => writeStruct [(Name.metadata, Cbor.writeNull)]
  | .nodeInfo (some info) => writeStruct [(Name.metadata, writeNodeInfo info)]
  | .idents ids =>
    writeStruct [(Name.syncIds, Cbor.writeArray (ids.map fun id => writeByteList id.bytes))]
  | .error code text =>
    writeStruct [(Name.error, writeStruct [(Name.code, Cbor.writeText (.ofText code.name)),
      (Name.message, Cbor.writeText (.ofText text))])]

/-- Encodes a request. -/
def Request.encode (r : Request) : Except SyncError Bytes := Message.checkSize r.write

/-- Encodes a response. -/
def Response.encode (r : Response) : Except SyncError Bytes := Message.checkSize r.write

/-! ## Reading -/

namespace Message

/-- Twenty bytes. -/
def readDigest : Reader Digest := do
  let data ← Cbor.leadingBytes digestLength
  if h : data.length = digestLength then return ⟨data, h⟩ else failure

/-- Thirty bytes. -/
def readIdent : Reader Ident := do
  let data ← Cbor.leadingBytes identLength
  if h : data.length = identLength then return ⟨data, h⟩ else failure

/-- What was read of a summary. -/
structure SummaryFields where
  digest : Option Digest := none
  itemCount : Option UInt64 := none

/-- Reads one field of a summary; `around` counts the nesting levels around it. -/
def summaryField (around : Nat) (s : SummaryFields) (name : Bytes) : Reader SummaryFields := do
  if name = Name.hash then
    let digest ← Cbor.once s.digest readDigest
    return { s with digest := digest }
  else if name = Name.itemCount then
    let itemCount ← Cbor.once s.itemCount Cbor.word
    return { s with itemCount := itemCount }
  else
    Cbor.skip around
    return s

/-- The summary of a child. -/
def readSummary (around : Nat) : Reader Summary := do
  let s ← Cbor.fields (summaryField (around + 1)) {} (← Cbor.mapLength)
  let (some digest, some itemCount) := (s.digest, s.itemCount) | failure
  return ⟨digest, itemCount⟩

/-- The children of a node; of two entries for one byte the later counts. -/
def readChildren (around : Nat) : Reader (ByteMap Summary) := do
  Cbor.iterate (fun children => do
      let b ← Cbor.byte
      return children.insert b (← readSummary (around + 1)))
    (← Cbor.mapLength) ByteMap.empty

/-- What was read of the description of a node. -/
structure NodeInfoFields where
  path : Option Bytes := none
  itemCount : Option UInt64 := none
  digest : Option Digest := none
  children : Option (ByteMap Summary) := none

/-- Reads one field of the description of a node. -/
def nodeInfoField (around : Nat) (s : NodeInfoFields) (name : Bytes) : Reader NodeInfoFields := do
  if name = Name.path then
    let path ← Cbor.once s.path Cbor.byteList
    return { s with path := path }
  else if name = Name.itemCount then
    let itemCount ← Cbor.once s.itemCount Cbor.word
    return { s with itemCount := itemCount }
  else if name = Name.hash then
    let digest ← Cbor.once s.digest readDigest
    return { s with digest := digest }
  else if name = Name.children then
    let children ← Cbor.once s.children (readChildren around)
    return { s with children := children }
  else
    Cbor.skip around
    return s

/-- The description of a node. -/
def readNodeInfo (around : Nat) : Reader NodeInfo := do
  let s ← Cbor.fields (nodeInfoField (around + 1)) {} (← Cbor.mapLength)
  let (some path, some itemCount, some digest, some children) :=
    (s.path, s.itemCount, s.digest, s.children) | failure
  return ⟨path, itemCount, digest, children⟩

/-- What was read of a snapshot. -/
structure SnapshotFields where
  path : Option Bytes := none
  siblings : Option (List Digest) := none
  itemCount : Option UInt64 := none

/-- Reads one field of a snapshot. -/
def snapshotField (around : Nat) (s : SnapshotFields) (name : Bytes) : Reader SnapshotFields := do
  if name = Name.path then
    let path ← Cbor.once s.path Cbor.byteList
    return { s with path := path }
  else if name = Name.excludedHashes then
    let siblings ← Cbor.once s.siblings (Cbor.list readDigest)
    return { s with siblings := siblings }
  else if name = Name.itemCount then
    let itemCount ← Cbor.once s.itemCount Cbor.word
    return { s with itemCount := itemCount }
  else
    Cbor.skip around
    return s

/-- A snapshot. -/
def readSnapshot (around : Nat) : Reader Snapshot := do
  let s ← Cbor.fields (snapshotField (around + 1)) {} (← Cbor.mapLength)
  let (some path, some siblings, some itemCount) := (s.path, s.siblings, s.itemCount) | failure
  return ⟨path, siblings, itemCount⟩

/-- Reads the field of a request. -/
def requestField (around : Nat) (path : Option Bytes) (name : Bytes) : Reader (Option Bytes) := do
  if name = Name.path then Cbor.once path Cbor.byteList
  else
    Cbor.skip around
    return path

/-- The content of a request: a map, or an array, with the path. -/
def readRequestContent (around : Nat) : Reader Bytes := do
  match ← Cbor.head with
  | .map length =>
    let some path ← Cbor.fields (requestField (around + 1)) none length | failure
    return path
  | .array length => if length = some 0 then failure else Cbor.byteList
  | _ => failure

/-- The name of an error code. -/
def readCode : Reader ErrorCode := do
  let some code := ErrorCode.ofName? (← Cbor.variant) | failure
  return code

/-- Reads one field of an error. -/
def errorField (around : Nat) (s : Option ErrorCode × Option String) (name : Bytes) :
    Reader (Option ErrorCode × Option String) := do
  if name = Name.code then
    let code ← Cbor.once s.1 readCode
    return (code, s.2)
  else if name = Name.message then
    let text ← Cbor.once s.2 Cbor.text
    return (s.1, text)
  else
    Cbor.skip around
    return s

/-- The content of an error: a map, or an array, of a code and a text. -/
def readErrorContent (around : Nat) : Reader Response := do
  match ← Cbor.head with
  | .map length =>
    let (some code, some text) ← Cbor.fields (errorField (around + 1)) (none, none) length
      | failure
    return .error code text
  | .array length =>
    if length.any (· < 2) then failure
    let code ← readCode
    return .error code (← Cbor.text)
  | _ => failure

end Message

open Message in
/-- A request at the front of the input. -/
def Request.read : Reader Request := do
  let some question := Question.ofName? (← Cbor.variant) | failure
  return ⟨question, ← readRequestContent 1⟩

open Message in
/-- A response at the front of the input. -/
def Response.read : Reader Response := do
  let name ← Cbor.variant
  if name = Name.snapshot then return .snapshot (← readSnapshot 1)
  else if name = Name.metadata then return .nodeInfo (← Cbor.optional (readNodeInfo 1))
  else if name = Name.syncIds then return .idents (← Cbor.list readIdent)
  else if name = Name.error then readErrorContent 1
  else failure

namespace Message

/-- Decodes a message of limited size that breaks no limit itself. -/
def decode {α : Type} (read : Reader α) (brokenLimit : α → Option String) (data : Bytes) :
    Except SyncError α :=
  match checkSize data with
  | .error e => .error e
  | .ok data =>
    match read data with
    | none => .error (.encoding undecodableText)
    | some (message, _) =>
      match brokenLimit message with
      | some reason => .error (.invalidMessage reason)
      | none => .ok message

end Message

/-- Decodes a request; what follows it in `data` is ignored. -/
def Request.decode (data : Bytes) : Except SyncError Request :=
  Message.decode Request.read Request.brokenLimit data

/-- Decodes a response; what follows it in `data` is ignored. -/
def Response.decode (data : Bytes) : Except SyncError Response :=
  Message.decode Response.read Response.brokenLimit data

end MerkleSync
