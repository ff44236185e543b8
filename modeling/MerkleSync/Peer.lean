import MerkleSync.Engine.Query
import MerkleSync.Message.Codec

/-!
# Peers

A peer answers three questions about its trie.  An engine is a peer; a replica
at the other end of a transport is another, with every request and every
response encoded on the way.  What peers and transports depend on, and change
by being asked, is a state of an arbitrary type.
-/

namespace MerkleSync

/-- An answer that is there at once, has to be waited for some milliseconds, or
never comes.  One that has to be waited for may still come before the first
millisecond is over. -/
inductive Reply (α : Type) where
  | now (result : Except SyncError α)
  | after (delay : Nat) (result : Except SyncError α)
  | never

namespace Reply

/-- The answer with its content examined further. -/
def check {α β : Type} (f : α → Except SyncError β) : Reply α → Reply β
  | now result => now (result.bind f)
  | after delay result => after delay (result.bind f)
  | never => never

/-- The answer to someone who waits for any time. -/
def result? {α : Type} : Reply α → Option (Except SyncError α)
  | now result | after _ result => some result
  | never => none

/-- The answer to someone who waits up to `limit` milliseconds.  Without any time
to wait only an answer that is there at once is received. -/
def within? {α : Type} (limit : Nat) : Reply α → Option (Except SyncError α)
  | now result => some result
  | after delay result => if 0 < limit ∧ delay ≤ limit then some result else none
  | never => none

end Reply

/-- The questions that a session asks the other side. -/
structure Peer (σ : Type) where
  snapshot : Bytes → StateM σ (Reply Snapshot)
  nodeInfo : Bytes → StateM σ (Reply (Option NodeInfo))
  idents : Bytes → StateM σ (Reply (List Ident))

/-- The way of a request to another replica and of its response back. -/
abbrev Transport (σ : Type) := Request → StateM σ (Reply Response)

/-! ## Answering -/

namespace Engine

variable (e : Engine) (s : Store)

/-- The answer to a request: failures are reported in the response. -/
def answer (r : Request) : Response :=
  match r.brokenLimit with
  | some reason => .error .invalidRequest reason
  | none =>
    match r.question with
    | .snapshot =>
      match e.snapshot s r.path with
      | .ok snap => .snapshot snap
      | .error cause => .error .internal cause.message
    | .nodeInfo =>
      match e.nodeInfo s r.path with
      | .ok info => .nodeInfo info
      | .error cause => .error .internal cause.message
    | .idents =>
      match e.idents s r.path with
      | .ok ids =>
        if Limit.idents < ids.length then
          .error .tooLarge (toString ids.length ++ " identifiers under prefix")
        else .idents ids
      | .error cause => .error .internal cause.message

/-- The encoded answer to an encoded request.  A request that cannot be decoded
and an answer that is too large are answered by an error; nothing is answered
if even that is too large. -/
def serve (data : Bytes) : Option Bytes :=
  let response := match Request.decode data with
    | .ok r => e.answer s r
    | .error cause => .error .invalidRequest cause.message
  match response.encode with
  | .ok bytes => some bytes
  | .error cause =>
    match (Response.error .tooLarge cause.message).encode with
    | .ok bytes => some bytes
    | .error _ => none

/-- An engine as a peer, asked directly. -/
def asPeer {σ : Type} : Peer σ where
  snapshot path := pure (.now ((e.snapshot s path).mapError .engine))
  nodeInfo path := pure (.now ((e.nodeInfo s path).mapError .engine))
  idents path := pure (.now ((e.idents s path).mapError .engine))

/-- The answer to a query where reads of the store have to be waited for, except
those that fail: it is there at once if it needs none. -/
def replyAfterReads {α : Type} (query : Store → Except EngineError α) : Reply α :=
  let result := (query s).mapError SyncError.engine
  match query { s with readsFail := true } with
  | .error (.storage _) => if s.readsFail then .now result else .after 0 result
  | _ => .now result

/-- An engine on a store whose reads have to be waited for as a peer, asked
directly. -/
def asWaitingPeer {σ : Type} : Peer σ where
  snapshot path := pure (replyAfterReads s fun s => e.snapshot s path)
  nodeInfo path := pure (replyAfterReads s fun s => e.nodeInfo s path)
  idents path := pure (replyAfterReads s fun s => e.idents s path)

end Engine

/-! ## Transports -/

namespace Transport

variable {σ : Type}

/-- A connection to a server that answers encoded requests one after another.
Its answers have to be waited for, if only until it is its turn. -/
def toServer (server : Bytes → Option Bytes) : Transport σ := fun r =>
  pure <|
    match r.encode with
    | .error cause => .now (.error cause)
    | .ok data =>
      match server data with
      | none => .after 0 (.error (.transport "peer dropped request"))
      | some bytes => .after 0 (Response.decode bytes)

/-- A connection whose server is gone. -/
def disconnected : Transport σ := fun r =>
  pure <| .now <|
    match r.encode with
    | .error cause => .error cause
    | .ok _ => .error (.transport "peer disconnected")

/-- A transport that gives prepared replies, whatever it is asked. -/
def scripted : Transport (List (Reply Response)) := fun _ => do
  match ← get with
  | [] => return .now (.error (.transport "script exhausted"))
  | reply :: rest =>
    set rest
    return reply

/-- A transport that also keeps the requests, the last one first. -/
def recorded (t : Transport σ) : Transport (List Request × σ) := fun r => do
  let (done, state) ← get
  let (reply, state) := (t r).run state
  set (r :: done, state)
  return reply

end Transport

namespace Response

/-- The content of a response to a request for a snapshot. -/
def toSnapshot : Response → Except SyncError Snapshot
  | snapshot snap => .ok snap
  | error code text => .error (.peer code text)
  | _ => .error (.unexpectedResponse "snapshot")

/-- The content of a response to a request for the description of a node. -/
def toNodeInfo : Response → Except SyncError (Option NodeInfo)
  | nodeInfo info => .ok info
  | error code text => .error (.peer code text)
  | _ => .error (.unexpectedResponse "metadata")

/-- The content of a response to a request for identifiers. -/
def toIdents : Response → Except SyncError (List Ident)
  | idents ids => .ok ids
  | error code text => .error (.peer code text)
  | _ => .error (.unexpectedResponse "sync ids")

end Response

/-- The replica at the other end of a transport. -/
def Peer.over {σ : Type} (t : Transport σ) : Peer σ where
  snapshot path := do return (← t ⟨.snapshot, path⟩).check Response.toSnapshot
  nodeInfo path := do return (← t ⟨.nodeInfo, path⟩).check Response.toNodeInfo
  idents path := do return (← t ⟨.idents, path⟩).check Response.toIdents

end MerkleSync
