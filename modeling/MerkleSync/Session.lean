import MerkleSync.Engine.Mutation
import MerkleSync.Peer

/-!
# Reconciliation sessions

**Input.**  The local trie, a peer, and a path to scope the session to.

**Algorithm.**  The peer's snapshot along the path is compared with the local
one; outside of the part on which they agree both sides hold the same.  From
there on the peer's nodes are visited breadth first.  A node of the same digest
as the local one is left; of a different one the identifiers are fetched if
they are few or the node is a leaf, and otherwise the children that differ are
visited later.  The number of visits is bounded.

**Result.**  The identifiers that the peer holds and the local trie lacks, and
whether both sides hold the same.

The session reads both sides through functions on a state, so nothing is
assumed about what happens between two of its steps.
-/

namespace MerkleSync

/-- The settings of sessions: how many seconds of recent history a session by
time leaves out, up to how many identifiers are fetched at once, how many nodes
are visited, and how many milliseconds an answer may take. -/
structure SyncConfig where
  lag : Nat := 10
  identsPerFetch : Nat := 128
  maxNodes : Nat := 4096
  timeout : Nat := 30000
deriving DecidableEq, Repr

/-- The outcome of a session. -/
structure SyncReport where
  path : Bytes
  divergence : Bytes
  missing : List Ident
  inserted : Nat
  visited : Nat
  inSync : Bool
  truncated : Bool
deriving DecidableEq

/-- What a session reads of the local trie. -/
structure LocalReads (σ : Type) where
  divergence : Bytes → List Digest → StateM σ (Except EngineError Bytes)
  nodeInfo : Bytes → StateM σ (Except EngineError (Option NodeInfo))
  contains : Ident → StateM σ (Except EngineError Bool)

/-- The reads of an engine that does not change. -/
def Engine.reads {σ : Type} (e : Engine) (s : Store) : LocalReads σ where
  divergence path theirs := pure (e.divergence s path theirs)
  nodeInfo path := pure (e.nodeInfo s path)
  contains id := pure (e.contains s id)

/-- A computation of a session on a state. -/
abbrev SessionM (σ : Type) := ExceptT SyncError (StateM σ)

/-- Both sides of a session and its settings. -/
structure Session (σ : Type) where
  near : LocalReads σ
  far : Peer σ
  config : SyncConfig

/-- What the visit of one node gave: whether it differs from the local one, the
identifiers found missing there, and the paths to visit later. -/
structure Visit where
  differs : Bool
  missing : List Ident
  later : List Bytes

/-- What a walk has found so far. -/
structure Progress where
  visited : Nat := 0
  differs : Bool := false
  missing : List Ident := []
  truncated : Bool := false

/-- The progress after a visit. -/
def Progress.add (p : Progress) (v : Visit) : Progress :=
  { p with
    visited := p.visited + 1
    differs := p.differs || v.differs
    missing := v.missing ++ p.missing }

/-- The paths of the peer's children that are absent or different locally. -/
def differingChildren (path : Bytes) (ours : Option NodeInfo) (theirs : NodeInfo) : List Bytes :=
  (theirs.children.entries.filter fun child =>
      match ours.bind (·.children.get? child.1) with
      | none => true
      | some summary => summary.digest != child.2.digest).map
    fun child => path ++ [child.1]

namespace Session

variable {σ : Type}

/-- Reads the local trie. -/
def look {α : Type} (read : StateM σ (Except EngineError α)) : SessionM σ α :=
  ExceptT.mk do return (← read).mapError .engine

/-- Asks the peer and waits for the answer, up to the time limit. -/
def ask {α : Type} (limit : Nat) (what : String) (request : StateM σ (Reply α)) : SessionM σ α :=
  ExceptT.mk do
    match (← request).within? limit with
    | some result => return result
    | none => return .error (.timeout ("waiting for peer " ++ what))

variable (ss : Session σ)

/-- Up to how many identifiers are fetched outright. -/
def fetchLimit : Nat := min ss.config.identsPerFetch Limit.idents

/-- Those of some identifiers that the local trie lacks, in front of `found`. -/
def lacking (found ids : List Ident) : SessionM σ (List Ident) :=
  ids.foldlM (fun found id => do
    if ← look (ss.near.contains id) then return found else return id :: found) found

/-- Visits the peer's node at `path`. -/
def visit (path : Bytes) : SessionM σ Visit := do
  let ours ← look (ss.near.nodeInfo path)
  match ← ask ss.config.timeout "metadata" (ss.far.nodeInfo path) with
  | none => return ⟨ours.isSome, [], []⟩
  | some theirs =>
    if ours.map (·.digest) = some theirs.digest then return ⟨false, [], []⟩
    else if theirs.itemCount.toNat ≤ ss.fetchLimit ∨ path.length = identLength then
      let ids ← ask ss.config.timeout "sync ids" (ss.far.idents path)
      return ⟨true, ← ss.lacking [] ids, []⟩
    else return ⟨true, [], differingChildren path ours theirs⟩

/-- Visits the queued paths and those found on the way, at most `budget`. -/
def walk : (budget : Nat) → (queue : List Bytes) → Progress → SessionM σ Progress
  | _, [], p => return p
  | 0, _ :: _, p => return { p with truncated := true }
  | budget + 1, path :: queue, p => do
    let v ← ss.visit path
    walk budget (queue ++ v.later) (p.add v)

/-- Finds what the peer holds and the local trie lacks, starting from where
their snapshots along `path` part.  Nothing is changed. -/
def run (path : Bytes) : SessionM σ SyncReport := do
  let theirs ← ask ss.config.timeout "snapshot" (ss.far.snapshot path)
  let divergence ← look (ss.near.divergence path theirs.siblings)
  let p ← ss.walk ss.config.maxNodes [divergence] {}
  return {
    path := path
    divergence := divergence
    missing := Ident.dropRepeats (Ident.sort p.missing)
    inserted := 0
    visited := p.visited
    inSync := !p.differs && !p.truncated
    truncated := p.truncated }

/-- A session scoped to the time `now` less the lag. -/
def runAt (now : Nat) : SessionM σ SyncReport := do
  match timestampDigits (now - ss.config.lag) with
  | .error cause => throw (.data cause)
  | .ok path => ss.run path

end Session

/-- What a pull leaves behind. -/
structure Pulled (σ : Type) where
  result : Except SyncError SyncReport
  engine : Engine
  store : Store
  state : σ

namespace Engine

variable {σ : Type} (e : Engine) (s : Store)

/-- The session of an engine with a peer. -/
def session (far : Peer σ) (config : SyncConfig) : Session σ := ⟨e.reads s, far, config⟩

/-- Runs a session to its end and inserts what it found missing. -/
def insertMissing (session : SessionM σ SyncReport) (state : σ) : Pulled σ :=
  match (ExceptT.run session).run state with
  | (.error cause, state) => ⟨.error cause, e, s, state⟩
  | (.ok report, state) =>
    let outcome := e.insertAll s report.missing
    let result := match outcome.result with
      | .error cause => .error (.engine cause)
      | .ok inserted => .ok { report with inserted := inserted }
    ⟨result, outcome.engine, outcome.store, state⟩

/-- Copies what a peer holds and this trie lacks. -/
def pull (far : Peer σ) (config : SyncConfig) (path : Bytes) (state : σ) : Pulled σ :=
  e.insertMissing s ((e.session s far config).run path) state

/-- A pull scoped to the time `now` less the lag. -/
def pullAt (far : Peer σ) (config : SyncConfig) (now : Nat) (state : σ) : Pulled σ :=
  e.insertMissing s ((e.session s far config).runAt now) state

end Engine
end MerkleSync
