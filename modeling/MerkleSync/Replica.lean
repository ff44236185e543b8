import MerkleSync.Engine.Integrity
import MerkleSync.Session

/-!
# Replicas

A replica is a trie together with the settings it is reconciled with.  Its
errors say at which layer they arose.
-/

namespace MerkleSync

/-- The settings of a replica. -/
structure ReplicaConfig where
  trie : EngineConfig := {}
  sync : SyncConfig := {}
deriving DecidableEq, Repr

/-- A trie with its settings. -/
structure Replica where
  engine : Engine
  config : ReplicaConfig

namespace Replica

/-- The replica of what a store holds. -/
def openOn (config : ReplicaConfig) (s : Store) : Except ReplicaError Replica :=
  match Engine.openOn config.trie s with
  | .error cause => .error (.engine cause)
  | .ok e => .ok ⟨e, config⟩

variable {σ : Type} (r : Replica) (s : Store)

/-- Adds identifiers and counts those that were new. -/
def insertAll (ids : List Ident) : Except ReplicaError Nat × Replica × Store :=
  let outcome := r.engine.insertAll s ids
  (outcome.result.mapError .engine, { r with engine := outcome.engine }, outcome.store)

/-- Finds what a peer holds under `path` that this replica lacks. -/
def diffWith (far : Peer σ) (path : Bytes) (state : σ) : Except ReplicaError SyncReport × σ :=
  let (result, state) :=
    (ExceptT.run ((r.engine.session s far r.config.sync).run path)).run state
  (result.mapError .sync, state)

/-- Copies what a peer holds under `path` that this replica lacks. -/
def pullFrom (far : Peer σ) (path : Bytes) (state : σ) :
    Except ReplicaError SyncReport × Replica × Store × σ :=
  let pulled := r.engine.pull s far r.config.sync path state
  (pulled.result.mapError .sync, { r with engine := pulled.engine }, pulled.store, pulled.state)

/-- A pull scoped to the time `now` less the lag. -/
def pullAt (far : Peer σ) (now : Nat) (state : σ) :
    Except ReplicaError SyncReport × Replica × Store × σ :=
  let pulled := r.engine.pullAt s far r.config.sync now state
  (pulled.result.mapError .sync, { r with engine := pulled.engine }, pulled.store, pulled.state)

end Replica
end MerkleSync
