import MerkleSync.Store.Nodes

/-!
# The trie engine: its state

An engine keeps part of a trie in memory.  The root is always there; of the
other nodes, those that were needed are there by their paths, and the rest is
known only by the summaries in their parents' records.  The nodes in memory
are closed under parents, and a node's summary is the one its parent has of it.

**Loading.**  A node that is not in memory is read from the store and has to
agree with the summary of its parent.
-/

namespace MerkleSync

/-- The settings of an engine: the namespace of its records, and after how many
mutations it forgets all nodes below the root (`none` for never). -/
structure EngineConfig where
  ns : UInt8 := defaultNamespace
  unloadThreshold : Option Nat := some 10000
deriving DecidableEq, Repr

/-- The nodes in memory: the root, and others by their paths. -/
structure View where
  root : Record := Record.empty
  loaded : Table Record := ∅

namespace View

/-- The view of an empty trie. -/
def empty : View := {}

instance : Inhabited View := ⟨empty⟩

/-- The node at `path`, if it is in memory. -/
def get? (v : View) (path : Bytes) : Option Record :=
  if path.isEmpty then some v.root else v.loaded[path]?

/-- The view with `r` for the node at `path`; one that holds nothing is kept
only at the root. -/
def set (v : View) (path : Bytes) (r : Record) : View :=
  if path.isEmpty then { v with root := r }
  else if r.isEmpty then { v with loaded := v.loaded.erase path }
  else { v with loaded := v.loaded.insert path r }

/-- The root alone. -/
def unloaded (v : View) : View := { v with loaded := ∅ }

end View

/-- A trie engine.  `mutations` counts the successful ones since nodes were
last forgotten automatically. -/
structure Engine where
  config : EngineConfig := {}
  view : View := {}
  mutations : Nat := 0

/-- What an operation that may change an engine and its store leaves behind. -/
structure Outcome (α : Type) where
  result : Except EngineError α
  engine : Engine
  store : Store

namespace Engine

/-- The engine whose view is that of an empty trie, whatever the store holds. -/
def new (config : EngineConfig) : Engine := { config := config }

/-- The digest of the whole trie. -/
def rootDigest (e : Engine) : Digest := e.view.root.digest

/-- The number of identifiers. -/
def itemCount (e : Engine) : UInt64 := e.view.root.itemCount

/-- The number of nodes in memory, without the root. -/
def loadedCount (e : Engine) : Nat := e.view.loaded.size

/-- The number of records in the engine's namespace. -/
def storedCount (e : Engine) (s : Store) : Except EngineError Nat :=
  (s.countNodes e.config.ns).mapError EngineError.ofStore

/-- Rebuilds the view from the stored root; without one the trie is empty.  A
root that cannot be read leaves the engine as it was. -/
def reload (e : Engine) (s : Store) : Except EngineError Engine :=
  match s.loadNode e.config.ns [] with
  | .error cause => .error (.ofStore cause)
  | .ok root => .ok { e with view := ⟨root.getD Record.empty, ∅⟩, mutations := 0 }

/-- An engine for what the store holds. -/
def openOn (config : EngineConfig) (s : Store) : Except EngineError Engine :=
  (new config).reload s

/-- Reads the node at `path` from the store; its parent has `summary` of it. -/
def loadChild (ns : UInt8) (s : Store) (path : Bytes) (summary : Summary) :
    Except EngineError Record :=
  match s.loadNode ns path with
  | .error cause => .error (.ofStore cause)
  | .ok none => .error (.missingNode path.toHex)
  | .ok (some r) =>
    if r.summary = summary then .ok r
    else .error (.malformedRecord (path.toHex ++ ": record does not match parent summary"))

/-- Forgets all nodes below the one at `path`, and says how many children of it
were in memory. -/
def unloadUnder (e : Engine) (path : Bytes) : Nat × Engine :=
  match e.view.get? path with
  | none => (0, e)
  | some r =>
    let children := r.children.entries.filter fun child =>
      (e.view.get? (path ++ [child.1])).isSome
    (children.length,
      { e with view := { e.view with loaded := e.view.loaded.dropStrictlyUnder path } })

end Engine
end MerkleSync
