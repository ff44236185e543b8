import MerkleSync.Engine

/-!
# Reading the trie

Queries follow a path from the root.  Nodes in memory are used as they are;
others are read for the query alone and not kept, so a query changes nothing.
Listing the identifiers below a path takes those of the leaves in memory and
scans the store for every child that is not in memory.
-/

namespace MerkleSync
namespace Engine

variable (e : Engine) (s : Store)

/-- The child at `b` of the node `r` at `path`, if it has one. -/
def child (path : Bytes) (r : Record) (b : UInt8) : Except EngineError (Option Record) :=
  match r.children.get? b with
  | none => .ok none
  | some summary =>
    match e.view.get? (path ++ [b]) with
    | some r => .ok (some r)
    | none => (loadChild e.config.ns s (path ++ [b]) summary).map some

/-- The node reached from the node `r` at `path` by further bytes. -/
def descend : (path : Bytes) → (r : Record) → (rest : Bytes) → Except EngineError (Option Record)
  | _, r, [] => .ok (some r)
  | path, r, b :: rest =>
    match e.child s path r b with
    | .error cause => .error cause
    | .ok none => .ok none
    | .ok (some next) => descend (path ++ [b]) next rest

/-- The node at `path`. -/
def node (path : Bytes) : Except EngineError (Option Record) := e.descend s [] e.view.root path

/-- Whether an identifier is stored. -/
def contains (id : Ident) : Except EngineError Bool :=
  (e.node s id.bytes).map fun r => (r.bind (·.key)) == some id

/-- The description of the node at `path`. -/
def nodeInfo (path : Bytes) : Except EngineError (Option NodeInfo) :=
  (e.node s path).map fun r => r.map fun r => ⟨path, r.itemCount, r.digest, r.children⟩

/-- The paths of the children, not in memory, of some nodes, in the order in
which a walk of the trie meets them. -/
def frontier (nodes : List (Bytes × Record)) : List Bytes :=
  let paths := nodes.flatMap fun (path, r) => r.children.entries.filterMap fun child =>
    let childPath := path ++ [child.1]
    if (e.view.get? childPath).isSome then none else some childPath
  paths.mergeSort fun a b => (compare a b).isLE

/-- The identifiers of the leaves in the store below some paths. -/
def storedIdents (paths : List Bytes) : Except EngineError (List Ident) :=
  ((paths.mapM (s.leafIdents e.config.ns)).mapError EngineError.ofStore).map List.flatten

/-- Every identifier that starts with `path`, ascending. -/
def idents (path : Bytes) : Except EngineError (List Ident) :=
  match e.node s path with
  | .error cause => .error cause
  | .ok none => .ok []
  | .ok (some r) =>
    let nodes := (path, r) :: e.view.loaded.strictlyUnder path
    let inMemory := nodes.filterMap fun node => node.2.key
    (e.storedIdents s (e.frontier nodes)).map fun stored => Ident.sort (inMemory ++ stored)

/-- The snapshot of the part of the trie from the node `r` at `path` on, along
further bytes.  A byte without a child ends it, and is the last byte of its
path. -/
def snapshotFrom :
    (path : Bytes) → (r : Record) → (rest : Bytes) → Except EngineError Snapshot
  | path, r, [] => .ok ⟨path, [], r.itemCount⟩
  | path, r, b :: rest =>
    match e.child s path r b with
    | .error cause => .error cause
    | .ok none => .ok ⟨path ++ [b], [r.digestExcept b], r.itemCount⟩
    | .ok (some next) =>
      (snapshotFrom (path ++ [b]) next rest).map fun snap =>
        { snap with siblings := r.digestExcept b :: snap.siblings }

/-- The snapshot of the trie along `path`. -/
def snapshot (path : Bytes) : Except EngineError Snapshot :=
  e.snapshotFrom s [] e.view.root path

end Engine

/-- The beginning of `path` up to the first place where two lists of digests
differ or one of them ends. -/
def agreement : (path : Bytes) → (ours theirs : List Digest) → Bytes
  | b :: path, d :: ours, d' :: theirs => if d = d' then b :: agreement path ours theirs else []
  | _, _, _ => []

namespace Engine

/-- The beginning of `path` outside of which a peer with the given snapshot
digests holds the same as this trie.  It is empty for a peer that sent none. -/
def divergence (e : Engine) (s : Store) (path : Bytes) (theirs : List Digest) :
    Except EngineError Bytes :=
  if theirs.isEmpty then .ok []
  else (e.snapshot s path).map fun ours => agreement path ours.siblings theirs

end Engine
end MerkleSync
