import MerkleSync.Engine.Query

/-!
# Changing the trie

**Algorithm.**  To insert or delete an identifier, all nodes on its path are
first brought into memory.  Then the change is computed: the list of new
records along the path, from the root down to the leaf.  A node that holds
nothing after a deletion disappears from its parent.  The records are committed
in one batch, the leaf first, and the view takes them over.

If the store refuses the batch, the view goes back to the root as it was.
-/

namespace MerkleSync

/-- The new records of a mutation with their paths, from the root down. -/
abbrev Change := List (Bytes × Record)

namespace View

/-- The child at `b` of the node `r` at `path`: one that holds nothing if there
is no such child, otherwise the one in memory. -/
def childForChange (v : View) (path : Bytes) (r : Record) (b : UInt8) :
    Except EngineError Record :=
  if r.children.contains b then
    match v.get? (path ++ [b]) with
    | some next => .ok next
    | none => .error (.notMaterialized (Bytes.toHex (path ++ [b])))
  else .ok Record.empty

/-- The records of the nodes from `r` at `path` down to the leaf of `id`, with
`id` inserted; `none` if the leaf is taken. -/
def insertion (v : View) (id : Ident) :
    (path : Bytes) → (r : Record) → (rest : Bytes) → Except EngineError (Option (Record × Change))
  | path, r, [] =>
    if r.key.isSome then .ok none
    else .ok (some (Record.leaf id, [(path, Record.leaf id)]))
  | path, r, b :: rest =>
    match v.childForChange path r b with
    | .error cause => .error cause
    | .ok next =>
      match insertion v id (path ++ [b]) next rest with
      | .error cause => .error cause
      | .ok none => .ok none
      | .ok (some (next, change)) =>
        let r := Record.ofChildren (r.children.insert b next.summary)
        .ok (some (r, (path, r) :: change))

/-- The records of the nodes from `r` at `path` down to the leaf of `id`, with
`id` deleted; `none` if it is not there. -/
def deletion (v : View) (id : Ident) :
    (path : Bytes) → (r : Record) → (rest : Bytes) → Except EngineError (Option (Record × Change))
  | path, r, [] =>
    if r.key = some id then .ok (some (Record.empty, [(path, Record.empty)])) else .ok none
  | path, r, b :: rest =>
    if !r.children.contains b then .ok none
    else
      match v.childForChange path r b with
      | .error cause => .error cause
      | .ok next =>
        match deletion v id (path ++ [b]) next rest with
        | .error cause => .error cause
        | .ok none => .ok none
        | .ok (some (next, change)) =>
          let children :=
            if next.isEmpty then r.children.erase b else r.children.insert b next.summary
          let r := Record.ofChildren children
          .ok (some (r, (path, r) :: change))

/-- The view with the records of a change. -/
def applyChange (v : View) (change : Change) : View :=
  change.foldl (fun v node => v.set node.1 node.2) v

end View

/-- The batch that stores a change: the leaf first, the root last. -/
def Change.batch (ns : UInt8) (change : Change) : Batch :=
  change.reverse.map fun node => nodeWrite ns node.1 node.2

namespace Engine

/-- Brings the nodes from the child of `r` at `path` on, along further bytes,
into memory, up to the first that does not exist.  After an error the nodes
read before it stay. -/
def materialize (ns : UInt8) (s : Store) :
    (path : Bytes) → (r : Record) → (rest : Bytes) → View → Except EngineError Unit × View
  | _, _, [], v => (.ok (), v)
  | path, r, b :: rest, v =>
    match r.children.get? b with
    | none => (.ok (), v)
    | some summary =>
      match v.get? (path ++ [b]) with
      | some next => materialize ns s (path ++ [b]) next rest v
      | none =>
        match loadChild ns s (path ++ [b]) summary with
        | .error cause => (.error cause, v)
        | .ok next => materialize ns s (path ++ [b]) next rest (v.set (path ++ [b]) next)

/-- The engine after a successful mutation: it is counted, and when the
threshold is reached all nodes below the root are forgotten. -/
def countMutation (e : Engine) : Engine :=
  let mutations := e.mutations + 1
  match e.config.unloadThreshold with
  | some threshold =>
    if threshold ≤ mutations then { e with view := e.view.unloaded, mutations := 0 }
    else { e with mutations := mutations }
  | none => { e with mutations := mutations }

/-- Commits a change and takes it over, or goes back to the root alone. -/
def persist (e : Engine) (s : Store) (change : Change) : Outcome Bool :=
  match s.commit (change.batch e.config.ns) with
  | .error cause => ⟨.error (.ofStore cause), { e with view := e.view.unloaded }, s⟩
  | .ok s => ⟨.ok true, countMutation { e with view := e.view.applyChange change }, s⟩

/-- Brings the path of `id` into memory and makes the change that `compute`
finds there. -/
def mutate (compute : View → Except EngineError (Option (Record × Change)))
    (e : Engine) (s : Store) (id : Ident) : Outcome Bool :=
  let (loaded, view) := materialize e.config.ns s [] e.view.root id.bytes e.view
  let e := { e with view := view }
  match loaded with
  | .error cause => ⟨.error cause, e, s⟩
  | .ok () =>
    match compute view with
    | .error cause => ⟨.error cause, { e with view := view.unloaded }, s⟩
    | .ok none => ⟨.ok false, e, s⟩
    | .ok (some (_, change)) => e.persist s change

/-- Adds an identifier; the result says whether it was new. -/
def insert (e : Engine) (s : Store) (id : Ident) : Outcome Bool :=
  e.mutate (fun v => v.insertion id [] v.root id.bytes) s id

/-- Removes an identifier; the result says whether it was there. -/
def delete (e : Engine) (s : Store) (id : Ident) : Outcome Bool :=
  e.mutate (fun v => v.deletion id [] v.root id.bytes) s id

/-- Makes one mutation for each identifier of a list and counts those that
changed something, on top of `done`; it ends at the first error. -/
def mutateAll (step : Engine → Store → Ident → Outcome Bool) :
    (done : Nat) → (ids : List Ident) → Engine → Store → Outcome Nat
  | done, [], e, s => ⟨.ok done, e, s⟩
  | done, id :: rest, e, s =>
    let outcome := step e s id
    match outcome.result with
    | .error cause => ⟨.error cause, outcome.engine, outcome.store⟩
    | .ok changed =>
      mutateAll step (if changed then done + 1 else done) rest outcome.engine outcome.store

/-- Adds all identifiers of a list and counts those that were new. -/
def insertAll (e : Engine) (s : Store) (ids : List Ident) : Outcome Nat :=
  mutateAll insert 0 ids e s

/-- Removes all identifiers of a list and counts those that were there. -/
def deleteAll (e : Engine) (s : Store) (ids : List Ident) : Outcome Nat :=
  mutateAll delete 0 ids e s

end Engine
end MerkleSync
