import MerkleSync.Engine

/-!
# Checking a stored trie

The check reads all records of a namespace and compares each with its
neighbours: it has to be listed by its parent, a leaf has to hold the
identifier that is its path, and the digest of an internal record and the
summaries in it have to be those of its children's records.  The root record
has to agree with the root in memory.
-/

namespace MerkleSync

/-- What a successful check has seen. -/
structure IntegrityReport where
  nodes : Nat
  leaves : Nat
deriving DecidableEq, Repr

namespace Integrity

/-- The error of a violation at `path`. -/
def violation (path : Bytes) (reason : String) : EngineError := .integrity path.toHex reason

/-- Compares the stored root with the root in memory. -/
def checkRoot (root : Record) (records : Table Record) : Except EngineError Unit :=
  match records[([] : Bytes)]? with
  | some stored =>
    if stored.summary ≠ root.summary then
      .error (violation [] "root record differs from loaded root")
    else .ok ()
  | none =>
    if !root.digest.isEmpty || root.itemCount != 0 then
      .error (violation [] "missing root record for non-empty trie")
    else if !records.isEmpty then .error (violation [] "records present without a root")
    else .ok ()

/-- Whether a record other than the root is listed by its parent's record. -/
def isListed (records : Table Record) (path : Bytes) : Bool :=
  match path.getLast? with
  | none => true
  | some b => match records[path.dropLast]? with
    | none => false
    | some parent => parent.children.contains b

/-- Compares the summaries of children with the children's records. -/
def checkChildren (records : Table Record) (path : Bytes) :
    List (UInt8 × Summary) → Except EngineError Unit
  | [] => .ok ()
  | (b, summary) :: rest =>
    match records[path ++ [b]]? with
    | none => .error (violation (path ++ [b]) "child record missing")
    | some child =>
      if child.summary = summary then checkChildren records path rest
      else .error (violation (path ++ [b]) "child differs from parent summary")

/-- Compares one record with its neighbours. -/
def checkNode (records : Table Record) (path : Bytes) (r : Record) : Except EngineError Unit :=
  if !isListed records path then .error (violation path "orphaned record")
  else if path.length = identLength then
    if r.key.map (·.bytes) = some path then .ok ()
    else .error (violation path "leaf key does not match its path")
  else if childrenDigest r.children ≠ r.digest then
    .error (violation path "digest does not match children")
  else checkChildren records path r.children.entries

/-- Checks records one after another and counts them. -/
def checkNodes (records : Table Record) :
    IntegrityReport → List (Bytes × Record) → Except EngineError IntegrityReport
  | report, [] => .ok report
  | report, (path, r) :: rest =>
    match checkNode records path r with
    | .error e => .error e
    | .ok () =>
      checkNodes records
        ⟨report.nodes + 1, if path.length = identLength then report.leaves + 1 else report.leaves⟩
        rest

end Integrity

/-- Checks everything that is stored in the engine's namespace. -/
def Engine.verify (e : Engine) (s : Store) : Except EngineError IntegrityReport :=
  match s.scanNodes e.config.ns [] with
  | .error cause => .error (.ofStore cause)
  | .ok nodes =>
    let records : Table Record := Std.TreeMap.ofList nodes
    match Integrity.checkRoot e.view.root records with
    | .error cause => .error cause
    | .ok () => Integrity.checkNodes records ⟨0, 0⟩ nodes

end MerkleSync
