import MerkleSync.Store

/-!
# Stores in a database

A store can also be kept in a database, its entries being the rows of a table
`kv` with the key as primary key.  The database is not part of this library.
It is given here by the statements that a store makes on that table, over any
type of states, and by what is documented about them: which rows a statement
lists or changes, and that a transaction is made entirely or not at all.  Any
statement can fail.
-/

namespace MerkleSync

section Transactions

variable {δ ν : Type}

/-- Runs statements in one transaction, and says whether it was committed. -/
abbrev Transact (δ : Type) :=
  (δ → Except StoreError δ) → δ → Except StoreError Unit × δ

/-- The ways in which a transaction ends, `view` being what can be read from a state. -/
inductive TransactionEnd (view : δ → ν) (body : δ → Except StoreError δ) (d : δ) :
    Except StoreError Unit × δ → Prop
  /-- All statements succeeded, and what they left is there. -/
  | committed
      {begun last d' : δ}
      (hbegun : view begun = view d)
      (hbody : body begun = .ok last)
      (hview : view d' = view last) :
      TransactionEnd view body d (.ok (), d')
  /-- A statement failed, so the transaction is dropped, which rolls it back. -/
  | rolledBack
      {begun d' : δ}
      {e : StoreError}
      (hbegun : view begun = view d)
      (hbody : body begun = .error e)
      (hview : view d' = view d) :
      TransactionEnd view body d (.error e, d')
  /-- The transaction could not be begun or not be committed. -/
  | refused
      {d' : δ}
      (text : String)
      (hview : view d' = view d) :
      TransactionEnd view body d (.error (.database text), d')

/-- A transaction all of whose statements succeed is committed. -/
def Transact.Reliable (transact : Transact δ) (view : δ → ν) : Prop :=
  ∀ body d, (∀ begun, view begun = view d → ∃ last, body begun = .ok last) →
    (transact body d).1 = .ok ()

/-- A transaction over a state that can be kept: after a failure it is put back. -/
def restoring : Transact δ := fun body d =>
  match body d with
  | .error e => (.error e, d)
  | .ok d' => (.ok (), d')

theorem transactionEnd_restoring
    (view : δ → ν)
    (body : δ → Except StoreError δ)
    (d : δ) :
    TransactionEnd view body d (restoring body d) := by
  unfold restoring
  cases hbody : body d with
  | error e => exact .rolledBack rfl hbody rfl
  | ok d' => exact .committed rfl hbody rfl

theorem reliable_restoring (view : δ → ν) : Transact.Reliable (δ := δ) restoring view := by
  intro body d hbody
  obtain ⟨last, hlast⟩ := hbody d rfl
  simp [restoring, hlast]

end Transactions

/-- The statements on the table of entries, in a database whose states are `δ`. -/
structure EntryStatements (δ : Type) where
  /-- `SELECT value FROM kv WHERE key = ?1`, of which there may be no row. -/
  select : δ → (key : Bytes) → Except StoreError (Option Bytes)
  /-- `SELECT key, value FROM kv WHERE key >= ?1 AND key < ?2 ORDER BY key`. -/
  selectBetween : δ → (start stop : Bytes) → Except StoreError (List (Bytes × Bytes))
  /-- `SELECT key, value FROM kv WHERE key >= ?1 ORDER BY key`. -/
  selectFrom : δ → (start : Bytes) → Except StoreError (List (Bytes × Bytes))
  /-- `INSERT INTO kv (key, value) VALUES (?1, ?2)`, and
  `ON CONFLICT(key) DO UPDATE SET value = excluded.value`. -/
  upsert : (key value : Bytes) → δ → Except StoreError δ
  /-- `DELETE FROM kv WHERE key = ?1`. -/
  delete : (key : Bytes) → δ → Except StoreError δ
  /-- Statements from `BEGIN` up to `COMMIT`. -/
  transact : Transact δ

/-- What a `SELECT` from a table lists that is ordered by key. -/
structure Selects
    (content : Bytes → Option Bytes)
    (selected : Bytes → Prop)
    (rows : List (Bytes × Bytes)) : Prop where
  /-- The rows are in the order of the keys, which are compared byte by byte. -/
  ordered : rows.Pairwise fun a b => (compare a.1 b.1).isLE
  /-- No row is listed twice. -/
  nodup : rows.Nodup
  /-- They are the rows of the table that meet the condition. -/
  mem_iff : ∀ key value, (key, value) ∈ rows ↔ selected key ∧ content key = some value

namespace EntryStatements

variable {δ : Type} (db : EntryStatements δ)

/-- The documented effect of the statements, `content d` being the table of entries in
the state `d`: as the key is the primary key, at most one value under each key. -/
structure Documented (content : δ → Bytes → Option Bytes) : Prop where
  select : ∀ {d key found}, db.select d key = .ok found → found = content d key
  selectBetween : ∀ {d start stop rows}, db.selectBetween d start stop = .ok rows →
    Selects (content d) (fun key => (compare start key).isLE ∧ compare key stop = .lt) rows
  selectFrom : ∀ {d start rows}, db.selectFrom d start = .ok rows →
    Selects (content d) (fun key => (compare start key).isLE) rows
  upsert : ∀ {key value d d'}, db.upsert key value d = .ok d' →
    ∀ other, content d' other = if key = other then some value else content d other
  delete : ∀ {key d d'}, db.delete key d = .ok d' →
    ∀ other, content d' other = if key = other then none else content d other
  transact : ∀ body d, TransactionEnd content body d (db.transact body d)

/-- No statement fails. -/
structure Reliable (content : δ → Bytes → Option Bytes) : Prop where
  select : ∀ d key, ∃ found, db.select d key = .ok found
  selectBetween : ∀ d start stop, ∃ rows, db.selectBetween d start stop = .ok rows
  selectFrom : ∀ d start, ∃ rows, db.selectFrom d start = .ok rows
  upsert : ∀ key value d, ∃ d', db.upsert key value d = .ok d'
  delete : ∀ key d, ∃ d', db.delete key d = .ok d'
  transact : db.transact.Reliable content

/-- The value stored under a key. -/
def get? (d : δ) (key : Bytes) : Except StoreError (Option Bytes) := db.select d key

/-- Every entry whose key starts with `start`, ascending by key. -/
def scan (d : δ) (start : Bytes) : Except StoreError (List (Bytes × Bytes)) :=
  match start.successor with
  | some stop => db.selectBetween d start stop
  | none => db.selectFrom d start

/-- Makes one change. -/
def write (d : δ) : Write → Except StoreError δ
  | .put key value => db.upsert key value d
  | .delete key => db.delete key d

/-- Makes the changes of a batch in one transaction.  For a batch without changes none
is begun. -/
def commit (batch : Batch) (d : δ) : Except StoreError Unit × δ :=
  if batch.isEmpty then (.ok (), d)
  else db.transact (fun d => batch.foldlM db.write d) d

/-- Commits batches one after another.  The ones that were committed are given, with the
state after the last of all. -/
def commitAll : List Batch → δ → List Batch × δ
  | [], d => ([], d)
  | batch :: batches, d =>
    match db.commit batch d with
    | (.error _, d') => commitAll batches d'
    | (.ok (), d') =>
      let rest := commitAll batches d'
      (batch :: rest.1, rest.2)

/-- The statements on a table in memory, with a trigger that rejects the insertion of
some keys. -/
def onTable (rejects : Bytes → Bool) : EntryStatements (Table Bytes) where
  select t key := .ok t[key]?
  selectBetween t start stop := .ok t[start...stop].toList
  selectFrom t start := .ok t[start...*].toList
  upsert key value t := if rejects key then .error (.database "rejected") else .ok (t.insert key value)
  delete key t := .ok (t.erase key)
  transact := restoring

end EntryStatements
end MerkleSync
