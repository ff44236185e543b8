import MerkleSync.Store.Database

/-!
# Schema migrations

A database on disk carries a table of the schema versions that were applied to
it, each with a name, and the table `kv` with the entries.  Opening a database
applies the migrations that it lacks, in one transaction, and refuses a database
that a newer program has written.  As with the entries, the database is given by
the statements that are made on it and by what is documented about them; the
schema alone is the smallest such database.
-/

namespace MerkleSync

/-- The schema of a database: the recorded versions, ascending, if there is a
table of them, and whether the table of entries exists. -/
structure Schema where
  versions : Option (List (Int × String)) := none
  entryTable : Bool := false
deriving DecidableEq, Repr

/-- The SQL that is executed to change a schema. -/
inductive Script where
  /-- `CREATE TABLE IF NOT EXISTS schema_migrations`, with columns `version INTEGER
  PRIMARY KEY`, `name` and `applied_at`. -/
  | createVersionTable
  /-- `CREATE TABLE kv (key BLOB PRIMARY KEY, value BLOB NOT NULL) WITHOUT ROWID`. -/
  | createEntryTable
deriving DecidableEq, Repr

/-- One step of the schema: the version that it leads to, its name and its SQL. -/
structure Migration where
  version : Nat
  name : String
  sql : Script

/-- The row that stands for a migration in the table of versions. -/
def Migration.row (m : Migration) : Int × String := (m.version, m.name)

namespace Schema

/-- The version this library writes. -/
def supportedVersion : Nat := 1

/-- Every migration, by ascending version. -/
def migrations : List Migration := [⟨1, "kv", .createEntryTable⟩]

/-- The migrations that lead beyond a version. -/
def pending (current : Nat) : List Migration :=
  migrations.filter fun m => current < m.version

/-- The schema of a new database. -/
def fresh : Schema := {}

/-- The recorded versions; none if there is no table. -/
def rows (s : Schema) : List (Int × String) := s.versions.getD []

/-- Makes the table of versions if there is none. -/
def withVersionTable (s : Schema) : Schema := { s with versions := some s.rows }

/-- The schema after a script.  A table that exists is not created again: that is
nothing where the script allows for it, and else a failure. -/
def after? (s : Schema) : Script → Option Schema
  | .createVersionTable => some s.withVersionTable
  | .createEntryTable => if s.entryTable then none else some { s with entryTable := true }

/-- Puts a row at its place in the order of versions. -/
def addRow (row : Int × String) : List (Int × String) → List (Int × String)
  | [] => [row]
  | r :: rest => if row.1 < r.1 then row :: r :: rest else r :: addRow row rest

/-- The schema with one more recorded version.  There has to be a table, and as the
version is its primary key, no row with the same one. -/
def insert? (s : Schema) (row : Int × String) : Option Schema :=
  match s.versions with
  | none => none
  | some rows =>
    if rows.any fun r => r.1 == row.1 then none
    else some { s with versions := some (addRow row rows) }

/-- The highest of some versions. -/
def highest : List (Int × String) → Option Int
  | [] => none
  | r :: rest => some (rest.foldl (fun m row => max m row.1) r.1)

end Schema

/-- The statements on the schema, in a database whose states are `δ`. -/
structure SchemaStatements (δ : Type) where
  /-- Executes a script. -/
  execute : Script → δ → Except StoreError δ
  /-- `SELECT MAX(version) FROM schema_migrations`. -/
  maxVersion : δ → Except StoreError (Option Int)
  /-- `INSERT INTO schema_migrations (version, name, applied_at) VALUES (?1, ?2, ?3)`. -/
  insertVersion : (row : Int × String) → δ → Except StoreError δ
  /-- Statements from `BEGIN` up to `COMMIT`. -/
  transact : Transact δ

/-- A statement whose result is known as far as `view` shows it: where there is none the
database reports an error. -/
inductive Does {α β : Type} (view : α → β) : Option β → Except StoreError α → Prop
  | done (a : α) : Does view (some (view a)) (.ok a)
  | failed (text : String) : Does view none (.error (.database text))

namespace SchemaStatements

variable {δ : Type} (db : SchemaStatements δ)

/-- The documented effect of the statements, `schema d` being the schema in the state
`d`, in a database that keeps working. -/
structure Documented (schema : δ → Schema) : Prop where
  /-- `CREATE TABLE` fails for a table that exists, without `IF NOT EXISTS`. -/
  execute : ∀ script d, Does schema ((schema d).after? script) (db.execute script d)
  /-- `MAX` is `NULL` for no rows.  The table has to exist. -/
  maxVersion : ∀ d, Does id ((schema d).versions.map Schema.highest) (db.maxVersion d)
  /-- A primary key is unique. -/
  insertVersion : ∀ row d, Does schema ((schema d).insert? row) (db.insertVersion row d)
  /-- A transaction that is dropped is rolled back. -/
  transact : ∀ body d, TransactionEnd schema body d (db.transact body d)
  /-- One whose statements succeed is committed. -/
  commits : db.transact.Reliable schema

/-- The highest recorded version, 0 if there is none.  It has to be an unsigned
32-bit number, and the table of versions has to exist. -/
def version (d : δ) : Except StoreError Nat :=
  match db.maxVersion d with
  | .error e => .error e
  | .ok none => .ok 0
  | .ok (some v) =>
    if 0 ≤ v ∧ v < UInt32.size then .ok v.toNat
    else .error (.database "version is out of range")

/-- Executes the SQL of a migration and records it. -/
def apply (d : δ) (m : Migration) : Except StoreError δ := do
  let d ← db.execute m.sql d
  db.insertVersion m.row d

/-- Brings a schema up to the supported version.  The table of versions is made
first and stays whatever follows; the rest happens entirely or not at all. -/
def migrate (d : δ) : Except StoreError Unit × δ :=
  match db.execute .createVersionTable d with
  | .error e => (.error e, d)
  | .ok d =>
    match db.version d with
    | .error e => (.error e, d)
    | .ok current =>
      if Schema.supportedVersion < current then
        (.error (.migration ("schema version " ++ toString current ++
          " is newer than supported " ++ toString Schema.supportedVersion)), d)
      else if (Schema.pending current).isEmpty then (.ok (), d)
      else db.transact (fun d => (Schema.pending current).foldlM db.apply d) d

/-- Several migrations one after another, and the outcome of each: whether it
succeeded, and the version asked for after it. -/
def migrateTimes : Nat → δ → List (Except StoreError Unit × Except StoreError Nat) × δ
  | 0, d => ([], d)
  | n + 1, d =>
    let (outcome, d) := db.migrate d
    let (rest, last) := migrateTimes n d
    ((outcome, db.version d) :: rest, last)

end SchemaStatements

namespace Schema

/-- The result of a statement, or the error of the database that there is none. -/
def orError {α : Type} (text : String) : Option α → Except StoreError α
  | none => .error (.database text)
  | some a => .ok a

/-- The statements on nothing but a schema. -/
def statements : SchemaStatements Schema where
  execute script s := orError "table kv already exists" (s.after? script)
  maxVersion s := orError "no such table: schema_migrations" (s.versions.map highest)
  insertVersion row s :=
    orError "UNIQUE constraint failed: schema_migrations.version" (s.insert? row)
  transact := restoring

/-- The highest recorded version of a schema. -/
def version (s : Schema) : Except StoreError Nat := statements.version s

/-- Brings a schema up to the supported version. -/
def migrate (s : Schema) : Except StoreError Unit × Schema := statements.migrate s

/-- Several migrations of a schema one after another. -/
def migrateTimes (times : Nat) (s : Schema) :
    List (Except StoreError Unit × Except StoreError Nat) × Schema :=
  statements.migrateTimes times s

end Schema
end MerkleSync
