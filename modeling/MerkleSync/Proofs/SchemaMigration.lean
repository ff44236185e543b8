import MerkleSync.Store.Schema

/-!
# What a migration makes of a schema

A database may have any recorded versions, and a table of entries or none.  The
highest recorded version decides what happens to it.  Where it is supported, the
migrations beyond it are applied in one transaction; each of them is above all
recorded versions, so its row is new and becomes the last one.  What can fail is
the SQL of one, and then the schema stays as it was.

All this follows from what is documented about the statements.  A schema alone is
a documented database, in which a repeated migration fails even with the same text.

**Results.**
* `foldlM_applied_of_above`: a run of migrations beyond the recorded versions.
* `Documented.foldlM_does`, `Documented.transact_does`: by induction, such a run in
  a database, and its transaction.
* `Documented.migratesTo`: what a migration comes to, by the highest recorded version.
* `Documented.migrateTimes_settled`: any further migrations end in the same way and
  change nothing.
* `migrate_migrate`: a second migration of a schema repeats the outcome of the first.
* `migration_settles`: all of this for every schema.
-/

namespace MerkleSync

section Statements

variable {α β : Type} {view : α → β} {outcome : Except StoreError α}

theorem Does.exists_ok
    {b : β}
    (h : Does view (some b) outcome) :
    ∃ a, outcome = .ok a ∧ view a = b := by
  cases h with
  | done a => exact ⟨a, rfl, rfl⟩

/-- One statement after another. -/
theorem Does.bind
    {α' β' : Type}
    {view' : α' → β'}
    {result : Option β}
    {f : β → Option β'}
    {g : α → Except StoreError α'}
    (h : Does view result outcome)
    (hnext : ∀ a, Does view' (f (view a)) (g a)) :
    Does view' (result.bind f) (outcome >>= g) := by
  cases h with
  | done a => exact hnext a
  | failed text => exact .failed text

theorem does_orError
    (text : String)
    (result : Option α) :
    Does id result (Schema.orError text result) := by
  cases result with
  | none => exact .failed text
  | some a => exact .done a

end Statements

namespace Schema

/-- The highest recorded version, 0 if none is recorded. -/
def recorded (s : Schema) : Int := (s.rows.map Prod.fst).max?.getD 0

/-- The schema after a migration. -/
def applied? (s : Schema) (m : Migration) : Option Schema :=
  (s.after? m.sql).bind fun s => s.insert? m.row

/-- What a script makes of the table of entries, where there is a table of versions. -/
def entryTableAfter? (present : Bool) : Script → Option Bool
  | .createVersionTable => some present
  | .createEntryTable => if present then none else some true

/-- What the SQL of some migrations, one after another, makes of the table of entries. -/
def changeAll (steps : List Migration) (present : Bool) : Option Bool :=
  steps.foldlM (fun present (m : Migration) => entryTableAfter? present m.sql) present

section Recorded

variable {s : Schema}

theorem highest_eq_max? (rows : List (Int × String)) :
    highest rows = (rows.map Prod.fst).max? := by
  cases rows with
  | nil => rfl
  | cons r rest => simp [highest, List.max?, List.foldl_map]

theorem le_recorded
    {row : Int × String}
    (hrow : row ∈ s.rows) :
    row.1 ≤ s.recorded := by
  have hmem : row.1 ∈ s.rows.map Prod.fst := List.mem_map_of_mem hrow
  cases hmax : (s.rows.map Prod.fst).max? with
  | none =>
      rw [List.max?_eq_none_iff.mp hmax] at hmem
      simp at hmem
  | some v =>
      rw [recorded, hmax]
      exact (List.max?_eq_some_iff.mp hmax).2 row.1 hmem

theorem recorded_eq_of_forall_le
    {row : Int × String}
    (hrow : row ∈ s.rows)
    (hle : ∀ r ∈ s.rows, r.1 ≤ row.1) :
    s.recorded = row.1 := by
  have hmax : (s.rows.map Prod.fst).max? = some row.1 := by
    rw [List.max?_eq_some_iff]
    exact ⟨List.mem_map_of_mem hrow, List.forall_mem_map.mpr hle⟩
  rw [recorded, hmax, Option.getD_some]

/-- A schema with a recorded version has a table of versions. -/
theorem withVersionTable_of_recorded_ne_zero (hne : s.recorded ≠ 0) :
    s.withVersionTable = s := by
  obtain ⟨versions, entryTable⟩ := s
  cases versions with
  | none => exact absurd rfl hne
  | some rows => rfl

end Recorded

section Steps

variable {rows : List (Int × String)}

theorem addRow_of_above
    {row : Int × String}
    (habove : ∀ r ∈ rows, r.1 < row.1) :
    addRow row rows = rows ++ [row] := by
  induction rows with
  | nil => rfl
  | cons r rest ih =>
      have hr : ¬row.1 < r.1 := by
        have := habove r List.mem_cons_self
        omega
      rw [addRow, if_neg hr, ih fun r' hr' => habove r' (List.mem_cons_of_mem r hr')]
      rfl

/-- A row above all others is the highest one. -/
theorem recorded_append
    {row : Int × String}
    (habove : ∀ r ∈ rows, r.1 < row.1)
    (present : Bool) :
    recorded ⟨some (rows ++ [row]), present⟩ = row.1 := by
  have hmem : row ∈ Schema.rows ⟨some (rows ++ [row]), present⟩ :=
    List.mem_append_right rows (List.mem_singleton_self row)
  refine recorded_eq_of_forall_le hmem fun r hr => ?_
  rcases List.mem_append.mp hr with hold | hlast
  · exact Int.le_of_lt (habove r hold)
  · exact Int.le_of_eq (congrArg Prod.fst (List.mem_singleton.mp hlast))

theorem after?_of_table
    (script : Script)
    (present : Bool) :
    after? ⟨some rows, present⟩ script =
      (entryTableAfter? present script).map fun present => ⟨some rows, present⟩ := by
  cases script with
  | createVersionTable => rfl
  | createEntryTable =>
      cases present with
      | false => rfl
      | true => rfl

/-- A version above all recorded ones is new, and its row becomes the last one. -/
theorem insert?_of_above
    {row : Int × String}
    (habove : ∀ r ∈ rows, r.1 < row.1)
    (present : Bool) :
    insert? ⟨some rows, present⟩ row = some ⟨some (rows ++ [row]), present⟩ := by
  have hnew : (rows.any fun r => r.1 == row.1) = false := by
    rw [List.any_eq_false]
    intro r hr
    simpa using Int.ne_of_lt (habove r hr)
  simp [insert?, hnew, addRow_of_above habove]

/-- **One migration** above all recorded versions: its row becomes the last one,
if its SQL succeeds. -/
theorem applied_of_above
    {m : Migration}
    (habove : ∀ row ∈ rows, row.1 < m.version)
    (present : Bool) :
    applied? ⟨some rows, present⟩ m =
      (entryTableAfter? present m.sql).map fun present => ⟨some (rows ++ [m.row]), present⟩ := by
  rw [applied?, after?_of_table]
  cases entryTableAfter? present m.sql with
  | none => rfl
  | some present => exact insert?_of_above habove present

/-- **A run of migrations**, each above all versions that are recorded before it: the
SQL is executed one after another, and the rows are appended in the same order. -/
theorem foldlM_applied_of_above
    {steps : List Migration}
    (hascending : steps.Pairwise fun m m' => m.version < m'.version)
    (habove : ∀ m ∈ steps, ∀ row ∈ rows, row.1 < m.version)
    (present : Bool) :
    steps.foldlM applied? ⟨some rows, present⟩ =
      (changeAll steps present).map
        fun present => ⟨some (rows ++ steps.map Migration.row), present⟩ := by
  induction steps generalizing rows present with
  | nil => simp [changeAll]
  | cons m steps ih =>
      obtain ⟨hfirst, hrest⟩ := List.pairwise_cons.mp hascending
      have hstep := applied_of_above (habove m List.mem_cons_self) present
      rw [List.foldlM_cons, hstep, changeAll, List.foldlM_cons]
      cases entryTableAfter? present m.sql with
      | none => rfl
      | some present =>
          -- the row that was just recorded is below the versions of the rest
          have hbelow : ∀ m' ∈ steps, ∀ row ∈ rows ++ [m.row], row.1 < m'.version := by
            intro m' hm' row hrow
            rcases List.mem_append.mp hrow with hold | hlast
            · exact habove m' (List.mem_cons_of_mem m hm') row hold
            · rw [List.mem_singleton.mp hlast]
              exact Int.ofNat_lt.mpr (hfirst m' hm')
          refine (ih hrest hbelow present).trans ?_
          simp [changeAll]

end Steps

section Pending

theorem mem_pending {current : Nat} {m : Migration} :
    m ∈ pending current ↔ m ∈ migrations ∧ current < m.version := by
  simp [pending]

theorem ascending_pending (current : Nat) :
    (pending current).Pairwise fun m m' => m.version < m'.version := by
  refine List.Pairwise.filter _ ?_
  simp [migrations]

theorem changeAll_eq_none_iff {present : Bool} :
    changeAll migrations present = none ↔ present = true := by
  cases present <;> decide

theorem changeAll_eq_some_iff {present created : Bool} :
    changeAll migrations present = some created ↔ present = false ∧ true = created := by
  cases present <;> cases created <;> decide

end Pending

section MigratesTo

variable {s : Schema}

/-- The row of version 1 is the highest one where nothing above 0 was recorded. -/
theorem recorded_created (hzero : s.recorded = 0) :
    recorded ⟨some (s.rows ++ [(1, "kv")]), true⟩ = 1 := by
  refine recorded_append (fun row hrow => ?_) true
  have hle := le_recorded hrow
  exact Int.lt_of_le_of_lt hle (by omega)

/-- What a migration comes to, by the highest recorded version. -/
inductive MigratesTo (s : Schema) : Except StoreError Unit × Schema → Prop
  | outOfRange
      (text : String)
      (hrange : s.recorded < 0 ∨ UInt32.size ≤ s.recorded) :
      MigratesTo s (.error (.database text), s.withVersionTable)
  | newer
      (text : String)
      (habove : 1 < s.recorded)
      (hrange : s.recorded < UInt32.size) :
      MigratesTo s (.error (.migration text), s.withVersionTable)
  | supported
      (hrecorded : s.recorded = 1) :
      MigratesTo s (.ok (), s)
  | conflict
      (text : String)
      (hrecorded : s.recorded = 0)
      (htable : s.entryTable = true) :
      MigratesTo s (.error (.database text), s.withVersionTable)
  | created
      (hrecorded : s.recorded = 0)
      (htable : s.entryTable = false) :
      MigratesTo s (.ok (), ⟨some (s.rows ++ [(1, "kv")]), true⟩)

/-- Outcomes of one kind, whatever the texts of the errors. -/
inductive SameEnd : Except StoreError Unit → Except StoreError Unit → Prop
  | ok : SameEnd (.ok ()) (.ok ())
  | database (text text' : String) :
      SameEnd (.error (.database text)) (.error (.database text'))
  | migration (text text' : String) :
      SameEnd (.error (.migration text)) (.error (.migration text'))

namespace MigratesTo

theorem one_lt_size : (1 : Int) < UInt32.size := by decide

variable {outcome outcome' : Except StoreError Unit} {after after' : Schema}

theorem isDatabase_iff (h : MigratesTo s (outcome, after)) :
    (∃ text, outcome = .error (.database text)) ↔
      s.recorded < 0 ∨ UInt32.size ≤ s.recorded ∨ s.recorded = 0 ∧ s.entryTable = true := by
  have hsize := one_lt_size
  cases h with
  | outOfRange text hrange => exact iff_of_true ⟨text, rfl⟩ (by omega)
  | newer text habove hrange => exact iff_of_false (by simp) (by omega)
  | supported hone => exact iff_of_false (by simp) (by omega)
  | conflict text hzero htable =>
      exact iff_of_true ⟨text, rfl⟩ (Or.inr (Or.inr ⟨hzero, htable⟩))
  | created hzero htable => exact iff_of_false (by simp) (by simp [htable]; omega)

theorem isMigration_iff (h : MigratesTo s (outcome, after)) :
    (∃ text, outcome = .error (.migration text)) ↔
      2 ≤ s.recorded ∧ s.recorded < UInt32.size := by
  cases h with
  | newer text habove hrange => exact iff_of_true ⟨text, rfl⟩ ⟨habove, hrange⟩
  | outOfRange | supported | conflict | created => exact iff_of_false (by simp) (by omega)

theorem isOk_iff (h : MigratesTo s (outcome, after)) :
    outcome = .ok () ↔ s.recorded = 1 ∨ s.recorded = 0 ∧ s.entryTable = false := by
  have hsize := one_lt_size
  cases h with
  | supported hone => exact iff_of_true rfl (Or.inl hone)
  | created hzero htable => exact iff_of_true rfl (Or.inr ⟨hzero, htable⟩)
  | conflict text hzero htable => exact iff_of_false (by simp) (by simp [hzero, htable])
  | outOfRange | newer => exact iff_of_false (by simp) (by omega)

/-- A failed migration changes no table that was there. -/
theorem unchanged (h : MigratesTo s (outcome, after)) (hfailed : outcome ≠ .ok ()) :
    after.rows = s.rows ∧ after.entryTable = s.entryTable := by
  cases h with
  | outOfRange | newer | conflict => exact ⟨rfl, rfl⟩
  | supported | created => exact absurd rfl hfailed

/-- A migration from no recorded version above 0, if it succeeds. -/
theorem created_of_ok
    (h : MigratesTo s (outcome, after))
    (hzero : s.recorded = 0)
    (hok : outcome = .ok ()) :
    after.rows = s.rows ++ [(1, "kv")] ∧ after.entryTable = true := by
  cases h with
  | created => exact ⟨rfl, rfl⟩
  | supported hone => omega
  | outOfRange | newer | conflict => simp at hok

/-- A successful migration leaves version 1. -/
theorem recorded_eq_one (h : MigratesTo s (outcome, after)) (hok : outcome = .ok ()) :
    after.recorded = 1 := by
  cases h with
  | outOfRange | newer | conflict => simp at hok
  | supported hone => exact hone
  | created hzero => exact recorded_created hzero

/-- Nothing is pending at version 1. -/
theorem of_recorded_one (h : MigratesTo s (outcome, after)) (hone : s.recorded = 1) :
    (outcome, after) = (.ok (), s) := by
  have hsize := one_lt_size
  cases h with
  | supported => rfl
  | outOfRange | newer | conflict | created => omega

/-- **A second migration** ends as the first one did, and changes nothing. -/
theorem again
    (h : MigratesTo s (outcome, after))
    (h' : MigratesTo after (outcome', after')) :
    SameEnd outcome outcome' ∧ after' = after := by
  have hsize := one_lt_size
  cases h with
  | supported hone =>
      cases h'.of_recorded_one hone
      exact ⟨.ok, rfl⟩
  | created hzero =>
      cases h'.of_recorded_one (recorded_created hzero)
      exact ⟨.ok, rfl⟩
  | outOfRange text hrange =>
      -- the table of versions is there, with the same rows
      have hsame : s.withVersionTable.recorded = s.recorded := rfl
      cases h' with
      | outOfRange text' => exact ⟨.database text text', rfl⟩
      | conflict text' => exact ⟨.database text text', rfl⟩
      | newer | supported | created => omega
  | newer text habove hrange =>
      have hsame : s.withVersionTable.recorded = s.recorded := rfl
      cases h' with
      | newer text' => exact ⟨.migration text text', rfl⟩
      | outOfRange | conflict | supported | created => omega
  | conflict text hzero htable =>
      have hsame : s.withVersionTable.recorded = s.recorded := rfl
      cases h' with
      | conflict text' => exact ⟨.database text text', rfl⟩
      | created _ hnone => exact absurd (htable.symm.trans hnone) (by decide)
      | outOfRange | newer | supported => omega

end MigratesTo

end MigratesTo
end Schema

namespace SchemaStatements.Documented

variable {δ : Type} {db : SchemaStatements δ} {schema : δ → Schema}
variable (h : db.Documented schema)
include h

theorem apply_does
    (d : δ)
    (m : Migration) :
    Does schema ((schema d).applied? m) (db.apply d m) :=
  (h.execute m.sql d).bind fun d' => h.insertVersion m.row d'

/-- **A run of migrations** does to the database what it does to the schema. -/
theorem foldlM_does
    (steps : List Migration)
    (d : δ) :
    Does schema (steps.foldlM Schema.applied? (schema d)) (steps.foldlM db.apply d) := by
  induction steps generalizing d with
  | nil => exact .done d
  | cons m steps ih =>
      rw [List.foldlM_cons, List.foldlM_cons]
      exact (h.apply_does d m).bind ih

/-- **All or nothing**: a transaction does what its statements do, or leaves the schema
as it was. -/
theorem transact_does
    {body : δ → Except StoreError δ}
    {d : δ}
    {result : Option Schema}
    (hbody : ∀ begun, schema begun = schema d → Does schema result (body begun)) :
    (∃ text, result = none ∧ (db.transact body d).1 = .error (.database text) ∧
      schema (db.transact body d).2 = schema d) ∨
    ∃ s, result = some s ∧ (db.transact body d).1 = .ok () ∧
      schema (db.transact body d).2 = s := by
  have hend := h.transact body d
  have hcommits := h.commits body d
  generalize db.transact body d = ended at hend hcommits
  cases hend with
  | committed hbegun hlast hview =>
      have hdoes := hbody _ hbegun
      rw [hlast] at hdoes
      cases hdoes with
      | done => exact Or.inr ⟨_, rfl, rfl, hview⟩
  | rolledBack hbegun herror hview =>
      have hdoes := hbody _ hbegun
      rw [herror] at hdoes
      cases hdoes with
      | failed text => exact Or.inl ⟨text, rfl, rfl, hview⟩
  | refused text hview =>
      cases result with
      | none => exact Or.inl ⟨text, rfl, rfl, hview⟩
      | some s =>
          have hok : (Except.error (StoreError.database text) : Except StoreError Unit) = .ok () :=
            hcommits fun begun hbegun => (hbody begun hbegun).exists_ok.imp fun _ => And.left
          cases hok

/-- The version of a database with a table of versions. -/
theorem version_of_table
    {d : δ}
    {rows : List (Int × String)}
    (htable : (schema d).versions = some rows) :
    db.version d =
      if 0 ≤ (schema d).recorded ∧ (schema d).recorded < UInt32.size then
        .ok (schema d).recorded.toNat
      else .error (.database "version is out of range") := by
  have hrows : (schema d).rows = rows := by simp [Schema.rows, htable]
  have hmax := h.maxVersion d
  rw [htable, Option.map_some] at hmax
  obtain ⟨found, hfound, hhighest⟩ := hmax.exists_ok
  simp only [version, hfound, Schema.recorded, hrows, ← Schema.highest_eq_max?, ← hhighest, id]
  cases found with
  | none => simp [UInt32.size]
  | some v => rfl

/-- Before anything else the table of versions is made. -/
theorem exists_versionTable (d : δ) :
    ∃ made, db.execute .createVersionTable d = .ok made ∧
      schema made = (schema d).withVersionTable ∧
      db.version made =
        if 0 ≤ (schema d).recorded ∧ (schema d).recorded < UInt32.size then
          .ok (schema d).recorded.toNat
        else .error (.database "version is out of range") := by
  obtain ⟨made, hmade, hschema⟩ := (h.execute .createVersionTable d).exists_ok
  have hrecorded : (schema made).recorded = (schema d).recorded := by
    rw [hschema]
    rfl
  refine ⟨made, hmade, hschema, ?_⟩
  rw [h.version_of_table (congrArg Schema.versions hschema), hrecorded]

/-- **A migration from a supported version** executes the SQL that is pending and appends
the rows, or leaves both tables as they are. -/
theorem migrate_of_supported
    {d : δ}
    {steps : List Migration}
    (hlow : 0 ≤ (schema d).recorded)
    (hhigh : (schema d).recorded ≤ Schema.supportedVersion)
    (hsteps : Schema.pending (schema d).recorded.toNat = steps) :
    (∃ text, Schema.changeAll steps (schema d).entryTable = none ∧
      (db.migrate d).1 = .error (.database text) ∧
      schema (db.migrate d).2 = (schema d).withVersionTable) ∨
    ∃ present, Schema.changeAll steps (schema d).entryTable = some present ∧
      (db.migrate d).1 = .ok () ∧
      schema (db.migrate d).2 = ⟨some ((schema d).rows ++ steps.map Migration.row), present⟩ := by
  obtain ⟨made, hmade, hschema, hversion⟩ := h.exists_versionTable d
  have hinside : 0 ≤ (schema d).recorded ∧ (schema d).recorded < UInt32.size := by
    simp only [Schema.supportedVersion, UInt32.size] at hhigh ⊢
    omega
  have hsupported : ¬Schema.supportedVersion < (schema d).recorded.toNat := by omega
  rw [if_pos hinside] at hversion
  have hmigrate : db.migrate d =
      if steps.isEmpty then (.ok (), made)
      else db.transact (fun d => steps.foldlM db.apply d) made := by
    simp only [migrate, hmade, hversion, if_neg hsupported, hsteps]
  rw [hmigrate]
  by_cases hnothing : steps.isEmpty
  · -- no transaction is begun
    obtain rfl := List.isEmpty_iff.mp hnothing
    refine Or.inr ⟨(schema d).entryTable, rfl, rfl, hschema.trans ?_⟩
    rw [List.map_nil, List.append_nil]
    rfl
  · rw [if_neg hnothing]
    have habove : ∀ m ∈ steps, ∀ row ∈ (schema d).rows, row.1 < m.version := by
      intro m hm row hrow
      have hle := Schema.le_recorded hrow
      have hlt := (Schema.mem_pending.mp (hsteps ▸ hm)).2
      omega
    have hrun := Schema.foldlM_applied_of_above (hsteps ▸ Schema.ascending_pending _) habove
      (schema d).entryTable
    have hbody : ∀ begun, schema begun = schema made →
        Does schema (steps.foldlM Schema.applied? (schema d).withVersionTable)
          (steps.foldlM db.apply begun) := by
      intro begun hbegun
      rw [← hschema, ← hbegun]
      exact h.foldlM_does steps begun
    rcases h.transact_does hbody with ⟨text, hnone, herror, hview⟩ | ⟨s, hsome, hok, hview⟩
    · exact Or.inl ⟨text, Option.map_eq_none_iff.mp (hrun.symm.trans hnone), herror,
        hview.trans hschema⟩
    · obtain ⟨present, hpresent, rfl⟩ := Option.map_eq_some_iff.mp (hrun.symm.trans hsome)
      exact Or.inr ⟨present, hpresent, hok, hview⟩

/-- **What a migration comes to**, in any documented database. -/
theorem migratesTo (d : δ) :
    (schema d).MigratesTo ((db.migrate d).1, schema (db.migrate d).2) := by
  obtain ⟨made, hmade, hschema, hversion⟩ := h.exists_versionTable d
  by_cases hinside : 0 ≤ (schema d).recorded ∧ (schema d).recorded < UInt32.size
  · by_cases hnewer : Schema.supportedVersion < (schema d).recorded
    · have hrefused : Schema.supportedVersion < (schema d).recorded.toNat := by omega
      rw [if_pos hinside] at hversion
      simp only [migrate, hmade, hversion, if_pos hrefused, hschema]
      exact .newer _ hnewer hinside.2
    · have hrecorded : (schema d).recorded = 1 ∨ (schema d).recorded = 0 := by
        simp only [Schema.supportedVersion] at hnewer
        omega
      rcases hrecorded with hone | hzero
      · have hpending : Schema.pending (schema d).recorded.toNat = [] := by
          rw [hone]
          rfl
        rcases h.migrate_of_supported hinside.1 (by omega) hpending with
          ⟨text, hnone, _⟩ | ⟨present, hsome, hok, hview⟩
        · cases hnone
        · cases hsome
          have hsame : (schema d).withVersionTable = schema d :=
            Schema.withVersionTable_of_recorded_ne_zero (by omega)
          rw [List.map_nil, List.append_nil] at hview
          rw [hok, hview.trans hsame]
          exact .supported hone
      · have hpending : Schema.pending (schema d).recorded.toNat = Schema.migrations := by
          rw [hzero]
          rfl
        rcases h.migrate_of_supported hinside.1 (by omega) hpending with
          ⟨text, hnone, herror, hview⟩ | ⟨present, hsome, hok, hview⟩
        · rw [herror, hview]
          exact .conflict text hzero (Schema.changeAll_eq_none_iff.mp hnone)
        · obtain ⟨htable, rfl⟩ := Schema.changeAll_eq_some_iff.mp hsome
          rw [hok, hview]
          exact .created hzero htable
  · rw [if_neg hinside] at hversion
    simp only [migrate, hmade, hversion, hschema]
    exact .outOfRange _ (by omega)

/-- **Any further migrations** end as the first one did, and change nothing. -/
theorem migrateTimes_settled
    {s : Schema}
    {outcome : Except StoreError Unit}
    {d : δ}
    (hfirst : s.MigratesTo (outcome, schema d))
    (n : Nat) :
    schema (db.migrateTimes n d).2 = schema d ∧
      ∀ ended ∈ (db.migrateTimes n d).1, Schema.SameEnd outcome ended.1 := by
  induction n generalizing d with
  | zero => exact ⟨rfl, nofun⟩
  | succ n ih =>
      obtain ⟨hend, hsame⟩ := hfirst.again (h.migratesTo d)
      obtain ⟨hlast, hall⟩ := ih (hsame ▸ hfirst)
      refine ⟨hlast.trans hsame, ?_⟩
      intro ended hended
      rcases List.mem_cons.mp hended with rfl | hrest
      · exact hend
      · exact hall ended hrest

end SchemaStatements.Documented

namespace Schema

/-- A schema alone is a documented database. -/
theorem documented_statements : statements.Documented id where
  execute script s := does_orError _ (s.after? script)
  maxVersion s := does_orError _ (s.versions.map highest)
  insertVersion row s := does_orError _ (s.insert? row)
  transact := transactionEnd_restoring id
  commits := reliable_restoring id

variable {s : Schema}

theorem migratesTo_migrate (s : Schema) : MigratesTo s s.migrate :=
  documented_statements.migratesTo s

/-- The table of versions is made once. -/
theorem migrate_withVersionTable (s : Schema) : s.withVersionTable.migrate = s.migrate := rfl

theorem migrate_of_recorded_one (hone : s.recorded = 1) : s.migrate = (.ok (), s) :=
  (migratesTo_migrate s).of_recorded_one hone

theorem version_of_recorded_one (hone : s.recorded = 1) : s.version = .ok 1 := by
  have htable : s.withVersionTable = s := withVersionTable_of_recorded_ne_zero (by omega)
  have hversions : s.versions = some s.rows := congrArg versions htable.symm
  have hversion := documented_statements.version_of_table (d := s) hversions
  rw [id, hone] at hversion
  exact hversion

/-- What a migration leaves is migrated again with the same outcome, and stays as it is. -/
theorem migrate_migrate (s : Schema) : s.migrate.2.migrate = s.migrate := by
  have hresult := migratesTo_migrate s
  generalize hmigrate : s.migrate = migrated at hresult ⊢
  cases hresult with
  | outOfRange | newer | conflict => exact (migrate_withVersionTable s).trans hmigrate
  | supported => exact hmigrate
  | created hzero => exact migrate_of_recorded_one (recorded_created hzero)

theorem migrateTimes_of_settled
    {outcome : Except StoreError Unit}
    (hsettled : s.migrate = (outcome, s))
    (n : Nat) :
    migrateTimes n s = (List.replicate n (outcome, s.version), s) := by
  induction n with
  | zero => rfl
  | succ n ih =>
      have hstep : migrateTimes (n + 1) s =
          ((s.migrate.1, s.migrate.2.version) :: (migrateTimes n s.migrate.2).1,
            (migrateTimes n s.migrate.2).2) := rfl
      rw [hstep, hsettled, ih]
      rfl

/-- **A migration is atomic and settles the schema**, whatever versions are recorded, in
a table or none, and whether there is a table of entries.  Let `m` be the highest
recorded version.  The migration fails in the database where `m` is no unsigned 32-bit
number, or is 0 and there are entries already; it refuses what a newer program wrote;
otherwise it succeeds.  A failed one leaves the recorded rows and the table of entries
as they were.  A successful one leaves version 1: it changes nothing where `m` was 1,
and where `m` was 0 it appends the row of version 1 and creates the table of entries.
Any number of further migrations have the same outcome and change nothing. -/
theorem migration_settles (s : Schema) :
    let m := s.recorded
    let outcome := s.migrate.1
    let after := s.migrate.2
    ((∃ text, outcome = .error (.database text)) ↔
      m < 0 ∨ UInt32.size ≤ m ∨ m = 0 ∧ s.entryTable = true) ∧
    ((∃ text, outcome = .error (.migration text)) ↔ 2 ≤ m ∧ m < UInt32.size) ∧
    (outcome = .ok () ↔ m = 1 ∨ m = 0 ∧ s.entryTable = false) ∧
    (outcome ≠ .ok () → after.rows = s.rows ∧ after.entryTable = s.entryTable) ∧
    (outcome = .ok () → after.version = .ok 1 ∧
      (m = 1 → after = s) ∧
      (m = 0 → after.rows = s.rows ++ [(1, "kv")] ∧ after.entryTable = true)) ∧
    ∀ n, after.migrateTimes n = (List.replicate n (outcome, after.version), after) := by
  intro m outcome after
  have hresult : MigratesTo s (outcome, after) := migratesTo_migrate s
  refine ⟨hresult.isDatabase_iff, hresult.isMigration_iff, hresult.isOk_iff, hresult.unchanged,
    fun hok => ⟨version_of_recorded_one (hresult.recorded_eq_one hok), fun hone => ?_,
      fun hzero => hresult.created_of_ok hzero hok⟩,
    migrateTimes_of_settled (migrate_migrate s)⟩
  exact congrArg Prod.snd (migrate_of_recorded_one hone)

/-- Two schemas that differ in the table of entries alone. -/
theorem migration_settles_by_entry_table :
    let versions := [((-3 : Int), "given"), (0, "given")]
    let without : Schema := ⟨some versions, false⟩
    let filled : Schema := ⟨some versions, true⟩
    (without.migrate.2.rows = versions ++ [(1, "kv")] ∧
      ∀ n, without.migrate.2.migrateTimes n =
        (List.replicate n (.ok (), .ok 1), without.migrate.2)) ∧
    (filled.migrate.2.rows = versions ∧
      ∃ text, filled.migrate.1 = .error (.database text)) := by
  intro versions without filled
  have hwithout : without.recorded = 0 := rfl
  have hfilled : filled.recorded = 0 := rfl
  constructor
  · obtain ⟨_, _, hokIff, _, hdone, hagain⟩ := migration_settles without
    have hok := hokIff.mpr (Or.inr ⟨hwithout, rfl⟩)
    obtain ⟨hversion, _, hcreated⟩ := hdone hok
    refine ⟨(hcreated hwithout).1, fun n => ?_⟩
    rw [hagain, hok, hversion]
  · obtain ⟨hdatabaseIff, _, _, hunchanged, _⟩ := migration_settles filled
    have hdatabase := hdatabaseIff.mpr (Or.inr (Or.inr ⟨hfilled, rfl⟩))
    obtain ⟨text, htext⟩ := hdatabase
    refine ⟨(hunchanged ?_).1, text, htext⟩
    rw [htext]
    simp

-- a new database
example : fresh.migrate = (.ok (), ⟨some [(1, "kv")], true⟩) := rfl

end Schema
end MerkleSync
