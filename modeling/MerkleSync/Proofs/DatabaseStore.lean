import MerkleSync.Proofs.OrderedStore
import MerkleSync.Store.Database

/-!
# Stores as ordered maps

A store in a database answers as the table of its entries says.  The rows that a
scan asks for are those from a beginning up to its successor, so they are the
entries with that beginning.  A transaction makes all changes of a batch, or it
is rolled back, and then the table is what it was.  So what is read after any
batches is what those left that were committed.

**Results.**
* `Documented.scan_lists`: a scan, from the rows of a range of keys.
* `Documented.content_foldlM_write`, `Documented.content_commit`: the changes of
  a batch, and what becomes of them.
* `Documented.content_commitAll`: by induction, any batches.
* `stores_are_ordered_maps`: every read of a store in memory or in a database.
-/

namespace MerkleSync

section Rows

variable {content : Bytes → Option Bytes} {selected : Bytes → Prop} {rows : List (Bytes × Bytes)}

/-- Rows of one key are one row, so the order of the keys is strict. -/
theorem Selects.ascending (h : Selects content selected rows) :
    rows.Pairwise fun a b => compare a.1 b.1 = .lt := by
  refine (h.ordered.and h.nodup).imp_of_mem ?_
  rintro ⟨key, value⟩ ⟨key', value'⟩ hmem hmem' ⟨hle, hne⟩
  cases hcompare : compare key key' with
  | lt => rfl
  | gt => simp [hcompare] at hle
  | eq =>
      obtain rfl : key = key' := Std.LawfulEqOrd.eq_of_compare hcompare
      have hvalue := ((h.mem_iff key value).mp hmem).2
      have hvalue' := ((h.mem_iff key value').mp hmem').2
      rw [hvalue] at hvalue'
      exact absurd (congrArg (Prod.mk key) (Option.some.inj hvalue')) hne

/-- A range of a table, read in order. -/
theorem selects_filter
    (t : Table Bytes)
    {inside : Bytes × Bytes → Bool}
    (hinside : ∀ key value, inside (key, value) = true ↔ selected key) :
    Selects (fun key => t[key]?) selected (t.toList.filter inside) where
  ordered := (Std.TreeMap.ordered_keys_toList.filter inside).imp fun hlt => by simp [hlt]
  nodup := by
    refine (Std.TreeMap.ordered_keys_toList.filter inside).imp ?_
    rintro a b hlt rfl
    simp at hlt
  mem_iff key value := by
    rw [List.mem_filter, Std.TreeMap.mem_toList_iff_getElem?_eq_some, hinside, and_comm]

end Rows

namespace EntryStatements

variable {δ : Type} {db : EntryStatements δ} {content : δ → Bytes → Option Bytes}

namespace Documented

variable (h : db.Documented content)
include h

/-- **A scan** asks for one range of keys, which are those with the given beginning. -/
theorem scan_lists
    {d : δ}
    {start : Bytes}
    {entries : List (Bytes × Bytes)}
    (hscan : db.scan d start = .ok entries) :
    Selects (content d) (fun key => start <+: key) entries := by
  unfold scan at hscan
  cases hstop : start.successor with
  | none =>
      simp only [hstop] at hscan
      simpa [Bytes.isPrefix_iff_range, hstop] using h.selectFrom hscan
  | some stop =>
      simp only [hstop] at hscan
      simpa [Bytes.isPrefix_iff_range, hstop] using h.selectBetween hscan

theorem content_write
    {d d' : δ}
    {w : Write}
    (hwrite : db.write d w = .ok d')
    (key : Bytes) :
    content d' key = valueAfter key [w] (content d key) := by
  rw [valueAfter_singleton]
  cases w with
  | put written value => exact h.upsert hwrite key
  | delete written => exact h.delete hwrite key

/-- **The changes of a batch**, if all of them are made. -/
theorem content_foldlM_write
    {d d' : δ}
    {batch : Batch}
    (hwrites : batch.foldlM db.write d = .ok d')
    (key : Bytes) :
    content d' key = valueAfter key batch (content d key) := by
  induction batch generalizing d with
  | nil =>
      cases hwrites
      rfl
  | cons w batch ih =>
      rw [List.foldlM_cons] at hwrites
      cases hwrite : db.write d w with
      | error e => simp [hwrite, bind, Except.bind] at hwrites
      | ok next =>
          simp only [hwrite, bind, Except.bind] at hwrites
          calc content d' key
              = valueAfter key batch (content next key) := ih hwrites
            _ = valueAfter key batch (valueAfter key [w] (content d key)) := by
                rw [h.content_write hwrite]
            _ = valueAfter key (w :: batch) (content d key) :=
                (valueAfter_append key [w] batch _).symm

/-- **A batch** is in the table as a whole, or it has left no trace. -/
theorem content_commit
    (batch : Batch)
    (d : δ)
    (key : Bytes) :
    content (db.commit batch d).2 key =
      match (db.commit batch d).1 with
      | .ok () => valueAfter key batch (content d key)
      | .error _ => content d key := by
  cases batch with
  | nil => rfl
  | cons w batch =>
      have hcommit : db.commit (w :: batch) d =
          db.transact (fun d => (w :: batch).foldlM db.write d) d := rfl
      have hend := h.transact (fun d => (w :: batch).foldlM db.write d) d
      rw [hcommit]
      generalize db.transact (fun d => (w :: batch).foldlM db.write d) d = result at hend
      cases hend with
      | committed hbegun hbody hview => simp [hview, ← hbegun, h.content_foldlM_write hbody]
      | rolledBack _ _ hview => exact congrFun hview key
      | refused _ hview => exact congrFun hview key

/-- **Any batches**: what is in the table is what those left that were committed. -/
theorem content_commitAll
    (batches : List Batch)
    (d : δ)
    (key : Bytes) :
    content (db.commitAll batches d).2 key =
      valueAfter key (db.commitAll batches d).1.flatten (content d key) := by
  induction batches generalizing d with
  | nil => rfl
  | cons batch batches ih =>
      have hstep := h.content_commit batch d key
      unfold commitAll
      generalize db.commit batch d = result at hstep
      obtain ⟨answer, d'⟩ := result
      cases answer with
      | error e => exact (ih d').trans (congrArg _ hstep)
      | ok =>
          calc content (db.commitAll batches d').2 key
              = valueAfter key (db.commitAll batches d').1.flatten (content d' key) := ih d'
            _ = valueAfter key (db.commitAll batches d').1.flatten
                  (valueAfter key batch (content d key)) := congrArg _ hstep
            _ = valueAfter key (batch ++ (db.commitAll batches d').1.flatten) (content d key) :=
                (valueAfter_append key batch _ _).symm

end Documented

namespace Reliable

variable (h : db.Reliable content)
include h

theorem exists_foldlM_write (batch : Batch) (d : δ) :
    ∃ d', batch.foldlM db.write d = .ok d' := by
  induction batch generalizing d with
  | nil => exact ⟨d, rfl⟩
  | cons w batch ih =>
      have hwrite : ∃ next, db.write d w = .ok next := by
        cases w with
        | put key value => exact h.upsert key value d
        | delete key => exact h.delete key d
      obtain ⟨next, hnext⟩ := hwrite
      rw [List.foldlM_cons, hnext]
      exact ih next

theorem commit_ok (batch : Batch) (d : δ) : (db.commit batch d).1 = .ok () := by
  unfold commit
  split
  · rfl
  · exact h.transact _ d fun begun _ => h.exists_foldlM_write batch begun

/-- Every batch is committed. -/
theorem commitAll_fst (batches : List Batch) (d : δ) :
    (db.commitAll batches d).1 = batches := by
  induction batches generalizing d with
  | nil => rfl
  | cons batch batches ih =>
      have hok := h.commit_ok batch d
      unfold commitAll
      generalize db.commit batch d = result at hok
      obtain ⟨answer, d'⟩ := result
      cases hok
      exact congrArg (List.cons batch) (ih d')

theorem exists_scan (d : δ) (start : Bytes) : ∃ entries, db.scan d start = .ok entries := by
  unfold scan
  cases start.successor with
  | none => exact h.selectFrom d start
  | some stop => exact h.selectBetween d start stop

end Reliable

/-- The table in memory is a documented database. -/
theorem documented_onTable (rejects : Bytes → Bool) :
    (onTable rejects).Documented fun t key => t[key]? where
  select hselect := (Except.ok.inj hselect).symm
  selectBetween := by
    intro t start stop rows hrows
    cases hrows
    simp only [Std.TreeMap.toList_rco]
    refine selects_filter t fun key value => ?_
    simp [Std.OrientedCmp.isGE_iff_isLE]
  selectFrom := by
    intro t start rows hrows
    cases hrows
    simp only [Std.TreeMap.toList_rci]
    refine selects_filter t fun key value => ?_
    simp [Std.OrientedCmp.isGE_iff_isLE]
  upsert := by
    intro key value t t' hupsert other
    simp only [onTable] at hupsert
    split at hupsert
    · cases hupsert
    · cases hupsert
      exact Write.getElem?_apply t (.put key value) other
  delete := by
    intro key t t' hdelete other
    cases hdelete
    exact Write.getElem?_apply t (.delete key) other
  transact := transactionEnd_restoring _

/-- Without a trigger no statement on it fails. -/
theorem reliable_onTable :
    (onTable fun _ => false).Reliable fun t key => t[key]? where
  select _ _ := ⟨_, rfl⟩
  selectBetween _ _ _ := ⟨_, rfl⟩
  selectFrom _ _ := ⟨_, rfl⟩
  upsert _ _ _ := ⟨_, rfl⟩
  delete _ _ := ⟨_, rfl⟩
  transact := reliable_restoring _

end EntryStatements

/-- **Stores are exact ordered maps.**  Any batches are committed to an empty store, with
any keys and values, also empty ones, and any number of changes of one key.  What is read
under a key is what the last change of it left: its value, or nothing if it was a deletion
or there was none.  A scan lists what is read under the keys with the given beginning,
strictly ascending, so each once.

The same holds of a store in any documented database, for the batches that it has
committed; of the others there is no trace.  Where no statement fails all batches are
committed, and every read is answered.

This rests on the successor of a beginning.  The keys with that beginning are those from
the beginning itself up to its successor; there is none exactly where all bytes are
`0xff`; otherwise it is the least byte string above all those keys. -/
theorem stores_are_ordered_maps (batches : List Batch) :
    (∃ s, batches.foldlM Store.commit Store.empty = .ok s ∧
      (∀ key, s.get? key = .ok (valueLeft key batches.flatten)) ∧
      ∀ start, ∃ entries, s.scan start = .ok entries ∧ Lists batches.flatten start entries) ∧
    (∀ {δ : Type} (db : EntryStatements δ) (content : δ → Bytes → Option Bytes) (d : δ),
      db.Documented content → (∀ key, content d key = none) →
        let committed := (db.commitAll batches d).1
        let last := (db.commitAll batches d).2
        (∀ key found, db.get? last key = .ok found → found = valueLeft key committed.flatten) ∧
          (∀ start entries, db.scan last start = .ok entries →
            Lists committed.flatten start entries) ∧
          (db.Reliable content → committed = batches ∧
            (∀ key, ∃ found, db.get? last key = .ok found) ∧
              ∀ start, ∃ entries, db.scan last start = .ok entries)) ∧
    ∀ start : Bytes,
      (∀ key, start <+: key ↔ (compare start key).isLE ∧
        (start.successor = none ∨ ∃ stop, start.successor = some stop ∧ compare key stop = .lt)) ∧
      (start.successor = none ↔ ∀ b ∈ start, b = 255) ∧
      ∀ stop, start.successor = some stop →
        (∀ key, start <+: key → compare key stop = .lt) ∧
        ∀ bound, (∀ key, start <+: key → compare key bound = .lt) → (compare stop bound).isLE := by
  refine ⟨Store.reads_foldlM_commit batches, ?_, fun start =>
    ⟨fun key => ?_, Bytes.successor_eq_none_iff start, fun stop hstop => ⟨?_, ?_⟩⟩⟩
  · intro δ db content d hdb hempty committed last
    have hcontent : ∀ key, content last key = valueLeft key committed.flatten := by
      intro key
      rw [hdb.content_commitAll, hempty, valueAfter_none]
    refine ⟨fun key found hget => ?_, fun start entries hscan => ?_, fun hreliable =>
      ⟨hreliable.commitAll_fst batches d, hreliable.select last, hreliable.exists_scan last⟩⟩
    · rw [hdb.select hget, hcontent]
    · have hrows := hdb.scan_lists hscan
      refine ⟨hrows.ascending, fun key value => ?_⟩
      rw [hrows.mem_iff, hcontent]
  · rw [Bytes.isPrefix_iff_range]
    cases start.successor with
    | none => simp
    | some stop => simp
  · intro key hkey
    exact ((Bytes.isPrefix_iff_range start key).mp hkey).2 stop hstop
  · exact fun bound => Bytes.isLE_successor_of_bound hstop

/-- Four batches, of which one has no changes, and one is refused at its second change where
a key is rejected.  Where none is, all four are committed. -/
theorem stores_are_ordered_maps_rejecting :
    let db := EntryStatements.onTable fun key => key == [98, 97, 100]
    let willing := EntryStatements.onTable fun _ => false
    let kept : Batch := [.put [107] [1], .put [255] []]
    let refused : Batch := [.delete [107], .put [98, 97, 100] [2]]
    let later : Batch := [.put [255, 0] [3], .put [255, 0] [4], .delete [0]]
    let last := (db.commitAll [kept, [], refused, later] ∅).2
    db.Documented (fun t key => t[key]?) ∧
      (db.commitAll [kept, [], refused, later] ∅).1 = [kept, [], later] ∧
      db.get? last [107] = .ok (some [1]) ∧ db.get? last [98, 97, 100] = .ok none ∧
      willing.Documented (fun t key => t[key]?) ∧ willing.Reliable (fun t key => t[key]?) ∧
      (willing.commitAll [kept, [], refused, later] ∅).1 = [kept, [], refused, later] ∧
      ∃ entries, db.scan last [255] = .ok entries ∧
        (entries.Pairwise fun a b => compare a.1 b.1 = .lt) ∧
        ∀ entry, entry ∈ entries ↔ entry = ([255], []) ∨ entry = ([255, 0], [4]) := by
  intro db willing kept refused later last
  have hdb : db.Documented fun t key => t[key]? := EntryStatements.documented_onTable _
  have hcommitted : (db.commitAll [kept, [], refused, later] ∅).1 = [kept, [], later] := rfl
  obtain ⟨hget, hscan, -⟩ := (stores_are_ordered_maps [kept, [], refused, later]).2.1
    db (fun t key => t[key]?) ∅ hdb fun key => Std.TreeMap.getElem?_emptyc
  rw [hcommitted] at hget hscan
  have hread : ∀ key, db.get? last key = .ok (valueLeft key [kept, [], later].flatten) :=
    fun key => congrArg Except.ok (hget key _ rfl)
  have hentries : ∃ entries, db.scan last [255] = .ok entries := ⟨_, rfl⟩
  obtain ⟨entries, hentries⟩ := hentries
  obtain ⟨hascending, hmem⟩ := hscan [255] entries hentries
  have hwilling : willing.Documented fun t key => t[key]? := EntryStatements.documented_onTable _
  have hreliable : willing.Reliable fun t key => t[key]? := EntryStatements.reliable_onTable
  obtain ⟨-, -, hall⟩ := (stores_are_ordered_maps [kept, [], refused, later]).2.1
    willing (fun t key => t[key]?) ∅ hwilling fun key => Std.TreeMap.getElem?_emptyc
  refine ⟨hdb, hcommitted, hread [107], hread [98, 97, 100], hwilling, hreliable,
    (hall hreliable).1, entries, hentries, hascending, ?_⟩
  rintro ⟨key, value⟩
  rw [hmem]
  by_cases hfirst : key = [255]
  · subst hfirst
    simp [valueLeft, lastWrite?, kept, later, Write.key, Write.left, eq_comm]
  · by_cases hsecond : key = [255, 0]
    · subst hsecond
      simp [valueLeft, lastWrite?, kept, later, Write.key, Write.left, eq_comm]
    · -- no change is about any other key with this beginning
      have hnone : [255] <+: key → valueLeft key [kept, [], later].flatten = none := by
        refine fun hstart => valueLeft_eq_none ?_
        rintro w hw rfl
        simp only [kept, later, List.flatten_cons, List.flatten_nil, List.nil_append,
          List.append_nil, List.cons_append, List.mem_cons, List.not_mem_nil, or_false] at hw
        rcases hw with rfl | rfl | rfl | rfl | rfl
        all_goals simp_all [Write.key]
      simp only [Prod.mk.injEq, hfirst, hsecond, false_and, or_self, iff_false]
      rintro ⟨hstart, hvalue⟩
      rw [hnone hstart] at hvalue
      cases hvalue

end MerkleSync
