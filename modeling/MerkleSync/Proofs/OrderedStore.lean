import MerkleSync.Proofs.KeyRange
import MerkleSync.Store

/-!
# The entries after some changes

A store is determined by the changes that were committed to it.  What is found
under a key is what the last change of that key left, in whichever batch it
was, and what was there before if no change is about it.

**Results.**
* `valueAfter_append`: changes that are made after others.
* `Batch.getElem?_apply`: the entries after a list of changes.
* `Store.foldlM_commit`: several batches are one list of changes.
* `Store.reads_foldlM_commit`: every read after any batches.
-/

namespace MerkleSync

/-- What a change leaves under its key. -/
def Write.left : Write → Option Bytes
  | .put _ value => some value
  | .delete _ => none

/-- The last of some changes that is about `key`. -/
def lastWrite? (key : Bytes) (writes : List Write) : Option Write :=
  writes.reverse.find? fun w => w.key == key

/-- What is under `key` after some changes, where `before` was there. -/
def valueAfter (key : Bytes) (writes : List Write) (before : Option Bytes) : Option Bytes :=
  (lastWrite? key writes).elim before Write.left

/-- What some changes leave under `key`, where nothing was before. -/
def valueLeft (key : Bytes) (writes : List Write) : Option Bytes :=
  (lastWrite? key writes).bind Write.left

/-- The entries that are listed for a beginning are those which some changes left under
the keys with it, strictly ascending, so each once. -/
def Lists (writes : List Write) (start : Bytes) (entries : List (Bytes × Bytes)) : Prop :=
  (entries.Pairwise fun a b => compare a.1 b.1 = .lt) ∧
    ∀ key value, (key, value) ∈ entries ↔ start <+: key ∧ valueLeft key writes = some value

section Changes

variable {key : Bytes} {writes : List Write}

theorem lastWrite?_append
    (key : Bytes)
    (first later : List Write) :
    lastWrite? key (first ++ later) = (lastWrite? key later).or (lastWrite? key first) := by
  simp [lastWrite?]

theorem lastWrite?_eq_none_iff :
    lastWrite? key writes = none ↔ ∀ w ∈ writes, w.key ≠ key := by
  simp [lastWrite?]

theorem valueLeft_eq_none (hother : ∀ w ∈ writes, w.key ≠ key) : valueLeft key writes = none := by
  rw [valueLeft, lastWrite?_eq_none_iff.mpr hother, Option.bind_none]

theorem valueAfter_none (key : Bytes) (writes : List Write) :
    valueAfter key writes none = valueLeft key writes := by
  unfold valueAfter valueLeft
  cases lastWrite? key writes with
  | none => rfl
  | some w => rfl

theorem valueAfter_singleton
    (key : Bytes)
    (w : Write)
    (before : Option Bytes) :
    valueAfter key [w] before = if w.key = key then w.left else before := by
  by_cases hkey : w.key = key
  · simp [valueAfter, lastWrite?, hkey]
  · simp [valueAfter, lastWrite?, hkey]

/-- **Changes after others** start from what those left. -/
theorem valueAfter_append
    (key : Bytes)
    (first later : List Write)
    (before : Option Bytes) :
    valueAfter key (first ++ later) before = valueAfter key later (valueAfter key first before) := by
  unfold valueAfter
  rw [lastWrite?_append]
  cases lastWrite? key later with
  | none => rfl
  | some w => rfl

theorem Write.getElem?_apply
    (entries : Table Bytes)
    (w : Write)
    (key : Bytes) :
    (Write.apply entries w)[key]? = if w.key = key then w.left else entries[key]? := by
  cases w with
  | put written value =>
      by_cases hkey : written = key
      · simp [Write.apply, Write.key, Write.left, hkey]
      · simp [Write.apply, Write.key, Std.TreeMap.getElem?_insert, hkey]
  | delete written =>
      by_cases hkey : written = key
      · simp [Write.apply, Write.key, Write.left, hkey]
      · simp [Write.apply, Write.key, Std.TreeMap.getElem?_erase, hkey]

/-- **The entries after some changes**: under each key what the last change of it
left, and what was there before if no change is about it. -/
theorem Batch.getElem?_apply
    (writes : Batch)
    (entries : Table Bytes)
    (key : Bytes) :
    (writes.apply entries)[key]? = valueAfter key writes entries[key]? := by
  induction writes generalizing entries with
  | nil => rfl
  | cons w writes ih =>
      calc (Batch.apply (w :: writes) entries)[key]?
          = valueAfter key writes (Write.apply entries w)[key]? := ih (Write.apply entries w)
        _ = valueAfter key writes (valueAfter key [w] entries[key]?) := by
            rw [Write.getElem?_apply, valueAfter_singleton]
        _ = valueAfter key (w :: writes) entries[key]? := (valueAfter_append key [w] writes _).symm

end Changes

namespace Store

variable {s : Store}

/-- **Several batches** are committed as one list of changes. -/
theorem foldlM_commit
    (hcommits : s.commitsFail = false)
    (batches : List Batch) :
    batches.foldlM commit s =
      .ok { s with
        entries := Batch.apply batches.flatten s.entries
        commits := s.commits + batches.length } := by
  induction batches generalizing s with
  | nil => rfl
  | cons batch batches ih =>
      have hfirst : s.commit batch =
          .ok { s with entries := batch.apply s.entries, commits := s.commits + 1 } := by
        simp [commit, hcommits]
      have hrest := ih (s := { s with
        entries := batch.apply s.entries, commits := s.commits + 1 }) hcommits
      rw [List.foldlM_cons, hfirst]
      refine hrest.trans ?_
      simp [Batch.apply]
      omega

/-- **What an empty store holds after any batches.** -/
theorem reads_foldlM_commit (batches : List Batch) :
    ∃ s, batches.foldlM commit empty = .ok s ∧
      (∀ key, s.get? key = .ok (valueLeft key batches.flatten)) ∧
      ∀ start, ∃ entries, s.scan start = .ok entries ∧ Lists batches.flatten start entries := by
  have hread : ∀ key, (Batch.apply batches.flatten empty.entries)[key]? =
      valueLeft key batches.flatten := by
    intro key
    rw [Batch.getElem?_apply]
    exact valueAfter_none key batches.flatten
  refine ⟨_, foldlM_commit rfl batches, fun key => ?_, fun start => ?_⟩
  · simp [get?, empty, ← hread]
  · refine ⟨_, if_neg Bool.false_ne_true, Table.ascending_under _ start, fun key value => ?_⟩
    rw [Table.mem_under, hread]

end Store
end MerkleSync
