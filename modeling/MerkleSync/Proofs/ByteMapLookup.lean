import Mathlib.Data.List.Basic
import MerkleSync.ByteMap

/-!
# Byte maps by their values

A byte map is determined by the value it gives for each byte.  The operations
are described by these values, and a map can be given by them.

**Results.**
* `get?_eq_some_iff`: the values found are those of the entries.
* `ext_get?`: two maps with the same values are equal.
* `get?_tabulate`: every function on bytes is the map of its values.
* `length_entries_le`: there are at most 256 entries.
-/

namespace MerkleSync
namespace ByteMap

variable {α : Type}

theorem lookup_cons_eq_ite (c : UInt8) (e : UInt8 × α) (l : List (UInt8 × α)) :
    (e :: l).lookup c = if c = e.1 then some e.2 else l.lookup c := by
  rw [List.lookup_cons]
  by_cases hc : c = e.1
  · simp [hc]
  · simp [hc, beq_eq_false_iff_ne.mpr hc]

/-- In an ascending list the value found for a byte is the only one. -/
theorem lookup_eq_some_iff {l : List (UInt8 × α)} (h : l.Pairwise fun x y => x.1 < y.1)
    {b : UInt8} {v : α} : l.lookup b = some v ↔ (b, v) ∈ l := by
  induction l with
  | nil => simp
  | cons e rest ih =>
      obtain ⟨hhead, htail⟩ := List.pairwise_cons.mp h
      obtain ⟨c, w⟩ := e
      rw [lookup_cons_eq_ite]
      by_cases hbc : b = c
      · subst hbc
        have hnot : (b, v) ∉ rest := fun hmem => UInt8.lt_irrefl b (hhead _ hmem)
        simp [hnot, eq_comm]
      · simp [ih htail, hbc]

theorem get?_eq_some_iff {m : ByteMap α} {b : UInt8} {v : α} :
    m.get? b = some v ↔ (b, v) ∈ m.entries :=
  lookup_eq_some_iff m.ascending

@[simp] theorem get?_empty (b : UInt8) : (empty : ByteMap α).get? b = none := rfl

theorem contains_iff {m : ByteMap α} {b : UInt8} :
    m.contains b = true ↔ ∃ v, m.get? b = some v := by
  rw [contains, Option.isSome_iff_exists]

theorem isEmpty_iff {m : ByteMap α} : m.isEmpty = true ↔ ∀ b, m.get? b = none := by
  rw [isEmpty, List.isEmpty_iff]
  constructor
  · intro h b
    rw [get?, h]
    rfl
  · intro h
    refine List.eq_nil_iff_forall_not_mem.mpr fun e he => ?_
    have hget := get?_eq_some_iff.mpr he
    rw [h e.1] at hget
    cases hget

theorem nodup_entries (m : ByteMap α) : m.entries.Nodup :=
  m.ascending.imp fun hlt => fun heq => UInt8.lt_irrefl _ (heq ▸ hlt)

/-- **A map is determined by its values.** -/
theorem ext_get? {m n : ByteMap α} (h : ∀ b, m.get? b = n.get? b) : m = n := by
  have hmem : ∀ e, e ∈ m.entries ↔ e ∈ n.entries := by
    intro e
    rw [← get?_eq_some_iff, ← get?_eq_some_iff, h]
  have hperm : m.entries.Perm n.entries :=
    (List.perm_ext_iff_of_nodup m.nodup_entries n.nodup_entries).mpr hmem
  refine ByteMap.ext (hperm.eq_of_pairwise ?_ m.ascending n.ascending)
  intro a b _ _ hab hba
  exact absurd hba (UInt8.lt_asymm hab)

theorem lookup_insertEntry (b c : UInt8) (v : α) (l : List (UInt8 × α)) :
    (insertEntry b v l).lookup c = if c = b then some v else l.lookup c := by
  induction l with
  | nil => exact lookup_cons_eq_ite c (b, v) []
  | cons e rest ih =>
      unfold insertEntry
      split
      · exact lookup_cons_eq_ite c (b, v) (e :: rest)
      · split
        · next heq =>
            rw [lookup_cons_eq_ite, lookup_cons_eq_ite, heq]
            split <;> rfl
        · next hne =>
            rw [lookup_cons_eq_ite, lookup_cons_eq_ite, ih]
            by_cases hc : c = e.1
            · have hcb : c ≠ b := fun h => hne (h.symm.trans hc)
              rw [if_pos hc, if_neg hcb, if_pos hc]
            · rw [if_neg hc, if_neg hc]

theorem get?_insert (m : ByteMap α) (b c : UInt8) (v : α) :
    (m.insert b v).get? c = if c = b then some v else m.get? c :=
  lookup_insertEntry b c v m.entries

theorem contains_eq_false_iff {m : ByteMap α} {b : UInt8} : m.contains b = false ↔ m.get? b = none := by
  simp [contains]

theorem contains_insert_eq_false_iff
    {m : ByteMap α}
    {b c : UInt8}
    {v : α} :
    (m.insert b v).contains c = false ↔ c ≠ b ∧ m.contains c = false := by
  simp only [contains_eq_false_iff, get?_insert]
  split
  · next heq => simp [heq]
  · next hne => simp [hne]

/-- A new entry is added to the others. -/
theorem get?_insert_eq_some_iff
    {m : ByteMap α}
    {e : UInt8 × α}
    (hnew : m.contains e.1 = false)
    {b : UInt8}
    {v : α} :
    (m.insert e.1 e.2).get? b = some v ↔ (b, v) = e ∨ m.get? b = some v := by
  rw [contains_eq_false_iff] at hnew
  rw [get?_insert, Prod.ext_iff]
  split
  · next heq => simp [heq, hnew, eq_comm]
  · next hne => simp [hne]

/-- Entries for different bytes are those of a map. -/
theorem exists_of_nodup
    {entries : List (UInt8 × α)}
    (h : (entries.map (·.1)).Nodup) :
    ∃ m : ByteMap α, ∀ b v, m.get? b = some v ↔ (b, v) ∈ entries := by
  induction entries with
  | nil => exact ⟨empty, by simp⟩
  | cons e entries ih =>
      rw [List.map_cons, List.nodup_cons] at h
      obtain ⟨m, hm⟩ := ih h.2
      have hnew : m.contains e.1 = false := by
        rw [contains_eq_false_iff, Option.eq_none_iff_forall_not_mem]
        intro v hv
        exact h.1 (List.mem_map.mpr ⟨(e.1, v), (hm e.1 v).mp hv, rfl⟩)
      refine ⟨m.insert e.1 e.2, fun b v => ?_⟩
      rw [get?_insert_eq_some_iff hnew, hm, List.mem_cons]

theorem get?_erase (m : ByteMap α) (b c : UInt8) :
    (m.erase b).get? c = if c = b then none else m.get? c := by
  refine Option.ext fun v => ?_
  rw [get?_eq_some_iff]
  by_cases hc : c = b
  · simp [erase, hc]
  · simp [erase, hc, get?_eq_some_iff]

/-- Every byte, ascending. -/
def bytes : List UInt8 := (List.range 256).map UInt8.ofNat

theorem mem_bytes (b : UInt8) : b ∈ bytes :=
  List.mem_map.mpr ⟨b.toNat, List.mem_range.mpr b.toNat_lt, UInt8.ofNat_toNat⟩

theorem ascending_bytes : bytes.Pairwise (· < ·) := by
  refine List.pairwise_map.mpr (List.pairwise_lt_range.imp_of_mem ?_)
  intro m n hm hn hlt
  rw [List.mem_range] at hm hn
  rw [UInt8.lt_iff_toNat_lt, UInt8.toNat_ofNat_of_lt' hm, UInt8.toNat_ofNat_of_lt' hn]
  exact hlt

theorem ascending_filterMap {f : UInt8 → Option α} {l : List UInt8} (h : l.Pairwise (· < ·)) :
    (l.filterMap fun b => (f b).map fun v => (b, v)).Pairwise fun x y => x.1 < y.1 := by
  refine List.pairwise_filterMap.mpr (h.imp fun hlt => ?_)
  intro e he d hd
  obtain ⟨v, _, rfl⟩ := Option.map_eq_some_iff.mp he
  obtain ⟨w, _, rfl⟩ := Option.map_eq_some_iff.mp hd
  exact hlt

/-- The map of a function's values. -/
def tabulate (f : UInt8 → Option α) : ByteMap α where
  entries := bytes.filterMap fun b => (f b).map fun v => (b, v)
  ascending := ascending_filterMap ascending_bytes

@[simp] theorem get?_tabulate (f : UInt8 → Option α) (b : UInt8) :
    (tabulate f).get? b = f b := by
  refine Option.ext fun v => ?_
  rw [get?_eq_some_iff]
  simp [tabulate, mem_bytes]

/-- The values of a tabulated map, in the order of the bytes. -/
theorem values_tabulate (f : UInt8 → Option α) : (tabulate f).values = bytes.filterMap f := by
  rw [values, tabulate, List.map_filterMap]
  refine List.filterMap_congr fun b _ => ?_
  rw [Option.map_map]
  exact Option.map_id'

theorem eq_tabulate (m : ByteMap α) : m = tabulate m.get? :=
  ext_get? fun b => (get?_tabulate m.get? b).symm

theorem length_entries_le (m : ByteMap α) : m.entries.length ≤ 256 := by
  rw [eq_tabulate m]
  have h := List.length_filterMap_le (fun b => (m.get? b).map fun v => (b, v)) bytes
  simpa [tabulate, bytes] using h

end ByteMap
end MerkleSync
