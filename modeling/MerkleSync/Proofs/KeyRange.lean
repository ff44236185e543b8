import Mathlib.Data.List.Induction
import MerkleSync.Bytes

/-!
# The keys that start with given bytes

The keys with a common beginning form one range of the byte order: from the
beginning itself up to its successor, where there is one.  So the part of a
table that is read off this range is the filter of its entries by their
beginning.

**Results.**
* `isPrefix_iff_range`: a key starts with `start` exactly if it lies in the
  range from `start` to the successor of `start`.
* `successor_eq_none_iff`, `isLE_successor_of_bound`: where there is a successor,
  and that it is the least bound.
* `under_eq_filter`: the entries under `start` are those whose key starts with
  it, ascending by key.
-/

namespace MerkleSync
namespace Bytes

theorem compare_cons_lt_iff {b c : UInt8} {u v : Bytes} :
    compare (b :: u) (c :: v) = .lt ↔ b < c ∨ b = c ∧ compare u v = .lt := by
  rw [List.compare_cons_cons, Ordering.then_eq_lt, Std.compare_eq_lt,
    Std.LawfulEqOrd.compare_eq_iff_eq]

theorem compare_cons_isLE_iff {b c : UInt8} {u v : Bytes} :
    (compare (b :: u) (c :: v)).isLE ↔ b < c ∨ b = c ∧ (compare u v).isLE := by
  rw [List.compare_cons_cons, Ordering.isLE_then_iff_or, Std.compare_eq_lt,
    Std.LawfulEqOrd.compare_eq_iff_eq]

/-- A byte string is not below its beginnings. -/
theorem isLE_compare_of_isPrefix {start key : Bytes} (h : start <+: key) :
    (compare start key).isLE := by
  obtain ⟨rest, rfl⟩ := h
  induction start with
  | nil => exact List.isLE_compare_nil_left
  | cons b start ih => exact compare_cons_isLE_iff.mpr (Or.inr ⟨rfl, ih⟩)

theorem lt_add_one_iff {b c : UInt8} (hb : b ≠ 255) : c < b + 1 ↔ c ≤ b := by
  have hmax : b.toNat ≠ 255 := fun h => hb (UInt8.toNat_inj.mp h)
  have hlt := b.toNat_lt
  rw [UInt8.lt_iff_toNat_lt, UInt8.le_iff_toNat_le, UInt8.toNat_add]
  simp only [UInt8.reduceToNat]
  omega

theorem successor_nil : successor [] = none := rfl

/-- A last byte `0xff` is dropped. -/
theorem successor_append_max (start : Bytes) :
    successor (start ++ [255]) = successor start := by
  simp [successor, successorRev]

/-- Any other last byte is raised by one. -/
theorem successor_append_of_ne (start : Bytes) {b : UInt8} (hb : b ≠ 255) :
    successor (start ++ [b]) = some (start ++ [b + 1]) := by
  simp [successor, successorRev, hb]

/-- Between `start ++ [b]` and `start ++ [b + 1]` are the keys that start with
the former. -/
theorem isPrefix_iff_range_of_ne {b : UInt8} (hb : b ≠ 255) (start key : Bytes) :
    start ++ [b] <+: key ↔
      (compare (start ++ [b]) key).isLE ∧ compare key (start ++ [b + 1]) = .lt := by
  induction start generalizing key with
  | nil =>
      cases key with
      | nil => simp
      | cons c key =>
          rw [List.nil_append, List.nil_append, compare_cons_isLE_iff, compare_cons_lt_iff,
            lt_add_one_iff hb, List.cons_prefix_cons]
          simp only [List.nil_prefix, List.isLE_compare_nil_left, and_true]
          have hnil : compare key [] ≠ .lt := by cases key <;> simp
          constructor
          · rintro rfl
            exact ⟨Or.inr rfl, Or.inl (UInt8.le_refl b)⟩
          · rintro ⟨hlow, hhigh | ⟨_, h⟩⟩
            · rcases hlow with hlt | heq
              · exact absurd hlt (UInt8.not_lt.mpr hhigh)
              · exact heq
            · exact absurd h hnil
  | cons a start ih =>
      cases key with
      | nil => simp
      | cons c key =>
          rw [List.cons_append, List.cons_append, compare_cons_isLE_iff, compare_cons_lt_iff,
            List.cons_prefix_cons, ih]
          constructor
          · rintro ⟨rfl, hlow, hhigh⟩
            exact ⟨Or.inr ⟨rfl, hlow⟩, Or.inr ⟨rfl, hhigh⟩⟩
          · rintro ⟨hlow | ⟨rfl, hlow⟩, hhigh | ⟨hca, hhigh⟩⟩
            · exact absurd hhigh (UInt8.lt_asymm hlow)
            · exact absurd hlow (hca ▸ UInt8.lt_irrefl _)
            · exact absurd hhigh (UInt8.lt_irrefl _)
            · exact ⟨rfl, hlow, hhigh⟩

/-- Among the keys that start with `start`, those from `start ++ [0xff]` on
start with that. -/
theorem isPrefix_append_max_iff (start key : Bytes) :
    start ++ [255] <+: key ↔ start <+: key ∧ (compare (start ++ [255]) key).isLE := by
  constructor
  · intro h
    exact ⟨(List.prefix_append start [255]).trans h, isLE_compare_of_isPrefix h⟩
  · rintro ⟨⟨rest, rfl⟩, hle⟩
    induction start with
    | nil =>
        cases rest with
        | nil => simp at hle
        | cons c rest =>
            rw [List.nil_append, List.nil_append, compare_cons_isLE_iff] at hle
            have hmax := c.toNat_lt
            rcases hle with hlt | ⟨rfl, _⟩
            · rw [UInt8.lt_iff_toNat_lt] at hlt
              simp only [UInt8.reduceToNat] at hlt
              omega
            · simp
    | cons b start ih =>
        rw [List.cons_append, List.cons_append, compare_cons_isLE_iff] at hle
        rcases hle with hlt | ⟨_, hle⟩
        · exact absurd hlt (UInt8.lt_irrefl b)
        · rw [List.cons_append, List.cons_append, List.cons_prefix_cons]
          exact ⟨rfl, ih hle⟩

/-- **The keys that start with `start` are a range.** -/
theorem isPrefix_iff_range (start key : Bytes) :
    start <+: key ↔
      (compare start key).isLE ∧
        ∀ stop, successor start = some stop → compare key stop = .lt := by
  induction start using List.reverseRecOn with
  | nil => simp [successor_nil, List.isLE_compare_nil_left]
  | append_singleton start b ih =>
      by_cases hb : b = 255
      · subst hb
        rw [successor_append_max, isPrefix_append_max_iff, ih]
        constructor
        · rintro ⟨⟨_, hstop⟩, hle⟩
          exact ⟨hle, hstop⟩
        · rintro ⟨hle, hstop⟩
          have hstart := isLE_compare_of_isPrefix (List.prefix_append start [255])
          exact ⟨⟨Std.TransOrd.isLE_trans hstart hle, hstop⟩, hle⟩
      · rw [successor_append_of_ne start hb, isPrefix_iff_range_of_ne hb]
        simp

/-- Only bytes `0xff` leave no successor. -/
theorem successor_eq_none_iff (start : Bytes) :
    successor start = none ↔ ∀ b ∈ start, b = 255 := by
  induction start using List.reverseRecOn with
  | nil => simp [successor_nil]
  | append_singleton start b ih =>
      by_cases hb : b = 255
      · subst hb
        simp [successor_append_max, ih, or_imp]
      · rw [successor_append_of_ne start hb]
        simp [hb]

/-- **The successor is the least bound** of the keys that start with `start`. -/
theorem isLE_successor_of_bound {start stop bound : Bytes}
    (hstop : successor start = some stop)
    (hbound : ∀ key, start <+: key → compare key bound = .lt) :
    (compare stop bound).isLE := by
  by_contra hbelow
  have hlow : compare bound stop = .lt := Std.OrientedCmp.lt_of_not_isLE hbelow
  have hstart : (compare start bound).isLE := by simp [hbound start List.prefix_rfl]
  -- a lower bound would be a key that starts with `start`, and so below itself
  have hpre : start <+: bound := by
    refine (isPrefix_iff_range start bound).mpr ⟨hstart, fun other hother => ?_⟩
    rw [hstop] at hother
    exact Option.some.inj hother ▸ hlow
  have hself := hbound bound hpre
  simp at hself

end Bytes

namespace Table

variable {α : Type}

/-- **What is read off the range under `start`.** -/
theorem under_eq_filter (t : Table α) (start : Bytes) :
    t.under start = t.toList.filter fun entry => decide (start <+: entry.1) := by
  unfold under
  cases hstop : start.successor with
  | none =>
      simp only [Std.TreeMap.toList_rci]
      refine List.filter_congr fun entry _ => ?_
      rw [Bool.eq_iff_iff, decide_eq_true_iff, Bytes.isPrefix_iff_range, hstop,
        Std.OrientedCmp.isGE_iff_isLE]
      simp
  | some stop =>
      simp only [Std.TreeMap.toList_rco]
      refine List.filter_congr fun entry _ => ?_
      rw [Bool.eq_iff_iff, decide_eq_true_iff, decide_eq_true_iff, Bytes.isPrefix_iff_range, hstop,
        Std.OrientedCmp.isGE_iff_isLE]
      simp

theorem mem_under {t : Table α} {start key : Bytes} {value : α} :
    (key, value) ∈ t.under start ↔ start <+: key ∧ t[key]? = some value := by
  rw [under_eq_filter, List.mem_filter, Std.TreeMap.mem_toList_iff_getElem?_eq_some,
    decide_eq_true_iff, and_comm]

theorem ascending_under (t : Table α) (start : Bytes) :
    (t.under start).Pairwise fun a b => compare a.1 b.1 = .lt := by
  rw [under_eq_filter]
  exact Std.TreeMap.ordered_keys_toList.filter _

theorem mem_strictlyUnder {t : Table α} {start key : Bytes} {value : α} :
    (key, value) ∈ t.strictlyUnder start ↔
      start <+: key ∧ key ≠ start ∧ t[key]? = some value := by
  rw [strictlyUnder, List.mem_filter, mem_under, bne_iff_ne]
  exact ⟨fun ⟨⟨hpre, hget⟩, hne⟩ => ⟨hpre, hne, hget⟩,
    fun ⟨hpre, hne, hget⟩ => ⟨⟨hpre, hget⟩, hne⟩⟩

theorem getElem?_foldl_erase (entries : List (Bytes × α)) (t : Table α) (key : Bytes) :
    (entries.foldl (fun rest entry => rest.erase entry.1) t)[key]? =
      if key ∈ entries.map (·.1) then none else t[key]? := by
  induction entries generalizing t with
  | nil => simp
  | cons entry entries ih =>
      rw [List.foldl_cons, ih, Std.TreeMap.getElem?_erase]
      simp only [List.map_cons, List.mem_cons]
      by_cases hmem : key ∈ entries.map (·.1)
      · rw [if_pos hmem, if_pos (Or.inr hmem)]
      · rw [if_neg hmem]
        by_cases hkey : key = entry.1
        · rw [if_pos (Or.inl hkey), if_pos (by simp [hkey])]
        · have hne : ¬compare entry.1 key = .eq := fun h =>
            hkey (Std.LawfulEqOrd.eq_of_compare h).symm
          rw [if_neg hne, if_neg (not_or.mpr ⟨hkey, hmem⟩)]

/-- Only the entries strictly under `start` are dropped. -/
theorem getElem?_dropStrictlyUnder (t : Table α) (start key : Bytes) :
    (t.dropStrictlyUnder start)[key]? =
      if start <+: key ∧ key ≠ start then none else t[key]? := by
  rw [dropStrictlyUnder, getElem?_foldl_erase]
  by_cases hunder : start <+: key ∧ key ≠ start
  · rw [if_pos hunder]
    cases hget : t[key]? with
    | none => exact ite_self _
    | some value =>
        have hmem : (key, value) ∈ t.strictlyUnder start :=
          mem_strictlyUnder.mpr ⟨hunder.1, hunder.2, hget⟩
        exact if_pos (List.mem_map_of_mem (f := Prod.fst) hmem)
  · rw [if_neg hunder]
    refine if_neg fun hmem => hunder ?_
    obtain ⟨⟨found, value⟩, hin, rfl⟩ := List.mem_map.mp hmem
    have hfound := mem_strictlyUnder.mp hin
    exact ⟨hfound.1, hfound.2.1⟩

end Table
end MerkleSync
