import Mathlib.Data.List.Basic
import MerkleSync.Ident

/-!
# Ascending lists of identifiers

A strictly ascending list is determined by its members.  Sorting makes a list
strictly ascending if it has no repetitions, and dropping the repetitions of a
sorted list does so too.

**Results.**
* `Ascending.ext`: two ascending lists with the same members are equal.
* `ascending_sort`, `ascending_dropRepeats_sort`: the two ways to one.
-/

namespace MerkleSync

/-- Strictly ascending in the order of the bytes. -/
def Ascending (ids : List Ident) : Prop :=
  ids.Pairwise fun a b => compare a.bytes b.bytes = .lt

namespace Ident

theorem le_trans' (a b c : Ident) (hab : le a b) (hbc : le b c) : le a c :=
  Std.TransOrd.isLE_trans hab hbc

theorem le_total' (a b : Ident) : (le a b || le b a) = true := by
  rw [Bool.or_eq_true]
  by_cases h : le a b
  · exact Or.inl h
  · right
    have hgt : compare a.bytes b.bytes = .gt := by
      simpa [le, ← Ordering.isGT_iff_eq_gt] using h
    rw [le, Std.OrientedOrd.eq_swap, hgt]
    rfl

theorem lt_of_le_of_ne' {a b : Ident} (hle : le a b) (hne : a ≠ b) :
    compare a.bytes b.bytes = .lt := by
  rcases Ordering.isLE_iff_eq_lt_or_eq_eq.mp hle with hlt | heq
  · exact hlt
  · exact absurd (ext (Std.LawfulEqOrd.eq_of_compare heq)) hne

theorem not_lt_self (a : Ident) : ¬compare a.bytes a.bytes = .lt := by
  rw [Std.ReflOrd.compare_self]
  decide

theorem mem_sort {a : Ident} {ids : List Ident} : a ∈ sort ids ↔ a ∈ ids :=
  List.mem_mergeSort

theorem sorted_sort (ids : List Ident) : (sort ids).Pairwise fun a b => le a b :=
  List.pairwise_mergeSort le_trans' le_total' ids

/-- **Sorting** a list without repetitions makes it strictly ascending. -/
theorem ascending_sort {ids : List Ident} (h : ids.Nodup) : Ascending (sort ids) := by
  have hnodup : (sort ids).Nodup := (List.mergeSort_perm ids le).nodup_iff.mpr h
  exact ((sorted_sort ids).and hnodup).imp fun ⟨hle, hne⟩ => lt_of_le_of_ne' hle hne

theorem mem_dropRepeats {a : Ident} : ∀ {ids : List Ident}, a ∈ dropRepeats ids ↔ a ∈ ids
  | [] => Iff.rfl
  | [b] => Iff.rfl
  | b :: c :: rest => by
      have ih : a ∈ dropRepeats (c :: rest) ↔ a ∈ c :: rest := mem_dropRepeats
      rw [dropRepeats]
      split
      · next heq =>
          rw [ih, heq]
          simp
      · rw [List.mem_cons, ih, ← List.mem_cons]

/-- **Dropping the repetitions** of a sorted list makes it strictly ascending. -/
theorem ascending_dropRepeats :
    ∀ {ids : List Ident}, (ids.Pairwise fun a b => le a b) → Ascending (dropRepeats ids)
  | [], _ => List.Pairwise.nil
  | [b], _ => List.pairwise_singleton _ b
  | b :: c :: rest, h => by
      obtain ⟨hhead, htail⟩ := List.pairwise_cons.mp h
      have ih := ascending_dropRepeats htail
      rw [dropRepeats]
      split
      · exact ih
      · next hne =>
          refine List.pairwise_cons.mpr ⟨fun d hd => ?_, ih⟩
          rw [mem_dropRepeats] at hd
          have hbc := lt_of_le_of_ne' (hhead c List.mem_cons_self) hne
          rcases List.mem_cons.mp hd with rfl | hd
          · exact hbc
          · have hcd : le c d := (List.pairwise_cons.mp htail).1 d hd
            exact Std.TransCmp.lt_of_lt_of_isLE hbc hcd

theorem ascending_dropRepeats_sort (ids : List Ident) : Ascending (dropRepeats (sort ids)) :=
  ascending_dropRepeats (sorted_sort ids)

end Ident

theorem Ascending.nodup {ids : List Ident} (h : Ascending ids) : ids.Nodup :=
  h.imp fun hlt => fun heq => Ident.not_lt_self _ (heq ▸ hlt)

/-- **An ascending list is determined by its members.** -/
theorem Ascending.ext {ids ids' : List Ident} (h : Ascending ids) (h' : Ascending ids')
    (hmem : ∀ id, id ∈ ids ↔ id ∈ ids') : ids = ids' := by
  have hperm : ids.Perm ids' := (List.perm_ext_iff_of_nodup h.nodup h'.nodup).mpr hmem
  refine hperm.eq_of_pairwise ?_ h h'
  intro a b _ _ hab hba
  exact absurd (Std.TransCmp.lt_trans hab hba) (Ident.not_lt_self a)

end MerkleSync
