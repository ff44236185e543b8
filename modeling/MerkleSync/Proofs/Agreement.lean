import Mathlib.Order.Bounds.Defs
import Mathlib.Order.Nat
import MerkleSync.Engine.Query

/-!
# The agreement of two lists of digests

The comparison of two lists along a path goes on while both have the same digest,
and ends at the latest with the path.  So it keeps as many bytes of the path as
digests agree, and all that is to be said about it follows from when a number of
digests agrees.

**Results.**
* `agreement_eq_take`: the agreement is the path cut at the agreed length.
* `le_agreedLength_iff`: when a number of digests agrees.
* `agreement_comm`, `agreement_isPrefix_append`, `agreement_congr`: the order of
  the lists, longer paths and lists, and what stands behind a difference.
* `agreement_is_longest`: the agreement is the longest one, with all of these.
-/

namespace MerkleSync

/-- The number of digests, from the first on, that two lists have in common. -/
def agreedLength : (ours theirs : List Digest) → Nat
  | d :: ours, d' :: theirs => if d = d' then agreedLength ours theirs + 1 else 0
  | _, _ => 0

section Length

/-- **A number of digests agrees** if both lists have them, and they are the same. -/
theorem le_agreedLength_iff :
    ∀ {k : Nat} {ours theirs : List Digest},
      k ≤ agreedLength ours theirs ↔ ∀ i < k, ∃ d ∈ ours[i]?, d ∈ theirs[i]?
  | 0, _, _ => by simp
  | k + 1, [], theirs => by
      rw [Nat.forall_lt_succ_left]
      simp [agreedLength]
  | k + 1, d :: ours, [] => by
      rw [Nat.forall_lt_succ_left]
      simp [agreedLength]
  | k + 1, d :: ours, d' :: theirs => by
      rw [Nat.forall_lt_succ_left]
      by_cases hd : d = d'
      · simp [agreedLength, hd, le_agreedLength_iff]
      · simp [agreedLength, hd, Ne.symm hd]

/-- The same in terms of the lengths of the lists. -/
theorem le_agreedLength_iff_length
    {k : Nat}
    {ours theirs : List Digest} :
    k ≤ agreedLength ours theirs ↔
      k ≤ ours.length ∧ k ≤ theirs.length ∧ ∀ i < k, ours[i]? = theirs[i]? := by
  rw [le_agreedLength_iff]
  constructor
  · intro hagree
    refine ⟨le_of_forall_lt fun i hi => ?_, le_of_forall_lt fun i hi => ?_, fun i hi => ?_⟩
    · obtain ⟨d, hours, _⟩ := hagree i hi
      exact (List.getElem?_eq_some_iff.mp hours).1
    · obtain ⟨d, _, htheirs⟩ := hagree i hi
      exact (List.getElem?_eq_some_iff.mp htheirs).1
    · obtain ⟨d, hours, htheirs⟩ := hagree i hi
      exact hours.trans htheirs.symm
  · rintro ⟨hours, htheirs, heq⟩ i hi
    have hbound : i < ours.length := Nat.lt_of_lt_of_le hi hours
    exact ⟨ours[i], List.getElem?_eq_getElem hbound,
      (heq i hi).symm.trans (List.getElem?_eq_getElem hbound)⟩

theorem agreedLength_comm (ours theirs : List Digest) :
    agreedLength ours theirs = agreedLength theirs ours := by
  refine eq_of_forall_le_iff fun k => ?_
  rw [le_agreedLength_iff, le_agreedLength_iff]
  simp only [and_comm]

theorem agreedLength_le_append (ours theirs moreOurs moreTheirs : List Digest) :
    agreedLength ours theirs ≤ agreedLength (ours ++ moreOurs) (theirs ++ moreTheirs) := by
  rw [le_agreedLength_iff]
  intro i hi
  obtain ⟨d, hours, htheirs⟩ := le_agreedLength_iff.mp le_rfl i hi
  have hboundOurs := (List.getElem?_eq_some_iff.mp hours).1
  have hboundTheirs := (List.getElem?_eq_some_iff.mp htheirs).1
  rw [List.getElem?_append_left hboundOurs, List.getElem?_append_left hboundTheirs]
  exact ⟨d, hours, htheirs⟩

/-- What stands behind an index at which two lists differ does not count. -/
theorem agreedLength_congr
    {ours theirs ours' theirs' : List Digest}
    {j : Nat}
    (hdiffer : ours[j]? ≠ theirs[j]?)
    (hours : ∀ i ≤ j, ours'[i]? = ours[i]?)
    (htheirs : ∀ i ≤ j, theirs'[i]? = theirs[i]?) :
    agreedLength ours' theirs' = agreedLength ours theirs := by
  refine eq_of_forall_le_iff fun k => ?_
  rw [le_agreedLength_iff, le_agreedLength_iff]
  by_cases hk : k ≤ j
  · refine forall₂_congr fun i hi => ?_
    rw [hours i (by omega), htheirs i (by omega)]
  · have hnone : ¬∃ d ∈ ours[j]?, d ∈ theirs[j]? := by
      rintro ⟨d, hmem, hmem'⟩
      exact hdiffer (hmem.trans hmem'.symm)
    refine iff_of_false (fun hagree => ?_) fun hagree => hnone (hagree j (by omega))
    have hatDifference := hagree j (by omega)
    rw [hours j le_rfl, htheirs j le_rfl] at hatDifference
    exact hnone hatDifference

end Length

section Agreement

theorem agreement_eq_take :
    ∀ (path : Bytes) (ours theirs : List Digest),
      agreement path ours theirs = path.take (agreedLength ours theirs)
  | [], _, _ => by simp [agreement]
  | b :: path, [], theirs => by simp [agreement, agreedLength]
  | b :: path, d :: ours, [] => by simp [agreement, agreedLength]
  | b :: path, d :: ours, d' :: theirs => by
      by_cases hd : d = d'
      · simp [agreement, agreedLength, hd, agreement_eq_take path ours theirs]
      · simp [agreement, agreedLength, hd]

theorem agreement_nil (ours theirs : List Digest) : agreement [] ours theirs = [] := rfl

theorem agreement_nil_left (path : Bytes) (theirs : List Digest) :
    agreement path [] theirs = [] := by
  simp [agreement_eq_take, agreedLength]

theorem agreement_comm (path : Bytes) (ours theirs : List Digest) :
    agreement path ours theirs = agreement path theirs ours := by
  rw [agreement_eq_take, agreement_eq_take, agreedLength_comm]

theorem agreement_nil_right (path : Bytes) (ours : List Digest) :
    agreement path ours [] = [] := by
  rw [agreement_comm, agreement_nil_left]

/-- Two lists agree along a beginning of the path. -/
theorem agreement_isPrefix (path : Bytes) (ours theirs : List Digest) :
    agreement path ours theirs <+: path := by
  rw [agreement_eq_take]
  exact List.take_prefix _ path

theorem agreement_isPrefix_append
    (path more : Bytes)
    (ours theirs moreOurs moreTheirs : List Digest) :
    agreement path ours theirs <+:
      agreement (path ++ more) (ours ++ moreOurs) (theirs ++ moreTheirs) := by
  have hle := agreedLength_le_append ours theirs moreOurs moreTheirs
  rw [agreement_eq_take, agreement_eq_take, List.prefix_take_iff]
  refine ⟨(List.take_prefix _ path).trans (List.prefix_append path more), ?_⟩
  exact (List.length_take_le _ path).trans hle

theorem agreement_congr
    (path : Bytes)
    {ours theirs ours' theirs' : List Digest}
    {j : Nat}
    (hdiffer : ours[j]? ≠ theirs[j]?)
    (hours : ∀ i ≤ j, ours'[i]? = ours[i]?)
    (htheirs : ∀ i ≤ j, theirs'[i]? = theirs[i]?) :
    agreement path ours' theirs' = agreement path ours theirs := by
  rw [agreement_eq_take, agreement_eq_take, agreedLength_congr hdiffer hours htheirs]

end Agreement

/-- **The agreement is the longest one.**  For a path and two lists of any lengths it is
the first `k` bytes of the path, for the greatest `k` that exceeds none of the three
lengths and such that the lists have the same digests at all indices below `k`.  So it
does not depend on the order of the lists; it only grows, at its end, with the path and
the lists; and it depends on neither list behind an index at which they differ, the first
one above all, whether the digests there are different or one list has ended. -/
theorem agreement_is_longest (path : Bytes) (ours theirs : List Digest) :
    (∃ k, agreement path ours theirs = path.take k ∧
      IsGreatest {k | k ≤ path.length ∧ k ≤ ours.length ∧ k ≤ theirs.length ∧
        ∀ i < k, ours[i]? = theirs[i]?} k) ∧
    agreement path ours theirs = agreement path theirs ours ∧
    (∀ (more : Bytes) (moreOurs moreTheirs : List Digest), agreement path ours theirs <+:
      agreement (path ++ more) (ours ++ moreOurs) (theirs ++ moreTheirs)) ∧
    ∀ j : Nat, ours[j]? ≠ theirs[j]? → ∀ ours' theirs' : List Digest,
      (∀ i ≤ j, ours'[i]? = ours[i]?) → (∀ i ≤ j, theirs'[i]? = theirs[i]?) →
        agreement path ours' theirs' = agreement path ours theirs := by
  refine ⟨⟨min (agreedLength ours theirs) path.length, ?_, ?_, ?_⟩,
    agreement_comm path ours theirs,
    fun more => agreement_isPrefix_append path more ours theirs,
    fun j hdiffer ours' theirs' => agreement_congr path hdiffer⟩
  · rw [agreement_eq_take, List.take_eq_take_min]
  · exact ⟨min_le_right _ _, le_agreedLength_iff_length.mp (min_le_left _ _)⟩
  · rintro k ⟨hpath, hagree⟩
    exact le_min (le_agreedLength_iff_length.mpr hagree) hpath

/-- Two lists that differ at their second digest, with other digests behind it and with
fewer. -/
theorem agreement_is_longest_behind_difference :
    let d : Digest := .empty
    let d' : Digest := ⟨List.replicate digestLength 1, List.length_replicate⟩
    [d, d', d][1]? ≠ [d, d, d][1]? ∧
      agreement [97, 98, 99] [d, d'] [d, d, d', d] = agreement [97, 98, 99] [d, d', d] [d, d, d] ∧
      agreement [97, 98, 99] [d, d', d] [d, d, d] = [97] := by
  intro d d'
  have hdiffer : [d, d', d][1]? ≠ [d, d, d][1]? := by decide
  obtain ⟨_, _, _, hbehind⟩ := agreement_is_longest [97, 98, 99] [d, d', d] [d, d, d]
  exact ⟨hdiffer, hbehind 1 hdiffer [d, d'] [d, d, d', d] (by decide) (by decide), by decide⟩

end MerkleSync
