import MerkleSync.Proofs.Agreement
import MerkleSync.Proofs.DigestBinding
import MerkleSync.Proofs.QueryMeaning

/-!
# Where two tries part

The snapshots of two tries along one path are compared level by level.  A level
on which the digests of the siblings agree has the same members beside the path
on both sides, so off the path up to the first disagreement the two sets are the
same.

**Results.**
* `agree_off_agreement`: the comparison from any level on.
* `agree_off_divergence`: outside of the divergence both sets have the same
  members.
-/

namespace MerkleSync

theorem divergenceOf_isPrefix (held : Finset Ident) (path : Bytes) (theirs : List Digest) :
    divergenceOf held path theirs <+: path := by
  rw [divergenceOf]
  split
  · exact List.nil_prefix
  · exact agreement_isPrefix _ _ _

/-- The digests of a snapshot: that of this level, and those below if the path
goes on in the trie. -/
theorem siblings_snapshotAlong (held : Finset Ident) (q : Bytes) (b : UInt8) (rest : Bytes) :
    (snapshotAlong held q (b :: rest)).siblings =
      (canonical held q).digestExcept b ::
        if Occurs held (q ++ [b]) then (snapshotAlong held (q ++ [b]) rest).siblings else [] := by
  rw [snapshotAlong]
  split
  · rfl
  · rfl

section Comparison

variable {A B : Finset Ident} {scope : Bytes} {hashed : Bytes → Prop}

/-- Members on the path are the same while both sides have its node. -/
theorem mem_iff_of_full {q : Bytes} (hboth : q = [] ∨ Occurs A q ∧ Occurs B q)
    (hfull : identLength ≤ q.length) : AgreeUnder q A B := by
  rcases hboth with rfl | ⟨hoccA, hoccB⟩
  · exact absurd hfull (by decide)
  · obtain ⟨id, hid, rfl⟩ := hoccA.exists_mem hfull
    obtain ⟨id', hid', hsame⟩ := hoccB.exists_mem hfull
    obtain rfl := Ident.ext hsame
    intro other hother
    have heq : other.bytes = id'.bytes :=
      (hother.eq_of_length (id'.length_eq.trans other.length_eq.symm)).symm
    rw [Ident.ext heq]
    exact iff_of_true hid hid'

/-- **The comparison of two snapshots** from the level at `q` on. -/
theorem agree_off_agreement (hfree : CollisionFree hashed) (hA : ∀ x, Hashed A scope x → hashed x)
    (hB : ∀ x, Hashed B scope x → hashed x) :
    ∀ (rest q : Bytes), q ++ rest = scope → (q = [] ∨ Occurs A q ∧ Occurs B q) →
      ∀ id : Ident, q <+: id.bytes →
        ¬q ++ agreement rest (snapshotAlong A q rest).siblings (snapshotAlong B q rest).siblings
            <+: id.bytes →
          (id ∈ A ↔ id ∈ B)
  | [], q, _, _, id, hid, hoff => by
      rw [agreement_nil, List.append_nil] at hoff
      exact absurd hid hoff
  | b :: rest, q, hscope, hboth, id, hid, hoff => by
      have hlevel : q ++ [b] <+: scope := ⟨rest, by rw [← hscope]; simp⟩
      have hsplit : ∀ more : Bytes, q ++ b :: more = (q ++ [b]) ++ more := fun more => by simp
      rw [siblings_snapshotAlong, siblings_snapshotAlong, agreement] at hoff
      by_cases hdigest : (canonical A q).digestExcept b = (canonical B q).digestExcept b
      · rw [if_pos hdigest, hsplit] at hoff
        by_cases hon : q ++ [b] <+: id.bytes
        · by_cases hocc : Occurs A (q ++ [b]) ∧ Occurs B (q ++ [b])
          · rw [if_pos hocc.1, if_pos hocc.2] at hoff
            exact agree_off_agreement hfree hA hB rest (q ++ [b])
              ((hsplit rest).symm.trans hscope) (Or.inr hocc) id hon hoff
          · -- the shorter snapshot ends here, so the agreement does
            refine absurd ?_ hoff
            rcases not_and_or.mp hocc with hnot | hnot
            · rw [if_neg hnot, agreement_nil_left, List.append_nil]
              exact hon
            · rw [if_neg hnot, agreement_nil_right, List.append_nil]
              exact hon
        · rcases Nat.lt_or_ge q.length identLength with hlen | hfull
          · obtain ⟨c, hc⟩ := exists_next hid hlen
            have hne : c ≠ b := by
              rintro rfl
              exact hon hc
            exact agree_of_digestExcept_eq hfree hA hB hlevel hdigest hne id hc
          · exact mem_iff_of_full hboth hfull id hid
      · rw [if_neg hdigest, List.append_nil] at hoff
        exact absurd hid hoff

/-- **Outside of the divergence** both sets have the same members. -/
theorem agree_off_divergence (hfree : CollisionFree hashed) (hA : ∀ x, Hashed A scope x → hashed x)
    (hB : ∀ x, Hashed B scope x → hashed x) (id : Ident)
    (hoff : ¬divergenceOf A scope (snapshotAlong B [] scope).siblings <+: id.bytes) :
    id ∈ A ↔ id ∈ B := by
  rw [divergenceOf] at hoff
  split at hoff
  · exact absurd List.nil_prefix hoff
  · exact agree_off_agreement hfree hA hB scope [] rfl (Or.inl rfl) id List.nil_prefix hoff

end Comparison
end MerkleSync
