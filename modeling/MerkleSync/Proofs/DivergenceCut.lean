import Mathlib.Data.Finset.SymmDiff
import MerkleSync.Proofs.Reconciliation
import MerkleSync.Proofs.SetBinding

/-!
# Where the divergence is cut

The divergence of two tries along a path covers every identifier that only one
of them has.  It is also as long as the two snapshots allow: it is cut before the
end of the path only where one of the snapshots ends, or right above a level
beside which the two sets differ.

**Results.**
* `tight_of_agreement`: why the comparison of two snapshots stops.
* `agreement_of_same`: between equal sets it stops where the snapshots end.
* `divergence_localises`: the divergence of any two engines.
-/

namespace MerkleSync

section Levels

variable {A B : Finset Ident}

/-- A snapshot ends with the first byte that leads to no node. -/
theorem path_snapshotAlong (held : Finset Ident) (q : Bytes) (b : UInt8) (rest : Bytes) :
    (snapshotAlong held q (b :: rest)).path =
      if Occurs held (q ++ [b]) then (snapshotAlong held (q ++ [b]) rest).path else q ++ [b] := by
  rw [snapshotAlong]
  split
  · rfl
  · rfl

/-- The digest of all children but one depends on the members below those. -/
theorem digestExcept_congr {q : Bytes} {b : UInt8}
    (h : ∀ c, c ≠ b → AgreeUnder (q ++ [c]) A B) :
    (canonical A q).digestExcept b = (canonical B q).digestExcept b := by
  refine congrArg childrenDigest (ByteMap.ext_get? fun c => ?_)
  rw [ByteMap.get?_erase, ByteMap.get?_erase, get?_canonical_children, get?_canonical_children]
  by_cases hc : c = b
  · rw [if_pos hc, if_pos hc]
  · have hocc : Occurs A (q ++ [c]) ↔ Occurs B (q ++ [c]) :=
      exists_congr fun id => and_congr_left (h c hc id)
    rw [if_neg hc, if_neg hc, canonical_congr (q ++ [c]) (h c hc)]
    exact if_congr hocc rfl rfl

/-- Different digests beside a path come from a difference beside it. -/
theorem exists_beside_of_digestExcept_ne {q : Bytes} {b : UInt8}
    (h : (canonical A q).digestExcept b ≠ (canonical B q).digestExcept b) :
    ∃ id ∈ symmDiff A B, q <+: id.bytes ∧ ¬q ++ [b] <+: id.bytes := by
  by_contra hnone
  refine h (digestExcept_congr fun c hc id hid => ?_)
  by_contra hdiffers
  refine hnone ⟨id, ?_, (List.prefix_append q [c]).trans hid, fun hb => hc (next_unique hid hb)⟩
  rw [Finset.mem_symmDiff]
  tauto

/-- **Why the comparison stops**: at the end of the path, where one of the
snapshots ends, or above a level beside which the sets differ. -/
theorem tight_of_agreement :
    ∀ (rest q d : Bytes),
      d = q ++ agreement rest (snapshotAlong A q rest).siblings (snapshotAlong B q rest).siblings →
        d = q ++ rest ∨ d = (snapshotAlong A q rest).path ∨ d = (snapshotAlong B q rest).path ∨
          ∃ id ∈ symmDiff A B, d <+: id.bytes ∧ ¬(q ++ rest).take (d.length + 1) <+: id.bytes
  | [], q, d, hd => Or.inl hd
  | b :: rest, q, d, hd => by
      have hsplit : q ++ b :: rest = (q ++ [b]) ++ rest := by simp
      rw [siblings_snapshotAlong, siblings_snapshotAlong, agreement] at hd
      by_cases hdigest : (canonical A q).digestExcept b = (canonical B q).digestExcept b
      · rw [if_pos hdigest] at hd
        rw [path_snapshotAlong, path_snapshotAlong, hsplit]
        by_cases hoccA : Occurs A (q ++ [b])
        · by_cases hoccB : Occurs B (q ++ [b])
          · rw [if_pos hoccA, if_pos hoccB] at hd ⊢
            exact tight_of_agreement rest (q ++ [b]) d (by rw [hd]; simp)
          · rw [if_neg hoccB, agreement_nil_right] at hd
            rw [if_neg hoccB]
            exact Or.inr (Or.inr (Or.inl hd))
        · rw [if_neg hoccA, agreement_nil_left] at hd
          rw [if_neg hoccA]
          exact Or.inr (Or.inl hd)
      · rw [if_neg hdigest, List.append_nil] at hd
        obtain ⟨id, hid, hon, hoff⟩ := exists_beside_of_digestExcept_ne hdigest
        have htake : (q ++ b :: rest).take (q.length + 1) = q ++ [b] := by
          rw [hsplit, List.take_left' (by simp)]
        refine Or.inr (Or.inr (Or.inr ⟨id, hid, ?_, ?_⟩))
        · rwa [hd]
        · rwa [hd, htake]

/-- Between equal sets the comparison stops where the snapshots end. -/
theorem agreement_of_same (held : Finset Ident) :
    ∀ rest q : Bytes,
      q ++ agreement rest (snapshotAlong held q rest).siblings
          (snapshotAlong held q rest).siblings =
        (snapshotAlong held q rest).path
  | [], q => List.append_nil q
  | b :: rest, q => by
      rw [siblings_snapshotAlong, path_snapshotAlong, agreement, if_pos rfl]
      by_cases hocc : Occurs held (q ++ [b])
      · rw [if_pos hocc, if_pos hocc, ← agreement_of_same held rest (q ++ [b])]
        simp
      · rw [if_neg hocc, if_neg hocc, agreement_nil_left]

/-- The divergence compares the two snapshots, also where both are empty. -/
theorem divergenceOf_siblings (path : Bytes) :
    divergenceOf A path (snapshotAlong B [] path).siblings =
      agreement path (snapshotAlong A [] path).siblings (snapshotAlong B [] path).siblings := by
  cases path with
  | nil => rfl
  | cons b rest =>
      rw [divergenceOf, if_neg]
      rw [siblings_snapshotAlong]
      exact Bool.false_ne_true

end Levels

/-- **The divergence localises the difference.**  Two engines have any histories
from blank namespaces, which leave the sets `A` and `B`.  For every path each of
them takes its snapshot and compares it with that of the other, and both find the
same divergence `d`, which begins the path.  Where no two strings that are hashed
for the two tries collide, it begins every identifier that only one of them has.
It is the whole path, or the path of one of the snapshots, or an identifier that
only one side has starts with `d` but leaves the path at its next byte.  Between
equal sets it is the path of the snapshot. -/
theorem divergence_localises {config config' : EngineConfig} {sys sys' : System}
    (h : OpenedBlank config sys) (h' : OpenedBlank config' sys') (steps steps' : List Step)
    (path : Bytes) :
    let near := (sys.run steps).2
    let far := (sys'.run steps').2
    let A := setLeft ∅ (sys.run steps).1
    let B := setLeft ∅ (sys'.run steps').1
    ∃ ours theirs d, near.engine.snapshot near.store path = .ok ours ∧
      far.engine.snapshot far.store path = .ok theirs ∧
      near.engine.divergence near.store path theirs.siblings = .ok d ∧
      far.engine.divergence far.store path ours.siblings = .ok d ∧
      d <+: path ∧
      (CollisionFree (ShownByEither near far path) → ∀ id ∈ symmDiff A B, d <+: id.bytes) ∧
      (d = path ∨ d = ours.path ∨ d = theirs.path ∨
        ∃ id ∈ symmDiff A B, d <+: id.bytes ∧ ¬path.take (d.length + 1) <+: id.bytes) ∧
      (A = B → d = ours.path) := by
  intro near far A B
  have hA : near.Coherent A := (run_of_opened h steps).1
  have hB : far.Coherent B := (run_of_opened h' steps').1
  refine ⟨snapshotAlong A [] path, snapshotAlong B [] path,
    agreement path (snapshotAlong A [] path).siblings (snapshotAlong B [] path).siblings,
    Engine.snapshot_of_coherent hA path, Engine.snapshot_of_coherent hB path, ?_, ?_,
    agreement_isPrefix _ _ _, ?_, tight_of_agreement path [] _ rfl, ?_⟩
  · rw [Engine.divergence_of_coherent hA, divergenceOf_siblings]
  · rw [Engine.divergence_of_coherent hB, divergenceOf_siblings, agreement_comm]
  · intro hfree id hid
    by_contra hoff
    rw [← divergenceOf_siblings] at hoff
    have hsame := agree_off_divergence hfree (fun x hx => Or.inl ((hashes_iff_hashed hA).mpr hx))
      (fun x hx => Or.inr ((hashes_iff_hashed hB).mpr hx)) id hoff
    rw [Finset.mem_symmDiff] at hid
    tauto
  · intro hsame
    rw [← hsame]
    exact agreement_of_same A path []

/-- An empty trie and one with an identifier beside the path. -/
theorem divergence_localises_beside :
    let near := System.blank {}
    let far := ((System.blank { ns := 255 }).run (reliably [.insert (constantIdent 0)])).2
    CollisionFree (ShownByEither near far [7]) ∧
      ∃ theirs, far.engine.snapshot far.store [7] = .ok theirs ∧
        near.engine.divergence near.store [7] theirs.siblings = .ok [] := by
  intro near far
  have hnear : OpenedBlank {} near := openedBlank_blank {}
  have hfar : OpenedBlank { ns := 255 } (System.blank { ns := 255 }) := openedBlank_blank _
  have hset : setLeft ∅ ((System.blank { ns := 255 }).run
      (reliably [.insert (constantIdent 0)])).1 = {constantIdent 0} := by
    rw [System.setLeft_reliably (coherent_of_opened hfar).1]
    decide
  have hB : far.Coherent {constantIdent 0} :=
    System.reliably_coherent (coherent_of_opened hfar).1 [.insert (constantIdent 0)]
  have hfree : CollisionFree (ShownByEither near far [7]) := by
    refine collisionFree_constantIdent.anti ?_
    rintro x (hx | hx)
    · exact absurd ((hashes_iff_hashed (coherent_of_opened hnear).1).mp hx) not_hashed_empty
    · exact Or.inr (hashed_singleton_of_scope ((hashes_iff_hashed hB).mp hx))
  obtain ⟨_, theirs, d, _, htheirs, hd, _, hpre, hcovers, _⟩ :=
    divergence_localises hnear hfar [] (reliably [.insert (constantIdent 0)]) [7]
  refine ⟨hfree, theirs, htheirs, ?_⟩
  have hzero : d <+: (constantIdent 0).bytes := by
    refine hcovers hfree (constantIdent 0) ?_
    rw [hset]
    decide
  have hcut : d = [] ++ [7] ∨ d <+: [] := List.prefix_concat_iff.mp hpre
  rcases hcut with rfl | hnil
  · exact absurd hzero (by decide)
  · rwa [List.prefix_nil.mp hnil] at hd

end MerkleSync
