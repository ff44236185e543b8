import Mathlib.Data.Nat.Find
import MerkleSync.Proofs.Divergence
import MerkleSync.Proofs.SetRefinement

/-!
# What a snapshot says of the set

A snapshot of a path follows it as far as members of the set do, and one byte
further if the path goes on.  Each byte on the way stands for a level: for the
members that share the bytes before it and go on with another one.  The snapshot
gives the digest of these members for every level, and the number of members that
share all bytes up to where the path leaves the set.

**Results.**
* `digestExcept_canonical`: the digest of a level, from the members beside it.
* `reach_cons`: how far members follow a path, byte by byte.
* `path_snapshotAlong_eq`, `itemCount_snapshotAlong`, `siblings_snapshotAlong_eq`: the
  parts of a snapshot, from where it starts.
* `snapshot_describes_set`: the snapshot of any path after any history.
-/

namespace MerkleSync

/-- How many bytes of `rest` some member has after `path`. -/
def reach (held : Finset Ident) (path rest : Bytes) : Nat :=
  Nat.findGreatest (fun k => Occurs held (path ++ rest.take k)) rest.length

/-- The digest of the members that go on after `path` with another byte than `b`:
that of the digests of the subsets for each such byte, ascending. -/
def digestBeside (held : Finset Ident) (path : Bytes) (b : UInt8) : Digest :=
  Digest.combine ((ByteMap.bytes.filter fun c => c ≠ b ∧ Occurs held (path ++ [c])).map
    fun c => subsetDigest held (path ++ [c]))

section Levels

variable {held : Finset Ident}

/-- The other children of a node are those that occur. -/
theorem erase_canonical_children (held : Finset Ident) (path : Bytes) (b : UInt8) :
    (canonical held path).children.erase b = ByteMap.tabulate fun c =>
      if c ≠ b ∧ Occurs held (path ++ [c]) then some (canonical held (path ++ [c])).summary
      else none := by
  refine ByteMap.ext_get? fun c => ?_
  rw [ByteMap.get?_erase, get?_canonical_children, ByteMap.get?_tabulate]
  by_cases hc : c = b
  · rw [if_pos hc, if_neg fun h => h.1 hc]
  · rw [if_neg hc]
    exact if_congr (by simp [hc]) rfl rfl

/-- **The digest of a level** is that of the members beside the path. -/
theorem digestExcept_canonical (held : Finset Ident) (path : Bytes) (b : UInt8) :
    (canonical held path).digestExcept b = digestBeside held path b := by
  rw [Record.digestExcept, erase_canonical_children, childrenDigest, ByteMap.values_tabulate,
    digestBeside, List.map_filterMap]
  refine congrArg Digest.combine ?_
  induction ByteMap.bytes with
  | nil => rfl
  | cons c bytes ih =>
      rw [List.filterMap_cons, List.filter_cons, ih]
      by_cases hc : c ≠ b ∧ Occurs held (path ++ [c])
      · rw [if_pos hc, if_pos (decide_eq_true hc), Option.map_some, summary_canonical]
        rfl
      · rw [if_neg hc, if_neg (by rwa [decide_eq_true_iff]), Option.map_none]

/-- Without members beside the path the digest is the empty one. -/
theorem digestBeside_eq_empty {path : Bytes} {b : UInt8}
    (h : ∀ c, c ≠ b → ¬Occurs held (path ++ [c])) : digestBeside held path b = Digest.empty := by
  have hnone : (ByteMap.bytes.filter fun c => c ≠ b ∧ Occurs held (path ++ [c])) = [] :=
    List.filter_eq_nil_iff.mpr fun c _ => by
      rw [decide_eq_true_iff]
      exact fun hc => h c hc.1 hc.2
  rw [digestBeside, hnone]
  rfl

end Levels

section Walk

variable (held : Finset Ident)

/-- **One byte further**, members follow the path exactly if some occur there. -/
theorem reach_cons (path : Bytes) (b : UInt8) (rest : Bytes) :
    reach held path (b :: rest) =
      if Occurs held (path ++ [b]) then reach held (path ++ [b]) rest + 1 else 0 := by
  have hsplit : ∀ k, path ++ (b :: rest).take (k + 1) = (path ++ [b]) ++ rest.take k := by
    intro k
    rw [List.take_succ_cons, List.append_assoc, List.singleton_append]
  rw [reach, Nat.findGreatest_eq_iff]
  split
  · next hocc =>
      obtain ⟨hle, hreached, hgreatest⟩ := Nat.findGreatest_eq_iff.mp
        (rfl : reach held (path ++ [b]) rest = reach held (path ++ [b]) rest)
      refine ⟨Nat.succ_le_succ hle, fun _ => ?_, fun n hlt hn => ?_⟩
      · rw [hsplit]
        by_cases hzero : reach held (path ++ [b]) rest = 0
        · rw [hzero, List.take_zero, List.append_nil]
          exact hocc
        · exact hreached hzero
      · obtain ⟨n, rfl⟩ := Nat.exists_eq_succ_of_ne_zero (Nat.ne_zero_of_lt hlt)
        rw [Nat.succ_eq_add_one, hsplit]
        exact hgreatest (Nat.lt_of_succ_lt_succ hlt) (Nat.le_of_succ_le_succ hn)
  · next hnot =>
      refine ⟨Nat.zero_le _, fun hzero => absurd rfl hzero, fun n hlt _ => ?_⟩
      obtain ⟨n, rfl⟩ := Nat.exists_eq_succ_of_ne_zero (Nat.ne_zero_of_lt hlt)
      rw [Nat.succ_eq_add_one, hsplit]
      exact fun hlong => hnot (hlong.of_isPrefix (List.prefix_append (path ++ [b]) _))

/-- The path of a snapshot: as far as members follow, and one byte further. -/
theorem path_snapshotAlong_eq (rest path : Bytes) :
    (snapshotAlong held path rest).path = path ++ rest.take (reach held path rest + 1) := by
  induction rest generalizing path with
  | nil => rw [List.take_nil, List.append_nil]; rfl
  | cons b rest ih =>
      rw [snapshotAlong, reach_cons, List.take_succ_cons]
      split
      · rw [ih, List.append_assoc, List.singleton_append]
      · rw [List.take_zero]

/-- The count of a snapshot: the members where the walk ends. -/
theorem itemCount_snapshotAlong (rest path : Bytes) :
    (snapshotAlong held path rest).itemCount =
      (canonical held (path ++ rest.take (reach held path rest))).itemCount := by
  induction rest generalizing path with
  | nil => rw [List.take_nil, List.append_nil]; rfl
  | cons b rest ih =>
      rw [snapshotAlong, reach_cons]
      split
      · rw [ih, List.take_succ_cons, List.append_assoc, List.singleton_append]
      · rw [List.take_zero, List.append_nil]

/-- The digests of a snapshot: one for each byte of its path. -/
theorem siblings_snapshotAlong_eq (rest path : Bytes) :
    (snapshotAlong held path rest).siblings =
      (rest.take (reach held path rest + 1)).mapIdx fun i b =>
        digestBeside held (path ++ rest.take i) b := by
  induction rest generalizing path with
  | nil => rfl
  | cons b rest ih =>
      have hlevel : path ++ (b :: rest).take 0 = path := List.append_nil path
      rw [siblings_snapshotAlong, reach_cons, List.take_succ_cons, List.mapIdx_cons, hlevel,
        digestExcept_canonical]
      split
      · rw [ih]
        simp only [List.take_succ_cons, List.append_assoc, List.singleton_append]
      · rfl

end Walk

/-- **Snapshots describe the set alone.**  Any engine opened on a namespace without
records makes any steps, and `held` is the set its accepted mutations leave.  Whatever
is loaded, a path has a snapshot.  With `k` bytes of the path that some member starts
with, the snapshot's path has one byte more unless the path ends there, its siblings are
the digests of the members beside each byte of that path, and its count is that of the
members that start with the `k` bytes. -/
theorem snapshot_describes_set {config : EngineConfig} {sys : System}
    (h : OpenedBlank config sys) (steps : List Step) (path : Bytes) :
    let last := (sys.run steps).2
    let held := setLeft ∅ (sys.run steps).1
    let k := Nat.findGreatest (fun k => Occurs held (path.take k)) path.length
    ∃ snap, last.engine.snapshot last.store path = .ok snap ∧
      snap.path = (if k = path.length then path else path.take (k + 1)) ∧
      snap.siblings = snap.path.mapIdx (fun i b => digestBeside held (path.take i) b) ∧
      (∀ i b, snap.path[i]? = some b → (∀ c, c ≠ b → ¬Occurs held (path.take i ++ [c])) →
        snap.siblings[i]? = some Digest.empty) ∧
      snap.itemCount = UInt64.ofNat (under held (path.take k)).card ∧
      (held.card < 2 ^ 64 → snap.itemCount.toNat = (under held (path.take k)).card) := by
  intro last held k
  have hlast : last.Coherent held := (run_of_opened h steps).1
  have hpath : (snapshotAlong held [] path).path = path.take (k + 1) :=
    path_snapshotAlong_eq held path []
  have hsiblings : (snapshotAlong held [] path).siblings =
      (snapshotAlong held [] path).path.mapIdx fun i b => digestBeside held (path.take i) b := by
    rw [hpath]
    exact siblings_snapshotAlong_eq held path []
  have hcount : (snapshotAlong held [] path).itemCount =
      UInt64.ofNat (under held (path.take k)).card :=
    (itemCount_snapshotAlong held path []).trans (canonical_itemCount held _)
  refine ⟨snapshotAlong held [] path, Engine.snapshot_of_coherent hlast path, ?_, hsiblings, ?_,
    hcount, fun hcard => ?_⟩
  · rw [hpath]
    split
    · next hend => rw [hend, List.take_of_length_le (Nat.le_succ _)]
    · rfl
  · intro i b hbyte halone
    rw [hsiblings, List.getElem?_mapIdx, hbyte, Option.map_some, digestBeside_eq_empty halone]
  · rw [hcount]
    exact UInt64.toNat_ofNat_of_lt' ((Finset.card_filter_le held _).trans_lt hcard)

/-- With the identifiers of zeros and of sevens, a path may leave the set after its first
byte: the snapshot has the sevens beside that byte and nothing beside the next one. -/
theorem snapshot_describes_set_leaving :
    let steps := reliably [.insert (constantIdent 0), .unload [0], .insert (constantIdent 7)]
    let last := ((System.blank {}).run steps).2
    OpenedBlank {} (System.blank {}) ∧
      ∃ snap, last.engine.snapshot last.store [0, 5, 0] = .ok snap ∧
        snap.path = [0, 5] ∧ snap.itemCount = 1 ∧ snap.siblings.length = 2 := by
  intro steps last
  have hheld : setLeft ∅ ((System.blank {}).run steps).1 =
      {constantIdent 0, constantIdent 7} := by
    rw [System.setLeft_reliably (coherent_of_opened (openedBlank_blank {})).1]
    decide
  obtain ⟨snap, hsnap, hpath, hsiblings, _, hcount, _⟩ :=
    snapshot_describes_set (openedBlank_blank {}) steps [0, 5, 0]
  rw [hheld] at hpath hcount
  have hpath' : snap.path = [0, 5] := hpath.trans (by decide)
  refine ⟨openedBlank_blank {}, snap, hsnap, hpath', hcount.trans (by decide), ?_⟩
  rw [hsiblings, List.length_mapIdx, hpath']
  rfl

end MerkleSync
