import Mathlib.Algebra.BigOperators.Group.Finset.Basic
import Mathlib.Algebra.Ring.Nat
import MerkleSync.Proofs.ByteMapLookup
import MerkleSync.Record

/-!
# The canonical trie of a set

A finite set of identifiers has one trie: a node for every beginning of one of
its members, a leaf at full length, and otherwise a record made of the records
one byte further down.  It is defined here from the set alone; that engines
keep to it is shown elsewhere.

**Results.**
* `canonical_of_lt`, `canonical_of_mem`, `canonical_of_not_occurs`: the record
  of an inner node, of a leaf, and of a path that begins no member.
* `canonical_congr`: the record at a path depends only on the members that
  start with it.
* `canonical_itemCount`: it counts them.
* `checkShape_canonical`: it has the shape of a node at its depth.
-/

namespace MerkleSync

/-- Some identifier of the set starts with `path`. -/
def Occurs (held : Finset Ident) (path : Bytes) : Prop :=
  ∃ id ∈ held, path <+: id.bytes

instance (held : Finset Ident) (path : Bytes) : Decidable (Occurs held path) :=
  inferInstanceAs (Decidable (∃ id ∈ held, path <+: id.bytes))

/-- The identifiers of the set that start with `path`. -/
def under (held : Finset Ident) (path : Bytes) : Finset Ident :=
  held.filter fun id => path <+: id.bytes

/-- The record of the leaf at `path`, empty if the set has no such identifier. -/
def leafRecord (held : Finset Ident) (path : Bytes) : Record :=
  if h : path.length = identLength then
    if (⟨path, h⟩ : Ident) ∈ held then Record.leaf ⟨path, h⟩ else Record.empty
  else Record.empty

/-- The record of the node at `path` in the trie of a set, `height` levels
above the leaves. -/
def canonicalAt (held : Finset Ident) : (height : Nat) → (path : Bytes) → Record
  | 0, path => leafRecord held path
  | height + 1, path => Record.ofChildren <| ByteMap.tabulate fun b =>
      if Occurs held (path ++ [b]) then some (canonicalAt held height (path ++ [b])).summary
      else none

/-- The record of the node at `path` in the trie of a set. -/
def canonical (held : Finset Ident) (path : Bytes) : Record :=
  canonicalAt held (identLength - path.length) path

/-- The children of the node at `path`: one for each next byte that occurs. -/
def canonicalChildren (held : Finset Ident) (path : Bytes) : ByteMap Summary :=
  ByteMap.tabulate fun b =>
    if Occurs held (path ++ [b]) then some (canonical held (path ++ [b])).summary else none

section Paths

/-- Induction from the leaves to the root: a node comes after its children. -/
theorem path_induction {motive : Bytes → Prop}
    (leaf : ∀ path, identLength ≤ path.length → motive path)
    (node : ∀ path, path.length < identLength → (∀ b, motive (path ++ [b])) → motive path)
    (path : Bytes) : motive path := by
  induction h : identLength - path.length generalizing path with
  | zero => exact leaf path (by omega)
  | succ height ih =>
      refine node path (by omega) fun b => ih (path ++ [b]) ?_
      rw [List.length_append, List.length_singleton]
      omega

variable {held : Finset Ident} {path : Bytes}

theorem mem_under {id : Ident} : id ∈ under held path ↔ id ∈ held ∧ path <+: id.bytes :=
  Finset.mem_filter

theorem under_nil : under held [] = held := by
  simp [under]

theorem occurs_iff : Occurs held path ↔ (under held path).Nonempty := by
  simp only [Occurs, Finset.Nonempty, mem_under]

theorem occurs_of_mem {id : Ident} (h : id ∈ held) : Occurs held id.bytes :=
  ⟨id, h, List.prefix_rfl⟩

theorem Occurs.of_isPrefix {start : Bytes} (h : Occurs held path) (hpre : start <+: path) :
    Occurs held start := by
  obtain ⟨id, hid, hpath⟩ := h
  exact ⟨id, hid, hpre.trans hpath⟩

theorem Occurs.length_le (h : Occurs held path) : path.length ≤ identLength := by
  obtain ⟨id, _, hpath⟩ := h
  exact id.length_eq ▸ hpath.length_le

/-- A path of full length that begins a member is that member. -/
theorem Occurs.exists_mem (h : Occurs held path) (hlen : identLength ≤ path.length) :
    ∃ id ∈ held, id.bytes = path := by
  obtain ⟨id, hid, hpath⟩ := h
  exact ⟨id, hid, (hpath.eq_of_length_le (id.length_eq.le.trans hlen)).symm⟩

/-- A member that starts with a shorter path goes on with some byte. -/
theorem exists_next {id : Ident} (hpath : path <+: id.bytes) (hlen : path.length < identLength) :
    ∃ b, path ++ [b] <+: id.bytes := by
  obtain ⟨rest, hrest⟩ := hpath
  cases rest with
  | nil =>
      rw [List.append_nil] at hrest
      have := id.length_eq
      rw [← hrest] at this
      omega
  | cons b rest => exact ⟨b, rest, by rw [← hrest]; simp⟩

theorem Occurs.exists_next (h : Occurs held path) (hlen : path.length < identLength) :
    ∃ b, Occurs held (path ++ [b]) := by
  obtain ⟨id, hid, hpath⟩ := h
  obtain ⟨b, hb⟩ := MerkleSync.exists_next hpath hlen
  exact ⟨b, id, hid, hb⟩

/-- A member goes on with only one byte. -/
theorem next_unique {id : Ident} {b c : UInt8} (hb : path ++ [b] <+: id.bytes)
    (hc : path ++ [c] <+: id.bytes) : b = c := by
  have heq := List.prefix_of_prefix_length_le hb hc (by simp)
  simpa using heq.eq_of_length (by simp)

end Paths

section Records

variable {held : Finset Ident} {path : Bytes}

theorem get?_canonicalChildren (held : Finset Ident) (path : Bytes) (b : UInt8) :
    (canonicalChildren held path).get? b =
      if Occurs held (path ++ [b]) then some (canonical held (path ++ [b])).summary else none :=
  ByteMap.get?_tabulate _ b

/-- **An inner node is made of its children.** -/
theorem canonical_of_lt (held : Finset Ident) (hlen : path.length < identLength) :
    canonical held path = Record.ofChildren (canonicalChildren held path) := by
  have hheight : identLength - path.length = identLength - (path.length + 1) + 1 := by omega
  have hchild : ∀ b, canonicalAt held (identLength - (path.length + 1)) (path ++ [b]) =
      canonical held (path ++ [b]) := by
    intro b
    rw [canonical, List.length_append, List.length_singleton]
  rw [canonical, hheight, canonicalAt]
  simp only [hchild]
  rfl

theorem canonical_of_le (held : Finset Ident) (hlen : identLength ≤ path.length) :
    canonical held path = leafRecord held path := by
  rw [canonical, Nat.sub_eq_zero_of_le hlen, canonicalAt]

/-- A member has a leaf. -/
theorem canonical_of_mem {id : Ident} (h : id ∈ held) :
    canonical held id.bytes = Record.leaf id := by
  rw [canonical_of_le held id.length_eq.ge, leafRecord, dif_pos id.length_eq, if_pos h]

theorem ofChildren_empty : Record.ofChildren ByteMap.empty = Record.empty := rfl

theorem canonicalChildren_of_not_occurs (h : ¬Occurs held path) :
    canonicalChildren held path = ByteMap.empty := by
  refine ByteMap.ext_get? fun b => ?_
  rw [get?_canonicalChildren, ByteMap.get?_empty]
  exact if_neg fun hb => h (hb.of_isPrefix (List.prefix_append path [b]))

/-- A path that begins no member has the record that holds nothing. -/
theorem canonical_of_not_occurs (h : ¬Occurs held path) :
    canonical held path = Record.empty := by
  by_cases hlen : path.length < identLength
  · rw [canonical_of_lt held hlen, canonicalChildren_of_not_occurs h, ofChildren_empty]
  · rw [canonical_of_le held (Nat.le_of_not_lt hlen), leafRecord]
    split
    · next hfull =>
        refine if_neg fun hmem => h ?_
        exact occurs_of_mem hmem
    · rfl

theorem canonicalChildren_isEmpty_iff (hlen : path.length < identLength) :
    (canonicalChildren held path).isEmpty = true ↔ ¬Occurs held path := by
  rw [ByteMap.isEmpty_iff]
  constructor
  · intro hnone hocc
    obtain ⟨b, hb⟩ := hocc.exists_next hlen
    have hget := hnone b
    rw [get?_canonicalChildren, if_pos hb] at hget
    cases hget
  · intro h b
    rw [canonicalChildren_of_not_occurs h, ByteMap.get?_empty]

theorem canonicalChildren_isEmpty_of_occurs (hlen : path.length < identLength)
    (hocc : Occurs held path) : (canonicalChildren held path).isEmpty = false := by
  rw [Bool.eq_false_iff]
  exact fun hempty => (canonicalChildren_isEmpty_iff hlen).mp hempty hocc

/-- A record of the trie holds nothing exactly where no member begins. -/
theorem canonical_isEmpty_iff : (canonical held path).isEmpty = true ↔ ¬Occurs held path := by
  constructor
  · intro hempty hocc
    by_cases hlen : path.length < identLength
    · rw [canonical_of_lt held hlen] at hempty
      exact (canonicalChildren_isEmpty_iff hlen).mp (by simpa [Record.isEmpty, Record.ofChildren]
        using hempty) hocc
    · obtain ⟨id, hid, rfl⟩ := hocc.exists_mem (Nat.le_of_not_lt hlen)
      rw [canonical_of_mem hid] at hempty
      simp [Record.isEmpty, Record.leaf] at hempty
  · intro h
    rw [canonical_of_not_occurs h]
    rfl

theorem canonical_isEmpty_of_occurs (hocc : Occurs held path) :
    (canonical held path).isEmpty = false := by
  rw [Bool.eq_false_iff]
  exact fun hempty => canonical_isEmpty_iff.mp hempty hocc

/-- At full length the key is the path, if that is a member. -/
theorem canonical_key (id : Ident) :
    (canonical held id.bytes).key = if id ∈ held then some id else none := by
  by_cases h : id ∈ held
  · rw [canonical_of_mem h, if_pos h]
    rfl
  · have hocc : ¬Occurs held id.bytes := by
      intro hocc
      obtain ⟨other, hother, heq⟩ := hocc.exists_mem id.length_eq.ge
      exact h (Ident.ext heq ▸ hother)
    rw [canonical_of_not_occurs hocc, if_neg h]
    rfl

/-- Only leaves have a key. -/
theorem canonical_key_eq_some_iff {id : Ident} :
    (canonical held path).key = some id ↔ id ∈ held ∧ id.bytes = path := by
  constructor
  · intro hkey
    by_cases hocc : Occurs held path
    · by_cases hlen : path.length < identLength
      · rw [canonical_of_lt held hlen] at hkey
        cases hkey
      · obtain ⟨other, hother, rfl⟩ := hocc.exists_mem (Nat.le_of_not_lt hlen)
        rw [canonical_of_mem hother] at hkey
        cases hkey
        exact ⟨hother, rfl⟩
    · rw [canonical_of_not_occurs hocc] at hkey
      cases hkey
  · rintro ⟨hid, rfl⟩
    rw [canonical_of_mem hid]
    rfl

/-- A node has the children that occur below it; leaves have none. -/
theorem get?_canonical_children (held : Finset Ident) (path : Bytes) (b : UInt8) :
    (canonical held path).children.get? b =
      if Occurs held (path ++ [b]) then some (canonical held (path ++ [b])).summary else none := by
  by_cases hlen : path.length < identLength
  · rw [canonical_of_lt held hlen]
    exact get?_canonicalChildren held path b
  · have hnot : ¬Occurs held (path ++ [b]) := by
      intro hocc
      have := hocc.length_le
      rw [List.length_append, List.length_singleton] at this
      omega
    rw [if_neg hnot, canonical_of_le held (Nat.le_of_not_lt hlen), leafRecord]
    split
    · split <;> rfl
    · rfl

theorem contains_canonical_children (held : Finset Ident) (path : Bytes) (b : UInt8) :
    (canonical held path).children.contains b = decide (Occurs held (path ++ [b])) := by
  rw [ByteMap.contains, get?_canonical_children]
  split
  · next h => exact (decide_eq_true h).symm
  · next h => exact (decide_eq_false h).symm

/-- **The record at a path depends only on the members that start with it.** -/
theorem canonical_congr {held other : Finset Ident} (path : Bytes)
    (h : ∀ id : Ident, path <+: id.bytes → (id ∈ held ↔ id ∈ other)) :
    canonical held path = canonical other path := by
  induction path using path_induction with
  | leaf path hlen =>
      rw [canonical_of_le held hlen, canonical_of_le other hlen, leafRecord, leafRecord]
      split
      · next hfull => simp only [h ⟨path, hfull⟩ List.prefix_rfl]
      · rfl
  | node path hlen ih =>
      rw [canonical_of_lt held hlen, canonical_of_lt other hlen]
      refine congrArg Record.ofChildren (ByteMap.ext_get? fun b => ?_)
      have hb : ∀ id : Ident, path ++ [b] <+: id.bytes → (id ∈ held ↔ id ∈ other) :=
        fun id hid => h id ((List.prefix_append path [b]).trans hid)
      have hocc : Occurs held (path ++ [b]) ↔ Occurs other (path ++ [b]) :=
        exists_congr fun id => and_congr_left (hb id)
      rw [get?_canonicalChildren, get?_canonicalChildren, ih b hb]
      exact if_congr hocc rfl rfl

end Records

section Counts

/-- Counts are added up in the order of the bytes. -/
theorem childrenCount_tabulate {f : UInt8 → Option Summary} {n : UInt8 → Nat}
    (h : ∀ b, ((f b).elim 0 (·.itemCount)) = UInt64.ofNat (n b)) :
    childrenCount (ByteMap.tabulate f) = UInt64.ofNat ((ByteMap.bytes.map n).sum) := by
  have hfold : ∀ (l : List UInt8) (k : Nat),
      (((l.filterMap fun b => (f b).map fun v => (b, v)).map (·.2)).foldl
        (fun total child => total + child.itemCount) (UInt64.ofNat k)) =
      UInt64.ofNat (k + (l.map n).sum) := by
    intro l
    induction l with
    | nil => simp
    | cons b l ih =>
        intro k
        have hb := h b
        rw [List.map_cons, List.sum_cons, ← Nat.add_assoc, ← ih (k + n b), UInt64.ofNat_add, ← hb]
        cases hf : f b with
        | none => simp [hf]
        | some summary => simp [hf]
  have hall := hfold ByteMap.bytes 0
  rw [Nat.zero_add] at hall
  exact hall

variable {held : Finset Ident} {path : Bytes}

/-- The members under an inner node are those under its children. -/
theorem card_under (held : Finset Ident) (hlen : path.length < identLength) :
    (ByteMap.bytes.map fun b => (under held (path ++ [b])).card).sum = (under held path).card := by
  have hnodup : ByteMap.bytes.Nodup :=
    ByteMap.ascending_bytes.imp fun hlt => fun heq => UInt8.lt_irrefl _ (heq ▸ hlt)
  have hunion : under held path =
      ByteMap.bytes.toFinset.biUnion fun b => under held (path ++ [b]) := by
    ext id
    rw [Finset.mem_biUnion, mem_under]
    constructor
    · rintro ⟨hid, hpath⟩
      obtain ⟨b, hb⟩ := exists_next hpath hlen
      exact ⟨b, List.mem_toFinset.mpr (ByteMap.mem_bytes b), mem_under.mpr ⟨hid, hb⟩⟩
    · rintro ⟨b, _, hid⟩
      obtain ⟨hmem, hb⟩ := mem_under.mp hid
      exact ⟨hmem, (List.prefix_append path [b]).trans hb⟩
  rw [hunion, Finset.card_biUnion, List.sum_toFinset _ hnodup]
  intro b _ c _ hbc
  refine Finset.disjoint_left.mpr fun id hb hc => hbc ?_
  exact next_unique (mem_under.mp hb).2 (mem_under.mp hc).2

/-- **A record counts the members that start with its path**, modulo the size
of a word. -/
theorem canonical_itemCount (held : Finset Ident) (path : Bytes) :
    (canonical held path).itemCount = UInt64.ofNat (under held path).card := by
  induction path using path_induction with
  | leaf path hlen =>
      by_cases hocc : Occurs held path
      · obtain ⟨id, hid, rfl⟩ := hocc.exists_mem hlen
        have hsingle : under held id.bytes = {id} := by
          ext other
          rw [mem_under, Finset.mem_singleton]
          constructor
          · rintro ⟨_, hpre⟩
            exact Ident.ext (hpre.eq_of_length (id.length_eq.trans other.length_eq.symm)).symm
          · rintro rfl
            exact ⟨hid, List.prefix_rfl⟩
        rw [canonical_of_mem hid, hsingle]
        rfl
      · have hnone : under held path = ∅ :=
          Finset.not_nonempty_iff_eq_empty.mp (mt occurs_iff.mpr hocc)
        rw [canonical_of_not_occurs hocc, hnone]
        rfl
  | node path hlen ih =>
      rw [canonical_of_lt held hlen, ← card_under held hlen]
      refine childrenCount_tabulate fun b => ?_
      by_cases hocc : Occurs held (path ++ [b])
      · simp only [if_pos hocc]
        exact ih b
      · have hnone : under held (path ++ [b]) = ∅ :=
          Finset.not_nonempty_iff_eq_empty.mp (mt occurs_iff.mpr hocc)
        simp only [if_neg hocc, hnone]
        rfl

/-- **A record has the shape of a node at its depth.** -/
theorem checkShape_canonical (h : Occurs held path) :
    (canonical held path).checkShape path.length = .ok () := by
  have hfault : (canonical held path).shapeFault path.length = none := by
    by_cases hlen : path.length < identLength
    · have hne := canonicalChildren_isEmpty_of_occurs hlen h
      rw [canonical_of_lt held hlen, Record.shapeFault, if_neg (by omega), if_neg (by omega)]
      simp [Record.ofChildren, hne]
    · obtain ⟨id, hid, rfl⟩ := h.exists_mem (Nat.le_of_not_lt hlen)
      rw [canonical_of_mem hid, id.length_eq]
      simp [Record.shapeFault, Record.leaf, ByteMap.isEmpty, ByteMap.empty]
  rw [Record.checkShape, hfault]

end Counts
end MerkleSync
