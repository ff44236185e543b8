import MerkleSync.Proofs.Canonical

/-!
# Digests bind the set

The digest of a node is computed from one byte string, made of the digests of
its children or of the identifier of a leaf.  Where no two of the strings that
are hashed for two tries have the same digest, and none has the empty one, equal
digests of nodes mean equal sets below them.  The same holds for the digests of
all children of a node except one.

**Results.**
* `concat_injective`: a list of digests is determined by its concatenation.
* `digest_binds`: equal digests of two nodes of the same depth are digests of
  one path and one set.
* `agree_of_digest_eq`, `agree_of_digestExcept_eq`: what equal digests say.
-/

namespace MerkleSync

/-- The byte strings that are hashed for the trie of a set: for its nodes, and for
the siblings along the path `scope`. -/
inductive Hashed (held : Finset Ident) (scope : Bytes) : Bytes → Prop
  | leaf {id : Ident} (hid : id ∈ held) : Hashed held scope id.bytes
  | inner {path : Bytes} (hlen : path.length < identLength) (hocc : Occurs held path) :
      Hashed held scope (Digest.concat ((canonical held path).children.values.map (·.digest)))
  | siblings {path : Bytes} {b : UInt8} (hscope : path ++ [b] <+: scope)
      (hsome : ((canonical held path).children.erase b).isEmpty = false) :
      Hashed held scope
        (Digest.concat (((canonical held path).children.erase b).values.map (·.digest)))

/-- No two of the strings have the same digest, and none has the empty one. -/
structure CollisionFree (hashed : Bytes → Prop) : Prop where
  injective : ∀ x y, hashed x → hashed y → Digest.of x = Digest.of y → x = y
  nonempty : ∀ x, hashed x → Digest.of x ≠ Digest.empty

theorem CollisionFree.anti {hashed hashed' : Bytes → Prop} (h : CollisionFree hashed')
    (hsub : ∀ x, hashed x → hashed' x) : CollisionFree hashed where
  injective x y hx hy := h.injective x y (hsub x hx) (hsub y hy)
  nonempty x hx := h.nonempty x (hsub x hx)

/-- The two sets have the same members under `path`. -/
def AgreeUnder (path : Bytes) (A B : Finset Ident) : Prop :=
  ∀ id : Ident, path <+: id.bytes → (id ∈ A ↔ id ∈ B)

theorem AgreeUnder.symm {path : Bytes} {A B : Finset Ident} (h : AgreeUnder path A B) :
    AgreeUnder path B A :=
  fun id hid => (h id hid).symm

theorem agree_of_not_occurs {path : Bytes} {A B : Finset Ident} (hA : ¬Occurs A path)
    (hB : ¬Occurs B path) : AgreeUnder path A B :=
  fun id hid => iff_of_false (fun hmem => hA ⟨id, hmem, hid⟩) (fun hmem => hB ⟨id, hmem, hid⟩)

section Strings

theorem concat_cons_ne_nil (d : Digest) (rest : List Digest) : Digest.concat (d :: rest) ≠ [] := by
  intro h
  have hnil : d.bytes = [] := (List.append_eq_nil_iff.mp h).1
  have hlen := d.length_eq
  rw [hnil] at hlen
  cases hlen

/-- Digests have a fixed width, so they can be cut out again. -/
theorem concat_injective :
    ∀ {l l' : List Digest}, Digest.concat l = Digest.concat l' → l = l'
  | [], [], _ => rfl
  | [], d :: rest, h => absurd h.symm (concat_cons_ne_nil d rest)
  | d :: rest, [], h => absurd h (concat_cons_ne_nil d rest)
  | d :: rest, d' :: rest', h => by
      rw [Digest.concat, Digest.concat, List.flatMap_cons, List.flatMap_cons] at h
      obtain ⟨hhead, htail⟩ := List.append_inj h (d.length_eq.trans d'.length_eq.symm)
      rw [Digest.ext hhead, concat_injective htail]

variable {m n : ByteMap Summary}

theorem isEmpty_digests : (m.values.map (·.digest)).isEmpty = m.isEmpty := by
  rw [ByteMap.values, ByteMap.isEmpty]
  cases m.entries with
  | nil => rfl
  | cons e rest => rfl

theorem childrenDigest_of_isEmpty (h : m.isEmpty = true) : childrenDigest m = Digest.empty := by
  rw [childrenDigest, Digest.combine, isEmpty_digests, if_pos h]

theorem childrenDigest_of_nonempty (h : m.isEmpty = false) :
    childrenDigest m = Digest.of (Digest.concat (m.values.map (·.digest))) := by
  rw [childrenDigest, Digest.combine, isEmpty_digests, if_neg (by simp [h])]

/-- Children with the same list of digests can be matched. -/
theorem exists_child_of_digests_eq
    (h : Digest.concat (m.values.map (·.digest)) = Digest.concat (n.values.map (·.digest)))
    {b : UInt8} {s : Summary} (hb : m.get? b = some s) :
    ∃ c t, n.get? c = some t ∧ t.digest = s.digest := by
  have hmem : s.digest ∈ m.values.map (·.digest) :=
    List.mem_map_of_mem (List.mem_map_of_mem (f := Prod.snd) (ByteMap.get?_eq_some_iff.mp hb))
  rw [concat_injective h] at hmem
  obtain ⟨t, ht, hdigest⟩ := List.mem_map.mp hmem
  obtain ⟨⟨c, _⟩, hc, rfl⟩ := List.mem_map.mp ht
  exact ⟨c, _, ByteMap.get?_eq_some_iff.mpr hc, hdigest⟩

end Strings

section Nodes

variable {A B : Finset Ident}

theorem digest_of_inner {held : Finset Ident} {path : Bytes} (hlen : path.length < identLength)
    (hocc : Occurs held path) :
    (canonical held path).digest =
      Digest.of (Digest.concat ((canonical held path).children.values.map (·.digest))) := by
  rw [canonical_of_lt held hlen]
  exact childrenDigest_of_nonempty (canonicalChildren_isEmpty_of_occurs hlen hocc)

/-- The children of a node that occurs, by their digests. -/
theorem exists_occurs_of_digests_eq {p q : Bytes}
    (h : Digest.concat ((canonical A p).children.values.map (·.digest)) =
      Digest.concat ((canonical B q).children.values.map (·.digest)))
    {b : UInt8} (hb : Occurs A (p ++ [b])) :
    ∃ c, Occurs B (q ++ [c]) ∧
      (canonical A (p ++ [b])).digest = (canonical B (q ++ [c])).digest := by
  have hget := get?_canonical_children A p b
  rw [if_pos hb] at hget
  obtain ⟨c, t, hc, hdigest⟩ := exists_child_of_digests_eq h hget
  rw [get?_canonical_children] at hc
  split at hc
  · next hocc =>
      obtain rfl := Option.some.inj hc
      exact ⟨c, hocc, hdigest.symm⟩
  · cases hc

/-- A node has no other child than the one at `b`. -/
theorem not_occurs_of_isEmpty_erase {held : Finset Ident} {q : Bytes} {b c : UInt8}
    (h : ((canonical held q).children.erase b).isEmpty = true) (hc : c ≠ b) :
    ¬Occurs held (q ++ [c]) := by
  intro hocc
  have hget := ByteMap.isEmpty_iff.mp h c
  rw [ByteMap.get?_erase, if_neg hc, get?_canonical_children, if_pos hocc] at hget
  cases hget

end Nodes

section Binding

variable {A B : Finset Ident} {scope : Bytes} {hashed : Bytes → Prop}

theorem digest_ne_empty (hfree : CollisionFree hashed) (hA : ∀ x, Hashed A scope x → hashed x)
    {path : Bytes} (hocc : Occurs A path) : (canonical A path).digest ≠ Digest.empty := by
  by_cases hlen : path.length < identLength
  · rw [digest_of_inner hlen hocc]
    exact hfree.nonempty _ (hA _ (.inner hlen hocc))
  · obtain ⟨id, hid, rfl⟩ := hocc.exists_mem (Nat.le_of_not_lt hlen)
    rw [canonical_of_mem hid]
    exact hfree.nonempty _ (hA _ (.leaf hid))

/-- **Equal digests bind path and set.** -/
theorem digest_binds (hfree : CollisionFree hashed) (hA : ∀ x, Hashed A scope x → hashed x)
    (hB : ∀ x, Hashed B scope x → hashed x) (p : Bytes) :
    ∀ q : Bytes, p.length = q.length → Occurs A p → Occurs B q →
      (canonical A p).digest = (canonical B q).digest → p = q ∧ AgreeUnder p A B := by
  induction p using path_induction with
  | leaf p hfull =>
      intro q hlen hoccA hoccB hdigest
      obtain ⟨id, hid, rfl⟩ := hoccA.exists_mem hfull
      obtain ⟨id', hid', rfl⟩ := hoccB.exists_mem (hlen ▸ hfull)
      rw [canonical_of_mem hid, canonical_of_mem hid'] at hdigest
      have hbytes := hfree.injective _ _ (hA _ (.leaf hid)) (hB _ (.leaf hid')) hdigest
      obtain rfl := Ident.ext hbytes
      refine ⟨rfl, fun other hother => ?_⟩
      have hsame : other = id :=
        Ident.ext (hother.eq_of_length (id.length_eq.trans other.length_eq.symm)).symm
      rw [hsame]
      exact iff_of_true hid hid'
  | node p hp ih =>
      intro q hlen hoccA hoccB hdigest
      have hq : q.length < identLength := hlen ▸ hp
      rw [digest_of_inner hp hoccA, digest_of_inner hq hoccB] at hdigest
      have hstrings := hfree.injective _ _ (hA _ (.inner hp hoccA)) (hB _ (.inner hq hoccB)) hdigest
      -- every child on one side is a child on the other, at the same path
      have hchild : ∀ b, Occurs A (p ++ [b]) → p = q ∧ AgreeUnder (p ++ [b]) A B := by
        intro b hb
        obtain ⟨c, hc, hsame⟩ := exists_occurs_of_digests_eq hstrings hb
        obtain ⟨hpath, hagree⟩ := ih b (q ++ [c]) (by simp [hlen]) hb hc hsame
        exact ⟨(List.append_inj' hpath rfl).1, hagree⟩
      have hchild' : ∀ c, Occurs B (q ++ [c]) → AgreeUnder (q ++ [c]) A B := by
        intro c hc
        obtain ⟨b, hb, hsame⟩ := exists_occurs_of_digests_eq hstrings.symm hc
        obtain ⟨hpath, hagree⟩ := ih b (q ++ [c]) (by simp [hlen]) hb hc hsame.symm
        exact hpath ▸ hagree
      obtain ⟨b, hb⟩ := hoccA.exists_next hp
      have hpath := (hchild b hb).1
      refine ⟨hpath, fun id hid => ?_⟩
      obtain ⟨c, hc⟩ := exists_next hid hp
      constructor
      · intro hmem
        exact ((hchild c ⟨id, hmem, hc⟩).2 id hc).mp hmem
      · intro hmem
        rw [hpath] at hc
        exact (hchild' c ⟨id, hmem, hc⟩ id hc).mpr hmem

/-- **Equal digests at one path** mean equal sets below it. -/
theorem agree_of_digest_eq (hfree : CollisionFree hashed) (hA : ∀ x, Hashed A scope x → hashed x)
    (hB : ∀ x, Hashed B scope x → hashed x) {path : Bytes}
    (hdigest : (canonical A path).digest = (canonical B path).digest) :
    AgreeUnder path A B := by
  by_cases hoccA : Occurs A path
  · by_cases hoccB : Occurs B path
    · exact (digest_binds hfree hA hB path path rfl hoccA hoccB hdigest).2
    · rw [canonical_of_not_occurs hoccB] at hdigest
      exact absurd hdigest (digest_ne_empty hfree hA hoccA)
  · by_cases hoccB : Occurs B path
    · rw [canonical_of_not_occurs hoccA] at hdigest
      exact absurd hdigest.symm (digest_ne_empty hfree hB hoccB)
    · exact agree_of_not_occurs hoccA hoccB

/-- A child of `A` other than the one at `b` is found in `B`, if the digests of
all children but that one agree. -/
theorem agree_of_sibling (hfree : CollisionFree hashed) (hA : ∀ x, Hashed A scope x → hashed x)
    (hB : ∀ x, Hashed B scope x → hashed x) {q : Bytes} {b c : UInt8}
    (h : Digest.concat (((canonical A q).children.erase b).values.map (·.digest)) =
      Digest.concat (((canonical B q).children.erase b).values.map (·.digest)))
    (hc : c ≠ b) (hocc : Occurs A (q ++ [c])) : AgreeUnder (q ++ [c]) A B := by
  have hget : ((canonical A q).children.erase b).get? c =
      some (canonical A (q ++ [c])).summary := by
    rw [ByteMap.get?_erase, if_neg hc, get?_canonical_children, if_pos hocc]
  obtain ⟨c', t, hc', hdigest⟩ := exists_child_of_digests_eq h hget
  rw [ByteMap.get?_erase] at hc'
  split at hc'
  · cases hc'
  · rw [get?_canonical_children] at hc'
    split at hc'
    · next hocc' =>
        obtain rfl := Option.some.inj hc'
        exact (digest_binds hfree hA hB _ (q ++ [c']) (by simp) hocc hocc' hdigest.symm).2
    · cases hc'

/-- **Equal digests of all children but one** mean equal sets off that one. -/
theorem agree_of_digestExcept_eq (hfree : CollisionFree hashed)
    (hA : ∀ x, Hashed A scope x → hashed x) (hB : ∀ x, Hashed B scope x → hashed x)
    {q : Bytes} {b c : UInt8} (hscope : q ++ [b] <+: scope)
    (h : (canonical A q).digestExcept b = (canonical B q).digestExcept b) (hc : c ≠ b) :
    AgreeUnder (q ++ [c]) A B := by
  rw [Record.digestExcept, Record.digestExcept] at h
  cases hemptyA : ((canonical A q).children.erase b).isEmpty with
  | true =>
      cases hemptyB : ((canonical B q).children.erase b).isEmpty with
      | true =>
          exact agree_of_not_occurs (not_occurs_of_isEmpty_erase hemptyA hc)
            (not_occurs_of_isEmpty_erase hemptyB hc)
      | false =>
          rw [childrenDigest_of_isEmpty hemptyA, childrenDigest_of_nonempty hemptyB] at h
          exact absurd h.symm (hfree.nonempty _ (hB _ (.siblings hscope hemptyB)))
  | false =>
      cases hemptyB : ((canonical B q).children.erase b).isEmpty with
      | true =>
          rw [childrenDigest_of_isEmpty hemptyB, childrenDigest_of_nonempty hemptyA] at h
          exact absurd h (hfree.nonempty _ (hA _ (.siblings hscope hemptyA)))
      | false =>
          rw [childrenDigest_of_nonempty hemptyA, childrenDigest_of_nonempty hemptyB] at h
          have hstrings := hfree.injective _ _ (hA _ (.siblings hscope hemptyA))
            (hB _ (.siblings hscope hemptyB)) h
          by_cases hocc : Occurs A (q ++ [c])
          · exact agree_of_sibling hfree hA hB hstrings hc hocc
          · by_cases hocc' : Occurs B (q ++ [c])
            · exact (agree_of_sibling hfree hB hA hstrings.symm hc hocc').symm
            · exact agree_of_not_occurs hocc hocc'

end Binding

end MerkleSync
