import Mathlib.Data.List.Iterate
import MerkleSync.Proofs.SetBinding
import MerkleSync.Sample

/-!
# Tries of one or two identifiers

The nodes above an only identifier form a chain.  What is hashed for a node is the
digest of the next one, so all strings are iterates of one function on the bytes of
the identifier.  Two identifiers with different first bytes have two such chains,
and the root over both.  So the strings that are hashed for such sets can be listed,
and whether their digests are distinct can be computed.

**Results.**
* `digest_singleton`: the digests of the chain.
* `hashed_singleton`, `hashed_pair`: the strings that are hashed.
* `collisionFree_of_nodup`: strings with distinct digests.
* `collisionFree_recentIdent`, `collisionFree_constantIdents`: the sample identifiers.
-/

namespace MerkleSync

/-- The string that is hashed for the parent of a node, if that has no other
child: the digest of the node. -/
def nextString (data : Bytes) : Bytes := (Digest.of data).bytes

/-- The strings that are hashed for one identifier, from its own bytes to the root. -/
def stringsOf (id : Ident) : List Bytes := List.iterate nextString id.bytes (identLength + 1)

/-- The string of the root over the chains of two identifiers, in their order. -/
def rootOver (a b : Ident) : Bytes :=
  nextString^[identLength] a.bytes ++ nextString^[identLength] b.bytes

/-- **Strings with distinct digests**, none of which is the empty one. -/
theorem collisionFree_of_nodup
    {strings : List Bytes}
    (h : (Digest.empty.bytes :: strings.map nextString).Nodup) :
    CollisionFree (· ∈ strings) := by
  obtain ⟨hempty, hnodup⟩ := List.nodup_cons.mp h
  constructor
  · intro x y hx hy hdigest
    exact List.inj_on_of_nodup_map hnodup hx hy (congrArg Digest.bytes hdigest)
  · intro x hx hzero
    exact hempty (List.mem_map.mpr ⟨x, hx, congrArg Digest.bytes hzero⟩)

section Singleton

variable {id : Ident}

theorem mem_stringsOf
    {n : Nat}
    (hn : n ≤ identLength) :
    nextString^[n] id.bytes ∈ stringsOf id :=
  List.mem_iterate.mpr ⟨n, Nat.lt_succ_of_le hn, rfl⟩

theorem digests_singleton
    {path : Bytes}
    {b : UInt8}
    (hpath : path ++ [b] <+: id.bytes) :
    (canonical {id} path).children.values.map (·.digest) =
      [(canonical {id} (path ++ [b])).digest] := by
  have hoccurs : ∀ q, Occurs {id} q ↔ q <+: id.bytes := fun q => by simp [Occurs]
  have hchildren : (canonical {id} path).children =
      ByteMap.empty.insert b (canonical {id} (path ++ [b])).summary := by
    refine ByteMap.ext_get? fun c => ?_
    rw [get?_canonical_children, ByteMap.get?_insert, ByteMap.get?_empty]
    by_cases hc : c = b
    · rw [if_pos hc, hc, if_pos ((hoccurs _).mpr hpath)]
    · rw [if_neg hc, if_neg fun hocc => hc (next_unique ((hoccurs _).mp hocc) hpath)]
  rw [hchildren]
  rfl

/-- **The digest of a node** on the only path, by its height. -/
theorem digest_singleton
    (path : Bytes)
    (hpath : path <+: id.bytes) :
    (canonical {id} path).digest.bytes =
      nextString^[identLength - path.length + 1] id.bytes := by
  induction path using path_induction with
  | leaf path hlen =>
      obtain rfl := hpath.eq_of_length_le (id.length_eq.le.trans hlen)
      rw [canonical_of_mem (Finset.mem_singleton_self id), id.length_eq]
      rfl
  | node path hlen ih =>
      obtain ⟨b, hb⟩ := exists_next hpath hlen
      have hocc : Occurs {id} path := ⟨id, Finset.mem_singleton_self id, hpath⟩
      have hheight : identLength - path.length = identLength - (path ++ [b]).length + 1 := by
        rw [List.length_append, List.length_singleton]
        omega
      rw [digest_of_inner hlen hocc, digests_singleton hb, Digest.concat, List.flatMap_singleton,
        ih b hb, hheight]
      exact (Function.iterate_succ_apply' nextString _ _).symm

/-- The string of an inner node on the only path. -/
theorem string_singleton
    {path : Bytes}
    (hlen : path.length < identLength)
    (hpath : path <+: id.bytes) :
    Digest.concat ((canonical {id} path).children.values.map (·.digest)) ∈ stringsOf id := by
  obtain ⟨b, hb⟩ := exists_next hpath hlen
  rw [digests_singleton hb, Digest.concat, List.flatMap_singleton, digest_singleton _ hb]
  refine mem_stringsOf ?_
  rw [List.length_append, List.length_singleton]
  omega

/-- For one identifier the siblings along a path add nothing to what is hashed. -/
theorem hashed_singleton_of_scope
    {scope data : Bytes}
    (h : Hashed {id} scope data) :
    Hashed {id} [] data := by
  cases h with
  | leaf hid => exact .leaf hid
  | inner hlen hocc => exact .inner hlen hocc
  | @siblings path b _ hsome =>
      obtain ⟨c, hne, hnext⟩ : ∃ c, c ≠ b ∧ Occurs {id} (path ++ [c]) := by
        by_contra hnone
        refine Bool.eq_false_iff.mp hsome (ByteMap.isEmpty_iff.mpr fun c => ?_)
        rw [ByteMap.get?_erase, get?_canonical_children]
        split
        · rfl
        · next hne => exact if_neg fun hnext => hnone ⟨c, hne, hnext⟩
      have hpath : ∀ q, Occurs {id} q ↔ q <+: id.bytes := fun q => by simp [Occurs]
      -- the only child is not the one left out
      have herase : (canonical {id} path).children.erase b = (canonical {id} path).children := by
        refine ByteMap.ext_get? fun c' => ?_
        rw [ByteMap.get?_erase, get?_canonical_children]
        split
        · next hc' =>
            refine (if_neg fun hocc => hne ?_).symm
            rw [hpath] at hnext hocc
            exact (next_unique hnext hocc).trans hc'
        · rfl
      rw [herase]
      obtain ⟨hlen, hocc⟩ := occurs_of_children (isEmpty_of_isEmpty_erase hsome)
      exact .inner hlen hocc

/-- **The strings that are hashed for one identifier.** -/
theorem hashed_singleton
    {data : Bytes}
    (h : Hashed {id} [] data) :
    data ∈ stringsOf id := by
  cases h with
  | leaf hid =>
      rw [Finset.mem_singleton.mp hid]
      exact mem_stringsOf (Nat.zero_le _)
  | inner hlen hocc =>
      obtain ⟨other, hother, hpath⟩ := hocc
      rw [Finset.mem_singleton.mp hother] at hpath
      exact string_singleton hlen hpath
  | siblings hscope => exact absurd (List.prefix_nil.mp hscope) (by simp)

end Singleton

section Pair

variable {a b : Ident} {x y : UInt8}

/-- An identifier has one first byte. -/
theorem first_unique
    {id : Ident}
    {c c' : UInt8}
    (hc : [c] <+: id.bytes)
    (hc' : [c'] <+: id.bytes) :
    c = c' :=
  have hroot : ([] : Bytes) ++ [c] <+: id.bytes := hc
  next_unique hroot hc'

/-- Below a path that only one member starts with, a trie is that of this member. -/
theorem canonical_of_alone
    {held : Finset Ident}
    {id : Ident}
    {path : Bytes}
    (hid : id ∈ held)
    (halone : ∀ other ∈ held, path <+: other.bytes → other = id) :
    canonical held path = canonical {id} path := by
  refine canonical_congr path fun other hother => ?_
  rw [Finset.mem_singleton]
  constructor
  · exact fun hmem => halone other hmem hother
  · rintro rfl
    exact hid

variable (hx : [x] <+: a.bytes) (hy : [y] <+: b.bytes) (hlt : x < y)
include hx hy hlt

/-- Two identifiers with different first bytes have no path in common but the root. -/
theorem eq_of_common_start
    {id other : Ident}
    {c : UInt8}
    (hid : id ∈ ({a, b} : Finset Ident))
    (hother : other ∈ ({a, b} : Finset Ident))
    (hc : [c] <+: id.bytes)
    (hc' : [c] <+: other.bytes) :
    other = id := by
  have hne : x ≠ y := UInt8.ne_of_lt hlt
  rw [Finset.mem_insert, Finset.mem_singleton] at hid hother
  rcases hid with rfl | rfl
  · rcases hother with rfl | rfl
    · rfl
    · exact absurd ((first_unique hx hc).trans (first_unique hc' hy)) hne
  · rcases hother with rfl | rfl
    · exact absurd ((first_unique hx hc').trans (first_unique hc hy)) hne
    · rfl

/-- The root over two identifiers has their chains below it. -/
theorem string_pair :
    Digest.concat ((canonical {a, b} []).children.values.map (·.digest)) = rootOver a b := by
  have ha : a ∈ ({a, b} : Finset Ident) := Finset.mem_insert_self a _
  have hb : b ∈ ({a, b} : Finset Ident) := Finset.mem_insert_of_mem (Finset.mem_singleton_self b)
  have hfirst : ∀ c : UInt8, Occurs {a, b} [c] ↔ c = x ∨ c = y := by
    intro c
    simp only [Occurs, Finset.mem_insert, Finset.mem_singleton, exists_eq_or_imp, exists_eq_left]
    exact or_congr ⟨fun h => first_unique h hx, fun h => h ▸ hx⟩
      ⟨fun h => first_unique h hy, fun h => h ▸ hy⟩
  have hleft : canonical {a, b} [x] = canonical {a} [x] :=
    canonical_of_alone ha fun other hother => eq_of_common_start hx hy hlt ha hother hx
  have hright : canonical {a, b} [y] = canonical {b} [y] :=
    canonical_of_alone hb fun other hother => eq_of_common_start hx hy hlt hb hother hy
  have hchildren : (canonical {a, b} []).children =
      (ByteMap.empty.insert y (canonical {b} [y]).summary).insert x (canonical {a} [x]).summary := by
    refine ByteMap.ext_get? fun c => ?_
    rw [get?_canonical_children, ByteMap.get?_insert, ByteMap.get?_insert, ByteMap.get?_empty,
      List.nil_append, if_congr (hfirst c) rfl rfl]
    by_cases hcx : c = x
    · rw [if_pos hcx, if_pos (Or.inl hcx), hcx, hleft]
    · rw [if_neg hcx]
      by_cases hcy : c = y
      · rw [if_pos hcy, if_pos (Or.inr hcy), hcy, hright]
      · rw [if_neg hcy, if_neg (not_or.mpr ⟨hcx, hcy⟩)]
  have hvalues : ∀ s s' : Summary,
      ((ByteMap.empty.insert y s').insert x s).values = [s, s'] := by
    intro s s'
    simp [ByteMap.values, ByteMap.insert, ByteMap.insertEntry, ByteMap.empty, hlt]
  have hdigest : ∀ (id : Ident) (c : UInt8), [c] <+: id.bytes →
      (canonical {id} [c]).summary.digest.bytes = nextString^[identLength] id.bytes :=
    fun id c hc => digest_singleton [c] hc
  rw [hchildren, hvalues]
  simp [Digest.concat, rootOver, hdigest a x hx, hdigest b y hy]

/-- **The strings that are hashed for up to two identifiers.** -/
theorem hashed_pair
    {held : Finset Ident}
    {data : Bytes}
    (hheld : held ⊆ {a, b})
    (h : Hashed held [] data) :
    data ∈ rootOver a b :: (stringsOf a ++ stringsOf b) := by
  have hchain : ∀ id ∈ ({a, b} : Finset Ident), data ∈ stringsOf id →
      data ∈ rootOver a b :: (stringsOf a ++ stringsOf b) := by
    intro id hid hmem
    rw [Finset.mem_insert, Finset.mem_singleton] at hid
    refine List.mem_cons_of_mem _ ?_
    rcases hid with rfl | rfl
    · exact List.mem_append_left _ hmem
    · exact List.mem_append_right _ hmem
  cases h with
  | leaf hid => exact hchain _ (hheld hid) (mem_stringsOf (Nat.zero_le _))
  | siblings hscope => exact absurd (List.prefix_nil.mp hscope) (by simp)
  | @inner path hlen hocc =>
      obtain ⟨id, hid, hpath⟩ := hocc
      by_cases halone : ∀ other ∈ held, path <+: other.bytes → other = id
      · have hstring := string_singleton hlen hpath
        rw [← canonical_of_alone hid halone] at hstring
        exact hchain id (hheld hid) hstring
      · -- two members start with the path, which is the root then
        obtain ⟨other, hother, hstart, hne⟩ : ∃ other ∈ held, path <+: other.bytes ∧ other ≠ id := by
          simpa using halone
        have hroot : path = [] := by
          cases path with
          | nil => rfl
          | cons c rest =>
              have hc : [c] <+: c :: rest := List.prefix_append [c] rest
              exact absurd (eq_of_common_start hx hy hlt (hheld hid) (hheld hother)
                (hc.trans hpath) (hc.trans hstart)) hne
        have hmany : 1 < held.card := Finset.one_lt_card.mpr ⟨other, hother, id, hid, hne⟩
        have hboth : held = {a, b} :=
          Finset.eq_of_subset_of_card_le hheld (Finset.card_le_two.trans hmany)
        rw [hroot, hboth, string_pair hx hy hlt]
        exact List.mem_cons_self

end Pair

section Samples

/-- **The identifier of a fixed time** has no collisions. -/
theorem collisionFree_recentIdent : CollisionFree (Hashed {recentIdent} []) := by
  have hdistinct : (Digest.empty.bytes :: (stringsOf recentIdent).map nextString).Nodup := by
    decide +kernel
  exact (collisionFree_of_nodup hdistinct).anti fun _ => hashed_singleton

/-- **The identifiers of zeros and of sevens** have none, in any set of them. -/
theorem collisionFree_constantIdents :
    CollisionFree fun data =>
      ∃ held : Finset Ident, held ⊆ {constantIdent 0, constantIdent 7} ∧ Hashed held [] data := by
  have hdistinct : (Digest.empty.bytes :: (rootOver (constantIdent 0) (constantIdent 7) ::
      (stringsOf (constantIdent 0) ++ stringsOf (constantIdent 7))).map nextString).Nodup := by
    decide +kernel
  refine (collisionFree_of_nodup hdistinct).anti ?_
  rintro data ⟨held, hheld, hhashed⟩
  have hzeros : [0] <+: (constantIdent 0).bytes := by decide
  have hsevens : [7] <+: (constantIdent 7).bytes := by decide
  exact hashed_pair hzeros hsevens (by decide) hheld hhashed

end Samples
end MerkleSync
