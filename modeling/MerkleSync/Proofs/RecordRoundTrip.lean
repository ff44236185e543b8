import MerkleSync.Proofs.ByteMapLookup
import MerkleSync.Proofs.ItemRoundTrip
import MerkleSync.Record.Codec

/-!
# Stored records are read back

The stored form of a record is the item of a map, and reading the entries of
that map gives the record.  What follows the stored form is ignored.

**Results.**
* `readChildren_childItems`: the triples of a record's children are read back.
* `ofEntries_entryItems`: so are its entries.
* `decode_encode_append`: so is its stored form, with anything after it.
* `encode_isPrefix_iff`: no stored form begins another one.
* `stored_form_round_trips`: the codec as a whole.
-/

namespace MerkleSync

namespace ByteMap

variable {α : Type}

/-- A byte above all others goes to the end. -/
theorem insertEntry_of_forall_lt {b : UInt8} (v : α) {l : List (UInt8 × α)}
    (h : ∀ e ∈ l, e.1 < b) : insertEntry b v l = l ++ [(b, v)] := by
  induction l with
  | nil => rfl
  | cons e rest ih =>
      have hlt := h e List.mem_cons_self
      unfold insertEntry
      rw [if_neg (UInt8.lt_asymm hlt), if_neg (UInt8.ne_of_lt hlt).symm,
        ih fun d hd => h d (List.mem_cons_of_mem e hd)]
      rfl

theorem contains_eq_false_of_forall_lt {m : ByteMap α} {b : UInt8}
    (h : ∀ e ∈ m.entries, e.1 < b) : m.contains b = false := by
  rw [Bool.eq_false_iff]
  intro hcontains
  obtain ⟨v, hget⟩ := contains_iff.mp hcontains
  exact UInt8.lt_irrefl b (h (b, v) (get?_eq_some_iff.mp hget))

end ByteMap

namespace Record

open Cbor (Item Reads)

/-- The item of a child's triple. -/
def childItem (child : UInt8 × Summary) : Item :=
  .array [.int child.1.toNat, .bytes child.2.digest.bytes, .int child.2.itemCount.toNat]

/-- The items of a record's entries. -/
def entryItems (r : Record) : List (Item × Item) :=
  [(.int 0, .bytes r.digest.bytes), (.int 1, .int r.itemCount.toNat)] ++
  (r.key.map fun key => (Item.int 2, Item.bytes key.bytes)).toList ++
  [(.int 3, .array (r.children.entries.map childItem))]

section Written

theorem lt_size_of_digest (d : Digest) : d.bytes.length < UInt64.size := by
  rw [d.length_eq]
  decide

theorem reads_encodeChild (depth : Nat) (child : UInt8 × Summary) :
    Reads (Cbor.item (depth + 1)) (encodeChild child) (childItem child) := by
  have hbyte : child.1.toNat < UInt64.size :=
    Nat.lt_trans child.1.toNat_lt (by decide)
  refine Cbor.reads_array ?_ (by simp [UInt64.size])
  exact .cons (Cbor.reads_int hbyte depth)
    (.cons (Cbor.reads_bytes (lt_size_of_digest _) depth)
      (.cons (Cbor.reads_int child.2.itemCount.toNat_lt depth) .nil))

theorem reads_children (depth : Nat) (r : Record) :
    Reads (Cbor.item (depth + 2)) (Cbor.writeArray (r.children.entries.map encodeChild))
      (.array (r.children.entries.map childItem)) := by
  refine Cbor.reads_array ?_ ?_
  · rw [List.forall₂_map_left_iff, List.forall₂_map_right_iff]
    exact List.forall₂_same.mpr fun child _ => reads_encodeChild depth child
  · rw [List.length_map]
    exact Nat.lt_of_le_of_lt r.children.length_entries_le (by decide)

theorem reads_encodeEntries (depth : Nat) (r : Record) :
    List.Forall₂
      (fun w e => Reads (Cbor.item (depth + 2)) w.1 e.1 ∧ Reads (Cbor.item (depth + 2)) w.2 e.2)
      r.encodeEntries r.entryItems := by
  have hnum : ∀ n : Nat, n < 4 → Reads (Cbor.item (depth + 2)) (Cbor.writeNat n) (.int n) :=
    fun n hn => Cbor.reads_int (Nat.lt_trans hn (by decide)) _
  refine List.rel_append (List.rel_append ?_ ?_) (.cons ⟨hnum 3 (by omega), ?_⟩ .nil)
  · exact .cons ⟨hnum 0 (by omega), Cbor.reads_bytes (lt_size_of_digest _) _⟩
      (.cons ⟨hnum 1 (by omega), Cbor.reads_int r.itemCount.toNat_lt _⟩ .nil)
  · cases r.key with
    | none => exact .nil
    | some key =>
        have hlen : key.bytes.length < UInt64.size := by
          rw [key.length_eq]
          decide
        exact .cons ⟨hnum 2 (by omega), Cbor.reads_bytes hlen _⟩ .nil
  · exact reads_children depth r

theorem ofBytes?_encode_append (r : Record) (rest : Bytes) :
    Item.ofBytes? (r.encode ++ rest) = some (.map r.entryItems) := by
  have hlen : r.entryItems.length < UInt64.size := by
    cases h : r.key <;> simp [entryItems, h, UInt64.size]
  have hread := Cbor.reads_map (reads_encodeEntries 253 r) hlen rest
  show (Cbor.item (253 + 2 + 1) (r.encode ++ rest)).map (·.1) = _
  rw [encode, hread]
  rfl

end Written

section Read

theorem readCount_toNat (notInteger outOfRange : RecordFault) (n : UInt64) :
    readCount notInteger outOfRange (.int n.toNat) = .ok n := by
  have hrange : (0 : Int) ≤ n.toNat ∧ (n.toNat : Int) < UInt64.size :=
    ⟨Int.natCast_nonneg _, Int.ofNat_lt.mpr n.toNat_lt⟩
  simp only [readCount]
  rw [if_pos hrange, Int.toNat_natCast, UInt64.ofNat_toNat]

theorem readDigest_bytes (fault : RecordFault) (d : Digest) :
    readDigest fault (.bytes d.bytes) = .ok d := by
  simp [readDigest, Digest.ofBytes?, d.length_eq]

theorem readByte_toNat (b : UInt8) : readByte (.int b.toNat) = .ok b := by
  have hrange : (0 : Int) ≤ b.toNat ∧ (b.toNat : Int) < 256 :=
    ⟨Int.natCast_nonneg _, Int.ofNat_lt.mpr b.toNat_lt⟩
  simp only [readByte]
  rw [if_pos hrange, Int.toNat_natCast, UInt8.ofNat_toNat]

theorem readChild_childItem (child : UInt8 × Summary) :
    readChild (childItem child) = .ok child := by
  simp only [readChild, childItem, readByte_toNat, readDigest_bytes, readCount_toNat]
  rfl

/-- The triples of an ascending list of children are added one by one. -/
theorem readChildren_append (l : List (UInt8 × Summary)) :
    ∀ done : ByteMap Summary, (done.entries ++ l).Pairwise (fun x y => x.1 < y.1) →
      ∃ m, readChildren done (l.map childItem) = .ok m ∧ m.entries = done.entries ++ l := by
  induction l with
  | nil =>
      intro done _
      exact ⟨done, rfl, (List.append_nil _).symm⟩
  | cons child l ih =>
      intro done hasc
      have hbelow : ∀ e ∈ done.entries, e.1 < child.1 := fun e he =>
        (List.pairwise_append.mp hasc).2.2 e he child List.mem_cons_self
      have hinsert : (done.insert child.1 child.2).entries = done.entries ++ [child] :=
        ByteMap.insertEntry_of_forall_lt child.2 hbelow
      have hrest := ih (done.insert child.1 child.2)
      rw [hinsert, List.append_assoc] at hrest
      obtain ⟨m, hread, hentries⟩ := hrest hasc
      refine ⟨m, ?_, hentries⟩
      simp only [List.map_cons, readChildren, readChild_childItem,
        ByteMap.contains_eq_false_of_forall_lt hbelow]
      exact hread

theorem readChildren_childItems (children : ByteMap Summary) :
    readChildren ByteMap.empty (children.entries.map childItem) = .ok children := by
  obtain ⟨m, hread, hentries⟩ := readChildren_append children.entries ByteMap.empty children.ascending
  rw [hread, ByteMap.ext hentries]

theorem field?_digest (r : Record) :
    field? r.entryItems 0 = some (.bytes r.digest.bytes) := by
  simp [entryItems, field?]

theorem field?_count (r : Record) :
    field? r.entryItems 1 = some (.int r.itemCount.toNat) := by
  simp [entryItems, field?]

theorem field?_key (r : Record) :
    field? r.entryItems 2 = r.key.map fun key => .bytes key.bytes := by
  cases h : r.key <;> simp [entryItems, field?, h]

theorem field?_children (r : Record) :
    field? r.entryItems 3 = some (.array (r.children.entries.map childItem)) := by
  cases h : r.key <;> simp [entryItems, field?, h]

theorem readKey_bytes (key : Ident) : readKey (.bytes key.bytes) = .ok (some key) := by
  simp [readKey, key.length_eq]

/-- **The entries of a record are read back.** -/
theorem ofEntries_entryItems (r : Record) : ofEntries r.entryItems = .ok r := by
  obtain ⟨digest, count, key, children⟩ := r
  simp only [ofEntries, field?_digest, field?_count, field?_key, field?_children,
    readDigest_bytes, readCount_toNat, readChildren_childItems]
  cases key with
  | none => rfl
  | some key =>
      simp only [Option.map_some, readKey_bytes]
      rfl

end Read

/-- **The stored form of a record is read back.** -/
theorem decode_encode_append (r : Record) (rest : Bytes) :
    decode (r.encode ++ rest) = .ok r := by
  simp only [decode, decodeFault, ofBytes?_encode_append, ofEntries_entryItems]
  rfl

theorem decode_encode (r : Record) : decode r.encode = .ok r := by
  have hread := decode_encode_append r []
  rwa [List.append_nil] at hread

/-- **No stored form begins another one**: a reader of the longer one would have
to find both records at its front. -/
theorem encode_isPrefix_iff {r other : Record} : r.encode <+: other.encode ↔ r = other := by
  constructor
  · rintro ⟨rest, hrest⟩
    have hread := decode_encode_append r rest
    rw [hrest, decode_encode] at hread
    exact (Except.ok.inj hread).symm
  · rintro rfl
    exact List.prefix_rfl

theorem encode_injective : Function.Injective encode := by
  intro r other hsame
  exact encode_isPrefix_iff.mp (hsame ▸ List.prefix_rfl)

/-- **The stored form of records round-trips.**  Every record, with any digest, any
64-bit count, any key or none and any children, has a stored form, and reading
it gives the record back, whatever follows it.  So no stored form is a proper
beginning of another record's, and different records have different ones. -/
theorem stored_form_round_trips (r : Record) :
    (∀ rest, decode (r.encode ++ rest) = .ok r) ∧
      (∀ other : Record, r.encode <+: other.encode ↔ r = other) ∧
      ∀ other : Record, r.encode = other.encode ↔ r = other :=
  ⟨decode_encode_append r, fun _ => encode_isPrefix_iff, fun _ => encode_injective.eq_iff⟩

end Record
end MerkleSync
