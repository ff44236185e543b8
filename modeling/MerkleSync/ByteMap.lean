/-!
# Maps from bytes

The children of a node are named by one byte each.  A `ByteMap` is the list of
its entries in ascending order of their bytes, so two maps with the same
entries are equal and reading the values in order needs no sorting.
-/

namespace MerkleSync

/-- A finite map from bytes: its entries, strictly ascending by byte. -/
structure ByteMap (α : Type) where
  entries : List (UInt8 × α)
  ascending : entries.Pairwise fun a b => a.1 < b.1

namespace ByteMap

variable {α : Type}

@[ext] theorem ext {m n : ByteMap α} (h : m.entries = n.entries) : m = n := by
  cases m; cases n; cases h; rfl

instance [DecidableEq α] : DecidableEq (ByteMap α) := fun m n =>
  decidable_of_iff (m.entries = n.entries) ⟨ext, fun h => h ▸ rfl⟩

/-- The map without entries. -/
def empty : ByteMap α := ⟨[], .nil⟩

instance : Inhabited (ByteMap α) := ⟨empty⟩

/-- Whether there is no entry. -/
def isEmpty (m : ByteMap α) : Bool := m.entries.isEmpty

/-- The number of entries. -/
def size (m : ByteMap α) : Nat := m.entries.length

/-- The value stored for `b`. -/
def get? (m : ByteMap α) (b : UInt8) : Option α := m.entries.lookup b

/-- Whether `b` has an entry. -/
def contains (m : ByteMap α) (b : UInt8) : Bool := (m.get? b).isSome

/-- The values, ascending by their bytes. -/
def values (m : ByteMap α) : List α := m.entries.map (·.2)

/-- Puts an entry into an ascending list, in place of one for the same byte. -/
def insertEntry (b : UInt8) (v : α) : List (UInt8 × α) → List (UInt8 × α)
  | [] => [(b, v)]
  | e :: rest =>
    if b < e.1 then (b, v) :: e :: rest
    else if b = e.1 then (b, v) :: rest
    else e :: insertEntry b v rest

theorem mem_insertEntry {b : UInt8} {v : α} {l : List (UInt8 × α)} {e : UInt8 × α}
    (h : e ∈ insertEntry b v l) : e = (b, v) ∨ e ∈ l := by
  induction l with
  | nil => exact .inl (List.mem_singleton.1 h)
  | cons d rest ih =>
    unfold insertEntry at h
    split at h
    · exact List.mem_cons.1 h
    · split at h
      · exact (List.mem_cons.1 h).imp id (List.mem_cons_of_mem d)
      · rcases List.mem_cons.1 h with h | h
        · exact .inr (h ▸ List.mem_cons_self)
        · exact (ih h).imp id (List.mem_cons_of_mem d)

theorem ascending_insertEntry {b : UInt8} {v : α} {l : List (UInt8 × α)}
    (h : l.Pairwise fun x y => x.1 < y.1) :
    (insertEntry b v l).Pairwise fun x y => x.1 < y.1 := by
  induction l with
  | nil => exact List.pairwise_singleton _ _
  | cons e rest ih =>
    obtain ⟨hhead, htail⟩ := List.pairwise_cons.1 h
    unfold insertEntry
    split
    next hlt =>
      refine List.pairwise_cons.2 ⟨fun d hd => ?_, h⟩
      rcases List.mem_cons.1 hd with rfl | hd
      · exact hlt
      · exact UInt8.lt_trans hlt (hhead d hd)
    next hlt =>
      split
      next heq => exact List.pairwise_cons.2 ⟨fun d hd => heq ▸ hhead d hd, htail⟩
      next hne =>
        refine List.pairwise_cons.2 ⟨fun d hd => ?_, ih htail⟩
        rcases mem_insertEntry hd with rfl | hd
        · exact UInt8.lt_of_le_of_ne (UInt8.not_lt.1 hlt) (Ne.symm hne)
        · exact hhead d hd

/-- The map with `v` stored for `b`. -/
def insert (m : ByteMap α) (b : UInt8) (v : α) : ByteMap α :=
  ⟨insertEntry b v m.entries, ascending_insertEntry m.ascending⟩

/-- The map without an entry for `b`. -/
def erase (m : ByteMap α) (b : UInt8) : ByteMap α :=
  ⟨m.entries.filter fun e => e.1 != b, m.ascending.filter _⟩

/-- The map of a list of entries; of two for one byte the later counts. -/
def ofList (l : List (UInt8 × α)) : ByteMap α :=
  l.foldl (fun m e => m.insert e.1 e.2) empty

end ByteMap
end MerkleSync
