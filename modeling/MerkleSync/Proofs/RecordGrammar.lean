import Mathlib.Data.List.Nodup
import Mathlib.Data.Set.List
import MerkleSync.Proofs.RecordRoundTrip
import MerkleSync.Proofs.SelfDelimiting

/-!
# What is accepted as a record

A record is read from any map, not only from the one its stored form holds: the fields
may stand in any order and in any encoding, further entries may stand between them, and
of several entries with one key the first counts.  So later versions may add fields.

**Results.**
* `field?_eq_some_iff`: a field is the first entry with its key.
* `readChildren_eq_ok_iff`: triples with different bytes are the children.
* `ofEntries_eq_ok_iff`: what a record is made of.
* `grammatical_iff`: which entries make one.
* `field?_eq_of_rearranged`: other entries and the order have no influence.
* `decoder_accepts_its_grammar`: the reader as a whole.
-/

namespace MerkleSync
namespace Record

open Cbor (Item EncodesMap nestingLimit)

section Fields

variable {entries entries' : List (Item × Item)} {n : Int} {v : Item}

/-- The first entry with the integer key has this value. -/
def FirstValue
    (entries : List (Item × Item))
    (n : Int)
    (v : Item) : Prop :=
  ∃ before after,
    entries = before ++ (.int n, v) :: after ∧ ∀ e ∈ before, e.1 ≠ .int n

/-- No entry has the integer key. -/
def NoValue
    (entries : List (Item × Item))
    (n : Int) : Prop :=
  ∀ e ∈ entries, e.1 ≠ .int n

/-- Whether an entry has the integer key. -/
def hasKey (n : Int) (e : Item × Item) : Bool :=
  match e.1 with
  | .int k => k == n
  | _ => false

@[simp] theorem hasKey_iff {e : Item × Item} : hasKey n e = true ↔ e.1 = .int n := by
  rw [hasKey]
  cases e.1 <;> simp

@[simp] theorem hasKey_eq_false_iff {e : Item × Item} : hasKey n e = false ↔ e.1 ≠ .int n := by
  rw [← Bool.not_eq_true, hasKey_iff]

theorem field?_eq (entries : List (Item × Item)) (n : Int) :
    field? entries n = (entries.find? (hasKey n)).map (·.2) := rfl

theorem field?_eq_some_iff : field? entries n = some v ↔ FirstValue entries n v := by
  simp only [field?_eq, Option.map_eq_some_iff, List.find?_eq_some_iff_append, hasKey_iff,
    Bool.not_eq_true', hasKey_eq_false_iff]
  constructor
  · rintro ⟨⟨key, _⟩, ⟨rfl, before, after, rfl, hbefore⟩, rfl⟩
    exact ⟨before, after, rfl, hbefore⟩
  · rintro ⟨before, after, rfl, hbefore⟩
    exact ⟨(.int n, v), ⟨rfl, before, after, rfl, hbefore⟩, rfl⟩

theorem field?_eq_none_iff : field? entries n = none ↔ NoValue entries n := by
  simp [field?_eq, NoValue]

/-- The integer keys of the fields of a record. -/
def IsFieldKey (key : Item) : Prop := ∃ n : Int, key = .int n ∧ 0 ≤ n ∧ n < 4

/-- Entries that differ in no field: entries with other keys were added anywhere, and
entries were reordered, but not those with one integer key among themselves. -/
inductive Rearranged : List (Item × Item) → List (Item × Item) → Prop
  | added
      (before after : List (Item × Item))
      {e : Item × Item}
      (hother : ¬IsFieldKey e.1) :
      Rearranged (before ++ after) (before ++ e :: after)
  | reordered
      {entries entries' : List (Item × Item)}
      (hperm : entries.Perm entries')
      (horder : ∀ n, entries'.filter (hasKey n) = entries.filter (hasKey n)) :
      Rearranged entries entries'
  | trans
      {entries entries' entries'' : List (Item × Item)}
      (first : Rearranged entries entries')
      (second : Rearranged entries' entries'') :
      Rearranged entries entries''

theorem field?_append (before after : List (Item × Item)) (n : Int) :
    field? (before ++ after) n = (field? before n).or (field? after n) := by
  simp [field?_eq, Option.map_or]

theorem field?_cons_of_ne
    {e : Item × Item}
    (h : e.1 ≠ .int n)
    (after : List (Item × Item)) :
    field? (e :: after) n = field? after n := by
  simp [field?_eq, h]

theorem field?_eq_of_rearranged
    (h : Rearranged entries entries')
    (hlow : 0 ≤ n)
    (hhigh : n < 4) :
    field? entries' n = field? entries n := by
  induction h with
  | added before after hother =>
      rw [field?_append, field?_append,
        field?_cons_of_ne fun hkey => hother ⟨n, hkey, hlow, hhigh⟩]
  | reordered _ horder =>
      rw [field?_eq, field?_eq, ← List.head?_filter, ← List.head?_filter, horder]
  | trans _ _ hfirst hsecond => rw [hsecond, hfirst]

end Fields

section Parts

theorem readCount_eq_ok_iff
    {notInteger outOfRange : RecordFault}
    {it : Item}
    {n : UInt64} :
    readCount notInteger outOfRange it = .ok n ↔ it = .int n.toNat := by
  constructor
  · intro h
    cases it with
    | int k =>
        rw [readCount] at h
        split at h
        · next hrange =>
            cases h
            have hlt : k.toNat < UInt64.size := by omega
            rw [UInt64.toNat_ofNat_of_lt' hlt, Int.toNat_of_nonneg hrange.1]
        · cases h
    | _ => cases h
  · rintro rfl
    exact readCount_toNat notInteger outOfRange n

theorem readDigest_eq_ok_iff
    {fault : RecordFault}
    {it : Item}
    {d : Digest} :
    readDigest fault it = .ok d ↔ it = .bytes d.bytes := by
  constructor
  · intro h
    cases it with
    | bytes data =>
        simp only [readDigest, Digest.ofBytes?] at h
        by_cases hlen : data.length = digestLength
        · simp only [hlen, dite_true] at h
          cases h
          rfl
        · simp [hlen] at h
    | _ => cases h
  · rintro rfl
    exact readDigest_bytes fault d

theorem readKey_eq_ok_iff
    {it : Item}
    {key : Option Ident} :
    readKey it = .ok key ↔ it = match key with
      | some key => .bytes key.bytes
      | none => .null := by
  constructor
  · intro h
    cases it with
    | bytes data =>
        rw [readKey] at h
        split at h
        · cases h
          rfl
        · cases h
    | null =>
        cases h
        rfl
    | _ => cases h
  · rintro rfl
    cases key with
    | none => rfl
    | some key => exact readKey_bytes key

theorem readByte_eq_ok_iff
    {it : Item}
    {b : UInt8} :
    readByte it = .ok b ↔ it = .int b.toNat := by
  constructor
  · intro h
    cases it with
    | int k =>
        rw [readByte] at h
        split at h
        · next hrange =>
            cases h
            have hlt : k.toNat < UInt8.size := by
              simp only [UInt8.size]
              omega
            rw [UInt8.toNat_ofNat_of_lt' hlt, Int.toNat_of_nonneg hrange.1]
        · cases h
    | _ => cases h
  · rintro rfl
    exact readByte_toNat b

/-- Reading one part after another succeeds as often as each of them does. -/
theorem bind_eq_ok_iff
    {ε α β : Type}
    {x : Except ε α}
    {f : α → Except ε β}
    {b : β} :
    (x >>= f) = .ok b ↔ ∃ a, x = .ok a ∧ f a = .ok b := by
  cases x with
  | error e =>
      constructor
      · exact fun h => nomatch h
      · rintro ⟨a, ha, -⟩
        cases ha
  | ok a =>
      constructor
      · exact fun h => ⟨a, rfl, h⟩
      · rintro ⟨_, ha, h⟩
        cases ha
        exact h

theorem readChild_eq_ok_iff
    {it : Item}
    {child : UInt8 × Summary} :
    readChild it = .ok child ↔ it = childItem child := by
  constructor
  · intro h
    unfold readChild at h
    split at h
    · obtain ⟨byte, hbyte, h⟩ := bind_eq_ok_iff.mp h
      obtain ⟨digest, hdigest, h⟩ := bind_eq_ok_iff.mp h
      obtain ⟨count, hcount, h⟩ := bind_eq_ok_iff.mp h
      cases h
      rw [readByte_eq_ok_iff.mp hbyte, readDigest_eq_ok_iff.mp hdigest,
        readCount_eq_ok_iff.mp hcount]
      rfl
    · cases h
  · rintro rfl
    exact readChild_childItem child

theorem readChildren_cons_eq_ok_iff
    {done m : ByteMap Summary}
    {it : Item}
    {items : List Item} :
    readChildren done (it :: items) = .ok m ↔
      ∃ child : UInt8 × Summary,
        it = childItem child ∧ done.contains child.1 = false ∧
          readChildren (done.insert child.1 child.2) items = .ok m := by
  rw [readChildren]
  constructor
  · intro h
    split at h
    · cases h
    · next byte summary hchild =>
        split at h
        · cases h
        · next hnew =>
            exact ⟨(byte, summary), readChild_eq_ok_iff.mp hchild, by simpa using hnew, h⟩
  · rintro ⟨child, rfl, hnew, h⟩
    simp only [readChild_childItem, hnew]
    exact h

/-- **Triples with different bytes are added to the children**, and nothing else is. -/
theorem readChildren_eq_ok_iff
    {done m : ByteMap Summary}
    {items : List Item} :
    readChildren done items = .ok m ↔
      ∃ children : List (UInt8 × Summary),
        items = children.map childItem ∧
          (children.map (·.1)).Nodup ∧
          (∀ child ∈ children, done.contains child.1 = false) ∧
          ∀ b s, m.get? b = some s ↔ (b, s) ∈ children ∨ done.get? b = some s := by
  induction items generalizing done with
  | nil =>
      constructor
      · intro h
        cases h
        exact ⟨[], rfl, by simp, by simp, by simp⟩
      · rintro ⟨children, hnil, -, -, hget⟩
        obtain rfl := List.map_eq_nil_iff.mp hnil.symm
        have hsame : done = m :=
          ByteMap.ext_get? fun b => Option.ext fun s => by simp [hget b s]
        rw [hsame]
        rfl
  | cons it items ih =>
      rw [readChildren_cons_eq_ok_iff]
      -- What a new child adds to the children that were read before it.
      have hadd : ∀ {child : UInt8 × Summary}, done.contains child.1 = false → ∀ children b s,
          (b, s) ∈ child :: children ∨ done.get? b = some s ↔
            (b, s) ∈ children ∨ (done.insert child.1 child.2).get? b = some s := by
        intro child hnew children b s
        rw [ByteMap.get?_insert_eq_some_iff hnew, List.mem_cons, or_left_comm, or_assoc]
      constructor
      · rintro ⟨child, rfl, hnew, hread⟩
        obtain ⟨children, rfl, hnodup, hfresh, hget⟩ := ih.mp hread
        simp only [ByteMap.contains_insert_eq_false_iff] at hfresh
        refine ⟨child :: children, rfl, ?_, ?_, ?_⟩
        · simp only [List.map_cons, List.nodup_cons, List.mem_map]
          refine ⟨?_, hnodup⟩
          rintro ⟨other, hother, hsame⟩
          exact (hfresh other hother).1 hsame
        · simpa [hnew] using fun a b hab => (hfresh (a, b) hab).2
        · exact fun b s => (hget b s).trans (hadd hnew children b s).symm
      · rintro ⟨children, hitems, hnodup, hfresh, hget⟩
        cases children with
        | nil => cases hitems
        | cons child children =>
            obtain ⟨rfl, rfl⟩ := List.cons_eq_cons.mp hitems
            rw [List.map_cons, List.nodup_cons] at hnodup
            have hnew := hfresh child List.mem_cons_self
            refine ⟨child, rfl, hnew, ih.mpr ⟨children, rfl, hnodup.2, ?_, ?_⟩⟩
            · intro other hother
              rw [ByteMap.contains_insert_eq_false_iff]
              refine ⟨fun hsame => hnodup.1 ?_, hfresh other (List.mem_cons_of_mem _ hother)⟩
              exact List.mem_map.mpr ⟨other, hother, hsame⟩
            · exact fun b s => (hget b s).trans (hadd hnew children b s)

end Parts

section Records

variable {entries entries' : List (Item × Item)} {r : Record}

/-- The entries give this key, or none. -/
def GivesKey (entries : List (Item × Item)) : Option Ident → Prop
  | some key => FirstValue entries 2 (.bytes key.bytes)
  | none => NoValue entries 2 ∨ FirstValue entries 2 .null

/-- The entries give these children: there is no field for them, or it is an array of
triples with different bytes. -/
def GivesChildren
    (entries : List (Item × Item))
    (m : ByteMap Summary) : Prop :=
  NoValue entries 3 ∧ m = ByteMap.empty ∨
    ∃ children : List (UInt8 × Summary),
      FirstValue entries 3 (.array (children.map childItem)) ∧
        (children.map (·.1)).Nodup ∧
        ∀ b s, m.get? b = some s ↔ (b, s) ∈ children

/-- The record that entries make: every part is that of the first entry with its key. -/
structure Describes
    (entries : List (Item × Item))
    (r : Record) : Prop where
  digest : FirstValue entries 0 (.bytes r.digest.bytes)
  itemCount : FirstValue entries 1 (.int r.itemCount.toNat)
  key : GivesKey entries r.key
  children : GivesChildren entries r.children

/-- A triple of byte, digest and item count as it stands in an array. -/
def tripleItem (triple : Int × Bytes × Int) : Item :=
  .array [.int triple.1, .bytes triple.2.1, .int triple.2.2]

/-- The bounds for the triple of a child. -/
def InBounds (triple : Int × Bytes × Int) : Prop :=
  (0 ≤ triple.1 ∧ triple.1 ≤ 255) ∧ triple.2.1.length = 20 ∧
    0 ≤ triple.2.2 ∧ triple.2.2 < UInt64.size

/-- The entries that make a record. -/
structure Grammatical (entries : List (Item × Item)) : Prop where
  digest : ∃ digest, FirstValue entries 0 (.bytes digest) ∧ digest.length = 20
  itemCount : ∃ count, FirstValue entries 1 (.int count) ∧ 0 ≤ count ∧ count < UInt64.size
  key : NoValue entries 2 ∨ FirstValue entries 2 .null ∨
    ∃ key, FirstValue entries 2 (.bytes key) ∧ key.length = 30
  children : NoValue entries 3 ∨
    ∃ triples : List (Int × Bytes × Int),
      FirstValue entries 3 (.array (triples.map tripleItem)) ∧
        (triples.map (·.1)).Nodup ∧ ∀ triple ∈ triples, InBounds triple

/-- The triple of a child. -/
def tripleOf (child : UInt8 × Summary) : Int × Bytes × Int :=
  (child.1.toNat, child.2.digest.bytes, child.2.itemCount.toNat)

/-- A field that is read if it is there. -/
def readField
    {α : Type}
    (missing : Except RecordFault α)
    (read : Item → Except RecordFault α)
    (found : Option Item) : Except RecordFault α :=
  match found with
  | some it => read it
  | none => missing

theorem readField_eq_ok_iff
    {α : Type}
    {missing : Except RecordFault α}
    {read : Item → Except RecordFault α}
    {found : Option Item}
    {a : α} :
    readField missing read found = .ok a ↔
      (∃ it, found = some it ∧ read it = .ok a) ∨ found = none ∧ missing = .ok a := by
  cases found <;> simp [readField]

/-- The children of the field for them. -/
def readChildrenField : Item → Except RecordFault (ByteMap Summary)
  | .array items => readChildren ByteMap.empty items
  | _ => .error .childrenNotArray

theorem keyField_eq_ok_iff
    {key : Option Ident} :
    readField (.ok none) readKey (field? entries 2) = .ok key ↔ GivesKey entries key := by
  cases key <;>
    simp [readField_eq_ok_iff, readKey_eq_ok_iff, field?_eq_some_iff, field?_eq_none_iff, GivesKey,
      or_comm]

theorem childrenField_eq_ok_iff
    {m : ByteMap Summary} :
    readField (.ok ByteMap.empty) readChildrenField (field? entries 3) = .ok m ↔
      GivesChildren entries m := by
  have hread : ∀ items, readChildrenField (.array items) = .ok m ↔
      ∃ children : List (UInt8 × Summary),
        items = children.map childItem ∧
          (children.map (·.1)).Nodup ∧
          ∀ b s, m.get? b = some s ↔ (b, s) ∈ children := fun items => by
    simp [readChildrenField, readChildren_eq_ok_iff, ByteMap.contains]
  simp only [readField_eq_ok_iff, field?_eq_none_iff, field?_eq_some_iff, Except.ok.injEq]
  constructor
  · rintro (⟨it, hfirst, hit⟩ | ⟨hno, hempty⟩)
    · cases it with
      | array items =>
          obtain ⟨children, rfl, hchildren⟩ := (hread items).mp hit
          exact .inr ⟨children, hfirst, hchildren⟩
      | _ => cases hit
    · exact .inl ⟨hno, hempty.symm⟩
  · rintro (⟨hno, hempty⟩ | ⟨children, hfirst, hchildren⟩)
    · exact .inr ⟨hno, hempty.symm⟩
    · exact .inl ⟨_, hfirst, (hread _).mpr ⟨children, rfl, hchildren⟩⟩

/-- The fields of a record are read one after another. -/
theorem ofEntries_eq (entries : List (Item × Item)) :
    ofEntries entries = do
      let digest ← readField (.error .missingDigest) (readDigest .badDigest) (field? entries 0)
      let count ← readField (.error .missingCount) (readCount .countNotInteger .countOutOfRange)
        (field? entries 1)
      let key ← readField (.ok none) readKey (field? entries 2)
      let children ← readField (.ok ByteMap.empty) readChildrenField (field? entries 3)
      return ⟨digest, count, key, children⟩ := by
  unfold ofEntries
  cases field? entries 0 with
  | none => rfl
  | some digest =>
      cases field? entries 1 with
      | none => rfl
      | some count =>
          cases field? entries 2 with
          | none =>
              cases field? entries 3 with
              | none => rfl
              | some children => cases children <;> rfl
          | some key =>
              cases field? entries 3 with
              | none => rfl
              | some children => cases children <;> rfl

/-- **What a record is made of.** -/
theorem ofEntries_eq_ok_iff : ofEntries entries = .ok r ↔ Describes entries r := by
  have hdigest : ∀ {d}, readField (.error .missingDigest) (readDigest .badDigest)
      (field? entries 0) = .ok d ↔ FirstValue entries 0 (.bytes d.bytes) := by
    simp [readField_eq_ok_iff, readDigest_eq_ok_iff, field?_eq_some_iff]
  have hcount : ∀ {n}, readField (.error .missingCount)
      (readCount .countNotInteger .countOutOfRange) (field? entries 1) = .ok n ↔
        FirstValue entries 1 (.int n.toNat) := by
    simp [readField_eq_ok_iff, readCount_eq_ok_iff, field?_eq_some_iff]
  rw [ofEntries_eq]
  simp only [bind_eq_ok_iff, hdigest, hcount, keyField_eq_ok_iff, childrenField_eq_ok_iff]
  constructor
  · rintro ⟨_, hdigest, _, hcount, _, hkey, _, hchildren, h⟩
    cases h
    exact ⟨hdigest, hcount, hkey, hchildren⟩
  · rintro ⟨hdigest, hcount, hkey, hchildren⟩
    exact ⟨_, hdigest, _, hcount, _, hkey, _, hchildren, rfl⟩

/-- Integers within the bounds of a word are words. -/
theorem exists_word {n : Int} (hlow : 0 ≤ n) (hhigh : n < UInt64.size) :
    ∃ w : UInt64, (w.toNat : Int) = n := by
  refine ⟨UInt64.ofNat n.toNat, ?_⟩
  rw [UInt64.toNat_ofNat_of_lt' (by omega)]
  omega

/-- A triple within the bounds is that of a child. -/
theorem exists_child_of_triple
    {triple : Int × Bytes × Int}
    (h : InBounds triple) :
    ∃ child : UInt8 × Summary, tripleOf child = triple := by
  obtain ⟨b, digest, count⟩ := triple
  obtain ⟨⟨hblow, hbhigh⟩, hlen, hclow, hchigh⟩ := h
  obtain ⟨word, hword⟩ := exists_word hclow hchigh
  refine ⟨(UInt8.ofNat b.toNat, ⟨⟨digest, hlen⟩, word⟩), ?_⟩
  simp only [tripleOf, hword, Prod.mk.injEq, and_true]
  rw [UInt8.toNat_ofNat_of_lt' (by simp only [UInt8.size]; omega)]
  omega

theorem inBounds_tripleOf (child : UInt8 × Summary) : InBounds (tripleOf child) := by
  have hbyte := child.1.toNat_lt
  refine ⟨⟨Int.natCast_nonneg _, ?_⟩, child.2.digest.length_eq, Int.natCast_nonneg _, ?_⟩
  · simp only [tripleOf]
    omega
  · exact Int.ofNat_lt.mpr child.2.itemCount.toNat_lt

/-- Triples within the bounds are those of children. -/
theorem exists_children_of_triples
    {triples : List (Int × Bytes × Int)}
    (h : ∀ triple ∈ triples, InBounds triple) :
    ∃ children : List (UInt8 × Summary), children.map tripleOf = triples := by
  have hrange : triples ∈ Set.range (List.map tripleOf) := by
    rw [Set.range_list_map]
    exact fun triple htriple => exists_child_of_triple (h triple htriple)
  exact hrange

theorem nodup_bytes_iff {children : List (UInt8 × Summary)} :
    ((children.map tripleOf).map (·.1)).Nodup ↔ (children.map (·.1)).Nodup := by
  have hinj : Function.Injective fun b : UInt8 => (b.toNat : Int) :=
    fun b c hbc => UInt8.toNat_inj.mp (Int.ofNat_inj.mp hbc)
  rw [← List.nodup_map_iff hinj, List.map_map, List.map_map]
  rfl

theorem exists_givesChildren_iff :
    (∃ m, GivesChildren entries m) ↔
      NoValue entries 3 ∨
        ∃ triples : List (Int × Bytes × Int),
          FirstValue entries 3 (.array (triples.map tripleItem)) ∧
            (triples.map (·.1)).Nodup ∧ ∀ triple ∈ triples, InBounds triple := by
  constructor
  · rintro ⟨m, ⟨hno, -⟩ | ⟨children, hfirst, hnodup, -⟩⟩
    · exact .inl hno
    · refine .inr ⟨children.map tripleOf, ?_, nodup_bytes_iff.mpr hnodup, ?_⟩
      · rwa [List.map_map]
      · intro triple htriple
        obtain ⟨child, -, rfl⟩ := List.mem_map.mp htriple
        exact inBounds_tripleOf child
  · rintro (hno | ⟨triples, hfirst, hnodup, hbounds⟩)
    · exact ⟨ByteMap.empty, .inl ⟨hno, rfl⟩⟩
    · obtain ⟨children, rfl⟩ := exists_children_of_triples hbounds
      rw [List.map_map] at hfirst
      rw [nodup_bytes_iff] at hnodup
      obtain ⟨m, hm⟩ := ByteMap.exists_of_nodup hnodup
      exact ⟨m, .inr ⟨children, hfirst, hnodup, hm⟩⟩

/-- **Which entries make a record.** -/
theorem grammatical_iff : Grammatical entries ↔ ∃ r, Describes entries r := by
  constructor
  · rintro ⟨⟨digest, hdigest, hlen⟩, ⟨count, hcount, hlow, hhigh⟩, hkey, hchildren⟩
    obtain ⟨word, rfl⟩ := exists_word hlow hhigh
    obtain ⟨key, hkey⟩ : ∃ key, GivesKey entries key := by
      rcases hkey with hno | hnull | ⟨key, hkey, hlen⟩
      · exact ⟨none, .inl hno⟩
      · exact ⟨none, .inr hnull⟩
      · exact ⟨some ⟨key, hlen⟩, hkey⟩
    obtain ⟨children, hchildren⟩ := exists_givesChildren_iff.mpr hchildren
    exact ⟨⟨⟨digest, hlen⟩, word, key, children⟩, hdigest, hcount, hkey, hchildren⟩
  · rintro ⟨⟨digest, count, key, children⟩, hdigest, hcount, hkey, hchildren⟩
    refine ⟨⟨_, hdigest, digest.length_eq⟩, ⟨_, hcount, by omega, ?_⟩, ?_,
      exists_givesChildren_iff.mp ⟨children, hchildren⟩⟩
    · exact Int.ofNat_lt.mpr count.toNat_lt
    · cases key with
      | none => exact hkey.imp_right .inl
      | some key => exact .inr (.inr ⟨_, hkey, key.length_eq⟩)

/-- Data is read as a map where the written form of one stands at its front. -/
theorem ofBytes?_eq_map_iff {data : Bytes} :
    Item.ofBytes? data = some (.map entries) ↔
      ∃ written rest, data = written ++ rest ∧ EncodesMap (nestingLimit - 1) entries written := by
  rw [Item.ofBytes?, Option.map_eq_some_iff]
  constructor
  · rintro ⟨⟨_, rest⟩, hread, rfl⟩
    obtain ⟨written, hdata, hwritten⟩ := Cbor.item_eq_map_iff.mp hread
    exact ⟨written, rest, hdata, hwritten⟩
  · rintro ⟨written, rest, hdata, hwritten⟩
    exact ⟨(.map entries, rest), Cbor.item_eq_map_iff.mpr ⟨written, hdata, hwritten⟩, rfl⟩

theorem decode_eq_ofEntries
    {written : Bytes}
    (h : EncodesMap (nestingLimit - 1) entries written)
    (rest : Bytes) :
    decode (written ++ rest) = (ofEntries entries).mapError .malformedRecord := by
  simp only [decode, decodeFault, ofBytes?_eq_map_iff.mpr ⟨written, rest, rfl, h⟩]

/-- A record or a fault of the data is the only result. -/
theorem decode_eq_malformed
    {data : Bytes}
    (h : ¬∃ r, decode data = .ok r) :
    ∃ fault, decode data = .error (.malformedRecord fault) := by
  rw [decode] at h ⊢
  cases hread : decodeFault data with
  | error fault => exact ⟨fault, rfl⟩
  | ok r => exact absurd ⟨r, by rw [hread]; rfl⟩ h

/-- **Entries that differ in no field make the same record**, or have the same fault. -/
theorem ofEntries_eq_of_rearranged (h : Rearranged entries entries') :
    ofEntries entries' = ofEntries entries := by
  have hfield : ∀ n : Int, 0 ≤ n → n < 4 → field? entries' n = field? entries n :=
    fun _ hlow hhigh => field?_eq_of_rearranged h hlow hhigh
  rw [ofEntries_eq, ofEntries_eq, hfield 0 (by omega) (by omega), hfield 1 (by omega) (by omega),
    hfield 2 (by omega) (by omega), hfield 3 (by omega) (by omega)]

/-- **The reader of records accepts exactly its grammar.**  Of a map with any entries, in
any of its written forms and with anything after it, the reader makes the record whose
parts are the first entries with their keys, and it makes one if and only if these
entries are as they should be.  Otherwise the record is malformed, and so is all data
that does not start with the written form of a map.  Entries with other keys, and the
order of entries with different keys, have no influence. -/
theorem decoder_accepts_its_grammar
    {written : Bytes}
    (h : EncodesMap (nestingLimit - 1) entries written)
    (rest : Bytes) :
    (∀ r, decode (written ++ rest) = .ok r ↔ Describes entries r) ∧
      ((∃ r, decode (written ++ rest) = .ok r) ↔ Grammatical entries) ∧
      (¬Grammatical entries →
        ∃ fault, decode (written ++ rest) = .error (.malformedRecord fault)) ∧
      (∀ entries' written',
        EncodesMap (nestingLimit - 1) entries' written' → Rearranged entries entries' →
          decode written' = decode written) ∧
      ∀ data,
        (∀ others front more,
          EncodesMap (nestingLimit - 1) others front → data ≠ front ++ more) →
          ∃ fault, decode data = .error (.malformedRecord fault) := by
  have hrecord : ∀ r, decode (written ++ rest) = .ok r ↔ Describes entries r := by
    intro r
    rw [decode_eq_ofEntries h, ← ofEntries_eq_ok_iff]
    cases ofEntries entries <;> simp [Except.mapError]
  have haccepted : (∃ r, decode (written ++ rest) = .ok r) ↔ Grammatical entries := by
    simp only [hrecord, grammatical_iff]
  refine ⟨hrecord, haccepted, fun hnot => decode_eq_malformed (mt haccepted.mp hnot), ?_, ?_⟩
  · intro entries' written' h' hrearranged
    have hwhole := decode_eq_ofEntries h []
    have hwhole' := decode_eq_ofEntries h' []
    rw [List.append_nil] at hwhole hwhole'
    rw [hwhole, hwhole', ofEntries_eq_of_rearranged hrearranged]
  · intro data hnomap
    refine decode_eq_malformed ?_
    rintro ⟨r, hr⟩
    simp only [decode, decodeFault] at hr
    split at hr
    · cases hr
    · next others hmap =>
        obtain ⟨front, more, hdata, hfront⟩ := ofBytes?_eq_map_iff.mp hmap
        exact hnomap others front more hfront hdata
    · cases hr

/-- An unknown entry, the item count, a second one that does not count, and the digest, in
a map of indefinite length. -/
theorem decoder_accepts_further_entries :
    decode ([0xBF, 9, 0xF6, 1, 3, 1, 0xF6, 0, 0x54] ++ List.replicate 20 0 ++ [0xFF] ++ [0x13]) =
      .ok ⟨Digest.empty, 3, none, ByteMap.empty⟩ := by
  have hentries : EncodesMap (nestingLimit - 1)
      [(.int 9, .null), (.int 1, .int 3), (.int 1, .null), (.int 0, .bytes (List.replicate 20 0))]
      ([0xBF] ++ ([([9], [0xF6]), ([1], [3]), ([1], [0xF6]),
        ([0], 0x54 :: List.replicate 20 0)].flatMap fun w => w.1 ++ w.2) ++ [0xFF]) :=
    .indefinite rfl (.cons ⟨rfl, rfl⟩ (.cons ⟨rfl, rfl⟩ (.cons ⟨rfl, rfl⟩ (.cons ⟨rfl, rfl⟩ .nil))))
  refine ((decoder_accepts_its_grammar hentries [0x13]).1 _).mpr ⟨?_, ?_, ?_, ?_⟩
  · exact field?_eq_some_iff.mp rfl
  · exact field?_eq_some_iff.mp rfl
  · exact .inl (field?_eq_none_iff.mp rfl)
  · exact .inl ⟨field?_eq_none_iff.mp rfl, rfl⟩

end Records
end Record
end MerkleSync
