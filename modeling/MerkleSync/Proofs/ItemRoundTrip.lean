import Mathlib.Algebra.Ring.Nat
import Mathlib.Data.List.Forall2
import MerkleSync.Cbor.Item

/-!
# Written items are read back

What is written with the shortest head is read as the item it stands for, and
whatever follows it in the input is left.  The writers of integers, byte
strings, arrays and maps are paired with the generic reader at every nesting
depth that is large enough.

**Results.**
* `reads_bind`: readers one after another.
* `head_writeHead`: a written head is read back.
* `reads_listOf`: a list of written parts is read by a reader of the parts.
* `reads_int`, `reads_bytes`, `reads_array`, `reads_map`: items of each kind.
-/

namespace MerkleSync
namespace Bytes

theorem toNat_append_singleton (data : Bytes) (b : UInt8) :
    toNat (data ++ [b]) = toNat data * 256 + b.toNat := by
  simp [toNat]

theorem toNat_bigEndian (width n : Nat) : toNat (bigEndian width n) = n % 256 ^ width := by
  induction width generalizing n with
  | zero => simp [bigEndian, toNat, Nat.mod_one]
  | succ width ih =>
      have hbyte : (UInt8.ofNat n).toNat = n % 256 := UInt8.toNat_ofNat'
      rw [bigEndian, toNat_append_singleton, ih, hbyte, Nat.pow_succ', Nat.mod_mul]
      omega

theorem toNat_bigEndian_of_lt {width n : Nat} (h : n < 256 ^ width) :
    toNat (bigEndian width n) = n := by
  rw [toNat_bigEndian, Nat.mod_eq_of_lt h]

theorem splitExact_append {n : Nat} {data : Bytes} (h : data.length = n) (rest : Bytes) :
    splitExact n (data ++ rest) = some (data, rest) := by
  subst h
  simp [splitExact]

end Bytes

namespace Cbor

/-- A reader takes `written` from the front of the input, whatever follows. -/
def Reads {α : Type} (reader : Reader α) (written : Bytes) (value : α) : Prop :=
  ∀ rest, reader (written ++ rest) = some (value, rest)

section Readers

variable {α β : Type}

theorem reads_pure (a : α) : Reads (pure a) [] a := fun _ => rfl

theorem reads_bind {m : Reader α} {f : α → Reader β} {w w' : Bytes} {a : α} {b : β}
    (hm : Reads m w a) (hf : Reads (f a) w' b) : Reads (m >>= f) (w ++ w') b := by
  intro rest
  rw [List.append_assoc]
  show ((m (w ++ (w' ++ rest))).bind fun p => f p.1 p.2) = _
  rw [hm]
  exact hf rest

/-- The last reader needs no input. -/
theorem reads_bind_pure {m : Reader α} {f : α → Reader β} {w : Bytes} {a : α} {b : β}
    (hm : Reads m w a) (hf : Reads (f a) [] b) : Reads (m >>= f) w b := by
  have hbind := reads_bind hm hf
  rwa [List.append_nil] at hbind

end Readers

section Head

theorem argument_small {info : Nat} (h : info < 24) (rest : Bytes) :
    argument info rest = some ((some info, []), rest) := by
  simp [argument, h]

theorem argument_wide {info width n : Nat} (hlow : 24 ≤ info) (hhigh : info < 28)
    (hwidth : 1 <<< (info - 24) = width) (hn : n < 256 ^ width) (rest : Bytes) :
    argument info (Bytes.bigEndian width n ++ rest) =
      some ((some n, Bytes.bigEndian width n), rest) := by
  have hsplit := Bytes.splitExact_append (Bytes.length_bigEndian width n) rest
  unfold argument
  rw [if_neg (by omega), if_pos hhigh, hwidth, hsplit]
  simp [Bytes.toNat_bigEndian_of_lt hn]

/-- Below the last major type the bytes of the argument do not matter. -/
theorem ofArgument_number {major : Nat} (h : major < 7) (n : Option Nat) (number : Bytes) :
    Head.ofArgument major n number = Head.ofArgument major n [] := by
  rcases major with _ | _ | _ | _ | _ | _ | _ | major
  all_goals first | rfl | omega

theorem head_cons {major info : Nat} (hmajor : major < 7) (hinfo : info < 32)
    {data rest number : Bytes} {n : Nat} (harg : argument info data = some ((some n, number), rest)) :
    head (UInt8.ofNat (major * 32 + info) :: data) =
      (Head.ofArgument major (some n) []).map fun h => (h, rest) := by
  have hbyte : (UInt8.ofNat (major * 32 + info)).toNat = major * 32 + info :=
    UInt8.toNat_ofNat_of_lt' (by simp only [UInt8.size]; omega)
  have hmod : (major * 32 + info) % 32 = info := by omega
  have hdiv : (major * 32 + info) / 32 = major := by omega
  simp only [head, hbyte, hmod, hdiv, harg]
  rw [ofArgument_number hmajor]

/-- **A written head is read back.** -/
theorem head_writeHead {major n : Nat} (hmajor : major < 7) (hn : n < UInt64.size)
    (rest : Bytes) :
    head (writeHead major n ++ rest) =
      (Head.ofArgument major (some n) []).map fun h => (h, rest) := by
  unfold writeHead
  split
  · next h => exact head_cons hmajor (by omega) (argument_small h rest)
  · split
    · next h =>
        exact head_cons hmajor (by omega)
          (argument_wide (by omega) (by omega) rfl (by simpa [UInt8.size] using h) rest)
    · split
      · next h =>
          exact head_cons hmajor (by omega)
            (argument_wide (by omega) (by omega) rfl (by simpa [UInt16.size] using h) rest)
      · split
        · next h =>
            exact head_cons hmajor (by omega)
              (argument_wide (by omega) (by omega) rfl (by simpa [UInt32.size] using h) rest)
        · exact head_cons hmajor (by omega)
            (argument_wide (by omega) (by omega) rfl (by simpa [UInt64.size] using hn) rest)

end Head

section Lists

variable {α : Type} {item : Reader α}

/-- A step of a loop over items puts the next one in front. -/
theorem gather_eq_some_iff
    {done done' : List α}
    {input mid : Bytes} :
    (do return (← item) :: done : Reader (List α)) input = some (done', mid) ↔
      ∃ v, item input = some (v, mid) ∧ done' = v :: done := by
  show ((item input).bind fun p => some (p.1 :: done, p.2)) = _ ↔ _
  constructor
  · intro h
    obtain ⟨⟨v, mid'⟩, hvalue, hpair⟩ := Option.bind_eq_some_iff.mp h
    cases hpair
    exact ⟨v, hvalue, rfl⟩
  · rintro ⟨v, hvalue, rfl⟩
    rw [hvalue]
    rfl

/-- Several steps of a loop over items that are read one after another. -/
theorem repeatTimes_reads {written : List Bytes} {values : List α}
    (h : List.Forall₂ (Reads item) written values) (done : List α) (rest : Bytes) :
    repeatTimes (fun items => do return (← item) :: items) values.length done
        (written.flatten ++ rest) =
      some (values.reverse ++ done, rest) := by
  induction h generalizing done with
  | nil => rfl
  | @cons w v written values hread _ ih =>
      have hnext := hread (written.flatten ++ rest)
      rw [List.flatten_cons, List.append_assoc, List.length_cons, repeatTimes,
        gather_eq_some_iff.mpr ⟨v, hnext, rfl⟩, List.reverse_cons, List.append_assoc]
      exact ih (v :: done)

/-- **A list of written parts is read by a reader of the parts.** -/
theorem reads_listOf {written : List Bytes} {values : List α}
    (h : List.Forall₂ (Reads item) written values) :
    Reads (listOf item (some values.length)) written.flatten values := by
  intro rest
  show ((repeatTimes _ values.length [] (written.flatten ++ rest)).bind fun p =>
    some (p.1.reverse, p.2)) = _
  rw [repeatTimes_reads h]
  simp

end Lists

section Items

/-- The item of an integer. -/
theorem reads_int {n : Nat} (hn : n < UInt64.size) (depth : Nat) :
    Reads (item depth) (writeNat n) (.int n) := by
  intro rest
  have hhead : head (writeNat n ++ rest) = some (.positive n, rest) :=
    head_writeHead (by omega) hn rest
  cases depth
  all_goals
    show (head (writeNat n ++ rest)).bind _ = _
    rw [hhead]
    rfl

/-- The item of a byte string. -/
theorem reads_bytes {data : Bytes} (hlen : data.length < UInt64.size) (depth : Nat) :
    Reads (item depth) (writeBytes data) (.bytes data) := by
  intro rest
  have hhead : head (writeBytes data ++ rest) = some (.bytes (some data.length), data ++ rest) := by
    rw [writeBytes, List.append_assoc, head_writeHead (by omega) hlen]
    rfl
  have hbody : bytesBody (some data.length) (data ++ rest) = some (data, rest) := by
    show ((take data.length (data ++ rest)).bind fun p => some ([p.1], p.2)).bind
      (fun p => some (p.1.flatten, p.2)) = _
    rw [take, Bytes.splitExact_append rfl]
    simp
  cases depth
  all_goals
    show (head (writeBytes data ++ rest)).bind _ = _
    rw [hhead]
    show (bytesBody (some data.length) (data ++ rest)).bind _ = _
    rw [hbody]
    rfl

/-- The item of an array of items one level further down. -/
theorem reads_array {depth : Nat} {written : List Bytes} {items : List Item}
    (hparts : List.Forall₂ (Reads (item depth)) written items)
    (hlen : items.length < UInt64.size) :
    Reads (item (depth + 1)) (writeArray written) (.array items) := by
  intro rest
  have hhead : head (writeArray written ++ rest) =
      some (.array (some items.length), written.flatten ++ rest) := by
    rw [writeArray, List.append_assoc, hparts.length_eq, head_writeHead (by omega) hlen]
    rfl
  show (head (writeArray written ++ rest)).bind _ = _
  rw [hhead]
  show (listOf (item depth) (some items.length) (written.flatten ++ rest)).bind _ = _
  rw [reads_listOf hparts rest]
  rfl

/-- The item of a map of entries one level further down. -/
theorem reads_map {depth : Nat} {written : List (Bytes × Bytes)} {entries : List (Item × Item)}
    (hparts : List.Forall₂
      (fun w e => Reads (item depth) w.1 e.1 ∧ Reads (item depth) w.2 e.2) written entries)
    (hlen : entries.length < UInt64.size) :
    Reads (item (depth + 1)) (writeMap written) (.map entries) := by
  intro rest
  have hhead : head (writeMap written ++ rest) =
      some (.map (some entries.length), (written.map fun e => e.1 ++ e.2).flatten ++ rest) := by
    rw [writeMap, List.append_assoc, hparts.length_eq, head_writeHead (by omega) hlen]
    rfl
  have hpairs : List.Forall₂
      (Reads (do return (← item depth, ← item depth) : Reader (Item × Item)))
      (written.map fun e => e.1 ++ e.2) entries := by
    rw [List.forall₂_map_left_iff]
    refine hparts.imp fun w e hread => ?_
    intro more
    show ((item depth ((w.1 ++ w.2) ++ more)).bind fun p =>
      (item depth p.2).bind fun q => some ((p.1, q.1), q.2)) = _
    rw [List.append_assoc, hread.1, Option.bind_some, hread.2]
    rfl
  show (head (writeMap written ++ rest)).bind _ = _
  rw [hhead]
  show (listOf (do return (← item depth, ← item depth) : Reader (Item × Item))
    (some entries.length) ((written.map fun e => e.1 ++ e.2).flatten ++ rest)).bind _ = _
  rw [reads_listOf hpairs rest]
  rfl

end Items
end Cbor
end MerkleSync
