import Mathlib.Data.Nat.Digits.Defs
import Mathlib.Data.String.Basic
import MerkleSync.Error
import MerkleSync.Bytes.Text

/-!
# Texts of errors are short

An error is sent to a peer as a text, which has to fit into a message.  The
texts are put together from fixed words, numbers, and paths in hexadecimal
digits.  Their length is counted in pieces of eighty bytes: room for one fixed
word, or for a number of twenty digits.

**Results.**
* `short_number`, `short_toHex`: numbers and paths.
* `RecordFault.short_message`: what is wrong with a record, unless it is a text
  of its own.
-/

namespace MerkleSync

/-- The text takes at most `k` pieces of eighty bytes. -/
def Short (k : Nat) (text : String) : Prop := text.utf8ByteSize ≤ 80 * k

instance (k : Nat) (text : String) : Decidable (Short k text) := Nat.decLe _ _

section Texts

variable {j k : Nat} {a b : String}

theorem Short.append (ha : Short j a) (hb : Short k b) : Short (j + k) (a ++ b) := by
  have hsum := Nat.add_le_add ha hb
  rw [Short, String.utf8ByteSize_append]
  omega

theorem Short.mono (h : Short j a) (hle : j ≤ k) : Short k a :=
  Nat.le_trans h (Nat.mul_le_mul_left 80 hle)

/-- A character takes at most four bytes. -/
theorem utf8ByteSize_le (text : String) : text.utf8ByteSize ≤ 4 * text.length := by
  have hchars : ∀ cs : List Char, String.utf8Len cs ≤ 4 * cs.length := by
    intro cs
    induction cs with
    | nil => exact Nat.le_refl 0
    | cons c cs ih =>
        have hc := c.utf8Size_le_four
        rw [String.utf8Len, List.length_cons]
        omega
  rw [← String.utf8Len_toList]
  exact Nat.le_trans (hchars text.toList) (Nat.le_of_eq (by rw [String.length_toList]))

/-- **A number** of `20 * k` digits takes `k` pieces. -/
theorem short_number {n : Nat} (hk : 0 < k) (h : n < 10 ^ (20 * k)) : Short k (toString n) := by
  have hdigits := Nat.repr_length n (20 * k) (by omega) h
  have hbytes := utf8ByteSize_le (toString n)
  have hsame : (toString n).length = (Nat.repr n).length := rfl
  rw [Short]
  omega

theorem short_word {n : Nat} (h : n < UInt64.size) : Short 1 (toString n) :=
  short_number Nat.one_pos (Nat.lt_trans h (by decide))

/-- **A path**, or a key, takes two digits for each byte. -/
theorem short_toHex {data : Bytes} (h : data.length ≤ 31) : Short 4 data.toHex := by
  have hlen : data.toHex.length = 2 * data.length := by
    rw [Bytes.toHex, String.length_ofList, List.length_flatMap]
    simp only [List.length_cons, List.length_nil]
    rw [List.map_const', List.sum_replicate_nat]
    exact Nat.mul_comm _ _
  have hbytes := utf8ByteSize_le data.toHex
  rw [Short]
  omega

theorem short_invalidLengthText {what : String} {expected got : Nat} (hwhat : Short 1 what)
    (hexpected : expected < UInt64.size) (hgot : got < UInt64.size) :
    Short 6 (invalidLengthText what expected got) := by
  have hinvalid : Short 1 "invalid " := by decide
  have hlength : Short 1 " length: expected " := by decide
  have hcomma : Short 1 ", got " := by decide
  exact ((((hinvalid.append hwhat).append hlength).append (short_word hexpected)).append
    hcomma).append (short_word hgot)

end Texts

namespace RecordFault

/-- The numbers of the fault are machine words, and its text is that of its kind. -/
def Sized : RecordFault → Prop
  | keyLength got => got < UInt64.size
  | belowLeafDepth depth | internalKey depth | internalChildless depth => depth < UInt64.size
  | described _ => False
  | _ => True

/-- **The text of a fault.** -/
theorem short_message {fault : RecordFault} (h : fault.Sized) : Short 6 fault.message := by
  have hdepth : Short 1 "record at depth " := by decide
  have hinternal : Short 1 "internal record at depth " := by decide
  cases fault with
  | keyLength got => exact short_invalidLengthText (by decide) (by decide) h
  | duplicateChild byte =>
      have hword : Short 1 "duplicate child " := by decide
      have hbyte := short_word (Nat.lt_trans byte.toNat_lt (by decide))
      exact (hword.append hbyte).mono (by decide)
  | belowLeafDepth depth =>
      have hbelow : Short 1 " is below leaf depth" := by decide
      exact ((hdepth.append (short_word h)).append hbelow).mono (by decide)
  | leafCount count =>
      have hcounts : Short 1 "leaf record counts " := by decide
      have hitems : Short 1 " items" := by decide
      exact ((hcounts.append (short_word count.toNat_lt)).append hitems).mono (by decide)
  | internalKey depth =>
      have hkey : Short 1 " has a key" := by decide
      exact ((hinternal.append (short_word h)).append hkey).mono (by decide)
  | internalChildless depth =>
      have hchildren : Short 1 " has no children" := by decide
      exact ((hinternal.append (short_word h)).append hchildren).mono (by decide)
  | countMismatch count total =>
      have hcount : Short 1 "item count " := by decide
      have htotal : Short 1 " does not match children total " := by decide
      exact (((hcount.append (short_word count.toNat_lt)).append htotal).append
        (short_word total.toNat_lt)).mono (by decide)
  | described text => exact h.elim
  | _ => exact Short.mono (show Short 1 _ by decide) (by decide)

end RecordFault
end MerkleSync
