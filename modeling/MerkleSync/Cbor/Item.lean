import MerkleSync.Bytes.Text
import MerkleSync.Cbor.Loop

/-!
# Generic CBOR items

Any item can be read without knowing what is expected.  Arrays, maps and tags
may be nested 256 deep.  A tag for a big integer around a short byte string is
an integer if it fits into 64 bits, as an unsigned number or as the negative of
one; the value `undefined` is read as null.
-/

namespace MerkleSync
namespace Cbor

/-- How many arrays, maps and tags may stand around an item. -/
def nestingLimit : Nat := 256

/-- Two to the power 127.  Signed integers of 128 bits are below it. -/
def wideSize : Nat := 0x80000000000000000000000000000000

/-- An item of any kind. -/
inductive Item where
  | int (value : Int)
  | bytes (data : Bytes)
  | text (content : String)
  | array (items : List Item)
  | map (entries : List (Item × Item))
  | tagged (number : Nat) (content : Item)
  | bool (value : Bool)
  | null
  | float (number : Bytes)

/-- The rest of a text; every segment is well-formed UTF-8 by itself. -/
def textBody (length : Option Nat) : Reader String := fun input =>
  match stringSegments true length input with
  | none => none
  | some (parts, rest) => (parts.mapM Bytes.toText?).map fun texts => (String.join texts, rest)

/-- The integer of a big-integer tag (2 for `n`, 3 for `-1 - n`), given the
bytes of `n`.  Negative numbers have at most 127 bits. -/
def bigInteger (number : Nat) (data : Bytes) : Option Item :=
  let n := data.toNat
  let value : Int := if number = 2 then n else -1 - n
  if number = 3 ∧ wideSize ≤ n then none
  else if -UInt64.size ≤ value ∧ value < UInt64.size then some (.int value)
  else some (.tagged number (.bytes (data.dropWhile (· == 0))))

/-- What follows a tag.  `inner` reads one nesting level further down, unless
the limit is reached. -/
def tagContent (inner : Option (Reader Item)) (number : Nat) : Reader Item := fun input =>
  let around : Option (Item × Bytes) :=
    inner.bind fun item => (item input).map fun (content, rest) => (.tagged number content, rest)
  if number = 2 ∨ number = 3 then
    match head input with
    | some (.bytes (some n), rest) =>
      if n ≤ 16 then
        (rest.splitExact n).bind fun (data, rest) => (bigInteger number data).map (·, rest)
      else around
    | _ => around
  else around

/-- The item of a simple value. -/
def simpleItem : Nat → Option Item
  | 20 => some (.bool false)
  | 21 => some (.bool true)
  | 22 | 23 => some .null
  | _ => none

/-- An item whose parts, one nesting level further down, are read by `inner`;
without it, no item with parts is accepted. -/
def itemWith (inner : Option (Reader Item)) : Reader Item := do
  match ← head with
  | .positive n => return .int n
  | .negative n => return .int (-1 - n)
  | .bytes length => return .bytes (← bytesBody length)
  | .text length => return .text (← textBody length)
  | .array length => do
    let some item := inner | failure
    return .array (← listOf item length)
  | .map length => do
    let some item := inner | failure
    return .map (← listOf (do return (← item, ← item)) length)
  | .tag number => tagContent inner number
  | .simple value => fun input => (simpleItem value).map (·, input)
  | .float number => return .float number
  | .stop => failure

/-- An item of at most `depth` nesting levels. -/
def item : (depth : Nat) → Reader Item
  | 0 => itemWith none
  | depth + 1 => itemWith (some (item depth))

/-- The item at the front of `data`; what follows it is ignored. -/
def Item.ofBytes? (data : Bytes) : Option Item := (item nestingLimit data).map (·.1)

end Cbor
end MerkleSync
