import MerkleSync.Record
import MerkleSync.Cbor.Item

/-!
# Stored form of a record

A record is a CBOR map with small integer keys, written in their order:

* 0, the digest, a byte string of 20 bytes;
* 1, the item count, an unsigned integer;
* 2, the key, a byte string of 30 bytes, in leaves only;
* 3, the children, an array of triples of byte, digest and item count.

**Reading.**  The whole item is read first, so a fault in its syntax is found
before any other.  A field is the first entry with its key; fields that are
not known are ignored, and the fields are checked in the order above.
-/

namespace MerkleSync
namespace Record

open Cbor (Item)

/-- The written triple of a child. -/
def encodeChild (child : UInt8 × Summary) : Bytes :=
  Cbor.writeArray [Cbor.writeNat child.1.toNat, Cbor.writeBytes child.2.digest.bytes,
    Cbor.writeNat child.2.itemCount.toNat]

/-- The written entries of a record. -/
def encodeEntries (r : Record) : List (Bytes × Bytes) :=
  [(Cbor.writeNat 0, Cbor.writeBytes r.digest.bytes),
    (Cbor.writeNat 1, Cbor.writeNat r.itemCount.toNat)] ++
  (r.key.map fun key => (Cbor.writeNat 2, Cbor.writeBytes key.bytes)).toList ++
  [(Cbor.writeNat 3, Cbor.writeArray (r.children.entries.map encodeChild))]

/-- The stored form of a record. -/
def encode (r : Record) : Bytes := Cbor.writeMap r.encodeEntries

/-- The value of the first entry with the integer `key`. -/
def field? (entries : List (Item × Item)) (key : Int) : Option Item :=
  (entries.find? fun e => match e.1 with
    | .int n => n == key
    | _ => false).map (·.2)

/-- An integer that is a 64-bit count. -/
def readCount (notInteger outOfRange : RecordFault) : Item → Except RecordFault UInt64
  | .int n =>
    if 0 ≤ n ∧ n < UInt64.size then .ok (UInt64.ofNat n.toNat) else .error outOfRange
  | _ => .error notInteger

/-- A byte string that is a digest. -/
def readDigest (fault : RecordFault) : Item → Except RecordFault Digest
  | .bytes data => match Digest.ofBytes? data with
    | some d => .ok d
    | none => .error fault
  | _ => .error fault

/-- A byte string that is an identifier, or null. -/
def readKey : Item → Except RecordFault (Option Ident)
  | .bytes data =>
    if h : data.length = identLength then .ok (some ⟨data, h⟩)
    else .error (.keyLength data.length)
  | .null => .ok none
  | _ => .error .keyNotBytes

/-- An integer that is a byte. -/
def readByte : Item → Except RecordFault UInt8
  | .int n =>
    if 0 ≤ n ∧ n < 256 then .ok (UInt8.ofNat n.toNat) else .error .childByteOutOfRange
  | _ => .error .childByteNotInteger

/-- The triple of a child. -/
def readChild : Item → Except RecordFault (UInt8 × Summary)
  | .array [byte, digest, count] => do
    let byte ← readByte byte
    let digest ← readDigest .badChildDigest digest
    let count ← readCount .childCountNotInteger .childCountOutOfRange count
    return (byte, ⟨digest, count⟩)
  | _ => .error .childNotTriple

/-- Adds the children of a list of triples, each byte at most once. -/
def readChildren : (done : ByteMap Summary) → List Item → Except RecordFault (ByteMap Summary)
  | done, [] => .ok done
  | done, item :: rest =>
    match readChild item with
    | .error fault => .error fault
    | .ok (byte, summary) =>
      if done.contains byte then .error (.duplicateChild byte)
      else readChildren (done.insert byte summary) rest

/-- The record with the given entries. -/
def ofEntries (entries : List (Item × Item)) : Except RecordFault Record := do
  let digest ← match field? entries 0 with
    | some item => readDigest .badDigest item
    | none => .error .missingDigest
  let count ← match field? entries 1 with
    | some item => readCount .countNotInteger .countOutOfRange item
    | none => .error .missingCount
  let key ← match field? entries 2 with
    | some item => readKey item
    | none => .ok none
  let children ← match field? entries 3 with
    | some (.array items) => readChildren ByteMap.empty items
    | some _ => .error .childrenNotArray
    | none => .ok ByteMap.empty
  return ⟨digest, count, key, children⟩

/-- Reads the stored form at the front of `data`; what follows it is ignored. -/
def decodeFault (data : Bytes) : Except RecordFault Record :=
  match Item.ofBytes? data with
  | none => .error .undecodable
  | some (.map entries) => ofEntries entries
  | some _ => .error .notMap

/-- Reads the stored form of a record. -/
def decode (data : Bytes) : Except DataError Record :=
  (decodeFault data).mapError .malformedRecord

end Record
end MerkleSync
