import MerkleSync.Cbor.Head

/-!
# Repetition and strings of segments

Arrays and maps repeat a reader, either a given number of times or up to a
break.  Byte and text strings of indefinite length are sequences of segments of
the same kind, which may be of indefinite length again.  Every repetition
carries what was read so far in an accumulator, so long inputs need no stack.
-/

namespace MerkleSync
namespace Cbor

section Loops

variable {σ : Type} (step : σ → Reader σ)

/-- `n` steps. -/
def repeatTimes : (n : Nat) → σ → Reader σ
  | 0, s, input => some (s, input)
  | n + 1, s, input =>
    match step s input with
    | none => none
    | some (s, rest) => repeatTimes n s rest

/-- Steps up to a break.  Each step consumes a byte at least, so the bytes of
the input bound their number: `bound` starts as the input itself. -/
def repeatUntilStop : (bound : Bytes) → σ → Reader σ
  | [], _, _ => none
  | _ :: bound, s, input =>
    match head input with
    | some (.stop, rest) => some (s, rest)
    | _ =>
      match step s input with
      | none => none
      | some (s, rest) => repeatUntilStop bound s rest

/-- The steps of an array or a map of the given length. -/
def iterate (length : Option Nat) (s : σ) : Reader σ :=
  match length with
  | some n => repeatTimes step n s
  | none => fun input => repeatUntilStop step input s input

end Loops

/-- The items of an array of the given length. -/
def listOf {α : Type} (item : Reader α) (length : Option Nat) : Reader (List α) := do
  let items ← iterate (fun items => do return (← item) :: items) length []
  return items.reverse

/-- Exactly `n` items from the front of an array of the given length; what
follows them is not looked at. -/
def leading {α : Type} (item : Reader α) (n : Nat) (length : Option Nat) : Reader (List α) :=
  if length.any (· < n) then failure else listOf item (some n)

/-- Whether a head starts a segment of the wanted kind, and its length. -/
def segmentLength? (isText : Bool) : Head → Option (Option Nat)
  | .bytes length => if isText then none else some length
  | .text length => if isText then some length else none
  | _ => none

/-- The segments of a string of indefinite length, last one first; `nested`
counts the indefinite strings around the innermost open one. -/
def segments (isText : Bool) :
    (bound : Bytes) → (nested : Nat) → (done : List Bytes) → Reader (List Bytes)
  | [], _, _, _ => none
  | _ :: bound, nested, done, input =>
    match head input with
    | none => none
    | some (.stop, rest) =>
      match nested with
      | 0 => some (done, rest)
      | nested + 1 => segments isText bound nested done rest
    | some (h, rest) =>
      match segmentLength? isText h with
      | none => none
      | some none => segments isText bound (nested + 1) done rest
      | some (some n) =>
        match rest.splitExact n with
        | none => none
        | some (segment, rest) => segments isText bound nested (segment :: done) rest

/-- The segments of a string whose head was read, in order. -/
def stringSegments (isText : Bool) (length : Option Nat) : Reader (List Bytes) :=
  match length with
  | some n => do return [← take n]
  | none => fun input =>
    (segments isText input 0 [] input).map fun (done, rest) => (done.reverse, rest)

/-- The rest of a byte string. -/
def bytesBody (length : Option Nat) : Reader Bytes := do
  return (← stringSegments false length).flatten

end Cbor
end MerkleSync
