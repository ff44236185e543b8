import MerkleSync.Proofs.MessageRoundTrip

/-!
# Messages within their limits

Two kinds of limits are checked at two places.  The size of a written message is
checked before it is sent and before it is read; the lengths of the parts of a
message are checked only after it was read.  So a message that is too large is
never sent, and one with a part that is too long is sent, read back as it was
written, and then refused for that part.

**Results.**
* `checkSize_eq_ok_iff`, `checkSize_eq_error_iff`: the check of the size.
* `decode_written`, `decode_broken`: a written message is decoded, unless it breaks
  a limit.
* `roundTrips_of_reads`: what a reader of written messages makes of a codec.
* `messages_round_trip_within_limits`: requests and responses.
-/

namespace MerkleSync
namespace Message

section Size

variable {data : Bytes}

theorem checkSize_of_le (h : data.length ≤ Limit.encoded) :
    checkSize data = .ok data := by rw [checkSize, if_neg (Nat.not_lt.mpr h)]

theorem checkSize_eq_ok_iff {out : Bytes} :
    checkSize data = .ok out ↔ data.length ≤ Limit.encoded ∧ out = data := by
  by_cases h : data.length ≤ Limit.encoded
  · rw [checkSize_of_le h, Except.ok.injEq]
    exact ⟨fun heq => ⟨h, heq.symm⟩, fun heq => heq.2.symm⟩
  · rw [checkSize, if_pos (Nat.lt_of_not_le h)]
    exact ⟨nofun, fun heq => absurd heq.1 h⟩

/-- The only error of the check is that the message is too large. -/
theorem checkSize_eq_error_iff {cause : SyncError} :
    checkSize data = .error cause ↔ Limit.encoded < data.length ∧ cause =
      .invalidMessage ("message of " ++ toString data.length ++ " bytes exceeds limit") := by
  by_cases h : Limit.encoded < data.length
  · rw [checkSize, if_pos h, Except.error.injEq]
    exact ⟨fun heq => ⟨h, heq.symm⟩, fun heq => heq.2.symm⟩
  · rw [checkSize_of_le (Nat.le_of_not_lt h)]
    exact ⟨nofun, fun heq => absurd heq.1 h⟩

/-- The size of a message that is not too large is a word. -/
theorem lt_size_of_encoded (h : data.length ≤ Limit.encoded) :
    data.length < UInt64.size := Nat.lt_of_le_of_lt h (by decide)

end Size

section Decoding

variable {α : Type} {read : Cbor.Reader α} {brokenLimit : α → Option String} {w : Bytes} {a : α}

/-- **A written message is decoded**, if it breaks no limit. -/
theorem decode_written (hread : Cbor.Reads read w a) (hlen : w.length ≤ Limit.encoded)
    (hunbroken : brokenLimit a = none) : decode read brokenLimit w = .ok a := by
  have hall := hread []
  rw [List.append_nil] at hall
  rw [decode, checkSize_of_le hlen]
  dsimp only
  rw [hall]
  dsimp only
  rw [hunbroken]

/-- One that breaks a limit is refused for it. -/
theorem decode_broken (hread : Cbor.Reads read w a) (hlen : w.length ≤ Limit.encoded)
    {reason : String} (hbroken : brokenLimit a = some reason) :
    decode read brokenLimit w = .error (.invalidMessage reason) := by
  have hall := hread []
  rw [List.append_nil] at hall
  rw [decode, checkSize_of_le hlen]
  dsimp only
  rw [hall]
  dsimp only
  rw [hbroken]

end Decoding

section RoundTrips

variable {α : Type} {write : α → Bytes} {read : Cbor.Reader α} {brokenLimit : α → Option String}

/-- What the codec of a kind of messages does with every message of that kind. -/
structure RoundTrips (write : α → Bytes) (encode : α → Except SyncError Bytes)
    (decode : Bytes → Except SyncError α) (brokenLimit : α → Option String) : Prop where
  /-- A message is invalid for the encoder exactly if its written form is too large. -/
  refused : ∀ a, (∃ text, encode a = .error (.invalidMessage text)) ↔
    Limit.encoded < (write a).length
  /-- Otherwise the encoder gives that form. -/
  encoded : ∀ a data, encode a = .ok data ↔ (write a).length ≤ Limit.encoded ∧ data = write a
  /-- What was encoded is decoded as the same message exactly if that breaks no limit. -/
  decoded : ∀ a data, encode a = .ok data → (decode data = .ok a ↔ brokenLimit a = none)
  /-- If it breaks one, it is invalid for that reason. -/
  broken : ∀ a data reason, encode a = .ok data → brokenLimit a = some reason →
    decode data = .error (.invalidMessage reason)

/-- **A reader of written messages** makes a codec that round-trips. -/
theorem roundTrips_of_reads
    (h : ∀ a, (write a).length < UInt64.size → Cbor.Reads read (write a) a) :
    RoundTrips write (fun a => checkSize (write a)) (decode read brokenLimit) brokenLimit where
  refused a := by
    constructor
    · rintro ⟨text, herror⟩
      exact (checkSize_eq_error_iff.mp herror).1
    · intro hlarge
      exact ⟨_, checkSize_eq_error_iff.mpr ⟨hlarge, rfl⟩⟩
  encoded a data := checkSize_eq_ok_iff
  decoded a data hencode := by
    obtain ⟨hlen, rfl⟩ := checkSize_eq_ok_iff.mp hencode
    have hread := h a (lt_size_of_encoded hlen)
    cases hlimit : brokenLimit a with
    | none => exact iff_of_true (decode_written hread hlen hlimit) rfl
    | some reason =>
        rw [decode_broken hread hlen hlimit]
        exact iff_of_false nofun (Option.some_ne_none reason)
  broken a data reason hencode hlimit := by
    obtain ⟨hlen, rfl⟩ := checkSize_eq_ok_iff.mp hencode
    exact decode_broken (h a (lt_size_of_encoded hlen)) hlen hlimit

end RoundTrips
end Message

theorem Request.reads_write {r : Request} (h : r.write.length ≤ Limit.encoded) :
    Cbor.Reads Request.read r.write r := reads_request (Message.lt_size_of_encoded h)

/-- **The codec of messages is exact within the limits.**  Every request and every
response is encoded unless its written form is larger than a message may be, which
is the only error of encoding.  What was encoded is decoded as the message that it
was exactly if that breaks no limit on its parts; if it breaks one, decoding gives
the error that the message is invalid, for that reason. -/
theorem messages_round_trip_within_limits :
    Message.RoundTrips Request.write Request.encode Request.decode Request.brokenLimit ∧
      Message.RoundTrips Response.write Response.encode Response.decode Response.brokenLimit :=
  ⟨Message.roundTrips_of_reads fun _ => reads_request,
    Message.roundTrips_of_reads fun _ => reads_response⟩

/-- A path of thirty-one bytes is refused only when it was read back; an error with
a text outside of ASCII comes back as it was. -/
theorem messages_round_trip_within_limits_too_long :
    let request : Request := ⟨.idents, List.replicate 31 49⟩
    let response := Response.error .internal "naïve ∅"
    request.encode = .ok request.write ∧
      Request.decode request.write = .error (.invalidMessage "prefix too long") ∧
      response.encode = .ok response.write ∧ Response.decode response.write = .ok response := by
  intro request response
  obtain ⟨hrequests, hresponses⟩ := messages_round_trip_within_limits
  have hrequest : request.encode = .ok request.write :=
    (hrequests.encoded request _).mpr ⟨by decide, rfl⟩
  have hresponse : response.encode = .ok response.write :=
    (hresponses.encoded response _).mpr ⟨by decide, rfl⟩
  exact ⟨hrequest, hrequests.broken request _ _ hrequest rfl, hresponse,
    (hresponses.decoded response _ hresponse).mpr rfl⟩

end MerkleSync
