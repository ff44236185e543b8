import MerkleSync.Peer
import MerkleSync.Proofs.MessageRoundTrip
import MerkleSync.Proofs.QueryBounds

/-!
# Every answer fits into a message

A message of a limited number of parts is short: a head takes nine bytes, a
digest or an identifier no more than twice its bytes with a head, and a node has
at most 256 children.  What an engine answers keeps to the limits whatever its
store holds, as the results of queries and the texts of their errors do.

**Results.**
* `length_writeByteList_le`, `length_writeStruct_le`: parts of messages.
* `Response.fits_snapshot`, `fits_nodeInfo`, `fits_idents`, `fits_error`:
  responses of each kind.
* `Engine.answer_fits`: every answer breaks no limit and can be encoded.
-/

namespace MerkleSync

namespace Cbor

theorem length_writeHead_le (major n : Nat) : (writeHead major n).length ≤ 9 := by
  unfold writeHead
  split_ifs
  all_goals simp only [List.length_cons, List.length_nil, Bytes.length_bigEndian]
  all_goals decide

theorem length_writeText_le {utf8 : Bytes} {k : Nat} (h : utf8.length ≤ k) :
    (writeText utf8).length ≤ 9 + k := by
  have hhead := length_writeHead_le 3 utf8.length
  rw [writeText, List.length_append]
  omega

/-- An array of at most `n` items of at most `k` bytes each. -/
theorem length_writeArray_le {items : List Bytes} {n k : Nat} (hitems : items.length ≤ n)
    (h : ∀ w ∈ items, w.length ≤ k) : (writeArray items).length ≤ 9 + n * k := by
  have hhead := length_writeHead_le 4 items.length
  have hflatten := length_flatten_le h
  have hmany := Nat.mul_le_mul_right k hitems
  rw [writeArray, List.length_append]
  omega

/-- A map of at most `n` entries of at most `k` bytes each. -/
theorem length_writeMap_le {entries : List (Bytes × Bytes)} {n k : Nat}
    (hentries : entries.length ≤ n) (h : ∀ e ∈ entries, e.1.length + e.2.length ≤ k) :
    (writeMap entries).length ≤ 9 + n * k := by
  have hhead := length_writeHead_le 5 entries.length
  have hparts : ∀ w ∈ entries.map fun e => e.1 ++ e.2, w.length ≤ k := by
    intro w hw
    obtain ⟨e, he, rfl⟩ := List.mem_map.mp hw
    rw [List.length_append]
    exact h e he
  have hflatten := length_flatten_le hparts
  have hmany := Nat.mul_le_mul_right k hentries
  rw [List.length_map] at hflatten
  rw [writeMap, List.length_append, List.flatMap_def]
  omega

end Cbor

namespace Message

open Cbor (length_writeHead_le length_writeArray_le length_writeMap_le length_writeText_le)

section Parts

/-- A byte takes at most two bytes. -/
theorem length_writeNat_byte (b : UInt8) : (Cbor.writeNat b.toNat).length ≤ 2 := by
  have hb : b.toNat < UInt8.size := b.toNat_lt
  unfold Cbor.writeNat Cbor.writeHead
  split_ifs
  · exact Nat.le_succ 1
  · rw [List.length_cons, Bytes.length_bigEndian]

theorem length_writeByteList_le {data : Bytes} {n : Nat} (h : data.length ≤ n) :
    (writeByteList data).length ≤ 9 + n * 2 := by
  refine length_writeArray_le (by rwa [List.length_map]) fun w hw => ?_
  obtain ⟨b, _, rfl⟩ := List.mem_map.mp hw
  exact length_writeNat_byte b

theorem length_writeDigest_le (d : Digest) : (writeByteList d.bytes).length ≤ 49 :=
  length_writeByteList_le (Nat.le_of_eq d.length_eq)

theorem length_writePath_le {path : Bytes} (h : path.length ≤ identLength) :
    (writeByteList path).length ≤ 69 := length_writeByteList_le h

theorem length_writeCount_le (n : UInt64) : (writeCount n).length ≤ 9 :=
  length_writeHead_le 0 n.toNat

/-- A structure of at most `n` fields with names of at most fifteen bytes. -/
theorem length_writeStruct_le {fields : List (Bytes × Bytes)} {n k : Nat}
    (hfields : fields.length ≤ n) (h : ∀ f ∈ fields, f.1.length ≤ 15 ∧ f.2.length ≤ k) :
    (writeStruct fields).length ≤ 9 + n * (24 + k) := by
  refine length_writeMap_le (by rwa [List.length_map]) fun e he => ?_
  obtain ⟨f, hf, rfl⟩ := List.mem_map.mp he
  obtain ⟨hname, hvalue⟩ := h f hf
  have htext := length_writeText_le hname
  dsimp only
  omega

theorem length_writeSingle_le {name value : Bytes} {k : Nat} (hname : name.length ≤ 15)
    (hvalue : value.length ≤ k) : (writeStruct [(name, value)]).length ≤ 33 + k := by
  have hlen : (writeStruct [(name, value)]).length ≤ 9 + 1 * (24 + k) := by
    refine length_writeStruct_le (Nat.le_refl 1) fun f hf => ?_
    rw [List.mem_singleton.mp hf]
    exact ⟨hname, hvalue⟩
  omega

theorem length_writeSummary_le (s : Summary) : (writeSummary s).length ≤ 155 := by
  refine length_writeStruct_le (n := 2) (k := 49) (Nat.le_refl 2) ?_
  simp only [List.forall_mem_cons]
  exact ⟨⟨by decide, length_writeDigest_le s.digest⟩,
    ⟨by decide, Nat.le_trans (length_writeCount_le s.itemCount) (by decide)⟩,
    List.forall_mem_nil _⟩

/-- The children of a node are at most 256. -/
theorem length_writeChildren_le (children : ByteMap Summary) :
    (writeChildren children).length ≤ 41993 := by
  have hmany : (children.entries.map fun c =>
      (Cbor.writeNat c.1.toNat, writeSummary c.2)).length ≤ 256 := by
    rw [List.length_map]
    exact children.length_entries_le
  refine length_writeMap_le (k := 164) hmany fun e he => ?_
  obtain ⟨c, _, rfl⟩ := List.mem_map.mp he
  have hbyte := length_writeHead_le 0 c.1.toNat
  have hsummary := length_writeSummary_le c.2
  dsimp only [Cbor.writeNat]
  omega

theorem length_writeNodeInfo_le {info : NodeInfo} (h : info.path.length ≤ identLength) :
    (writeNodeInfo info).length ≤ 168077 := by
  refine length_writeStruct_le (n := 4) (k := 41993) (Nat.le_refl 4) ?_
  simp only [List.forall_mem_cons]
  exact ⟨⟨by decide, Nat.le_trans (length_writePath_le h) (by decide)⟩,
    ⟨by decide, Nat.le_trans (length_writeCount_le info.itemCount) (by decide)⟩,
    ⟨by decide, Nat.le_trans (length_writeDigest_le info.digest) (by decide)⟩,
    ⟨by decide, length_writeChildren_le info.children⟩, List.forall_mem_nil _⟩

theorem length_writeSnapshot_le {snap : Snapshot} (h : snap.path.length ≤ identLength)
    (hsiblings : snap.siblings.length ≤ identLength) : (writeSnapshot snap).length ≤ 4518 := by
  have hdigests : (Cbor.writeArray (snap.siblings.map fun d => writeByteList d.bytes)).length ≤
      9 + identLength * 49 := by
    refine length_writeArray_le (by rwa [List.length_map]) fun w hw => ?_
    obtain ⟨d, _, rfl⟩ := List.mem_map.mp hw
    exact length_writeDigest_le d
  refine length_writeStruct_le (n := 3) (k := 1479) (Nat.le_refl 3) ?_
  simp only [List.forall_mem_cons]
  exact ⟨⟨by decide, Nat.le_trans (length_writePath_le h) (by decide)⟩, ⟨by decide, hdigests⟩,
    ⟨by decide, Nat.le_trans (length_writeCount_le snap.itemCount) (by decide)⟩,
    List.forall_mem_nil _⟩

theorem length_ofText (text : String) : (Bytes.ofText text).length = text.utf8ByteSize := by
  rw [Bytes.ofText, String.toUTF8_eq_toByteArray]
  rfl

end Parts
end Message

/-- A response that breaks no limit and is small enough to be encoded. -/
structure Response.Fits (m : Response) : Prop where
  unbroken : m.brokenLimit = none
  size : m.write.length ≤ Limit.encoded

namespace Response

open Message

theorem fits_snapshot {snap : Snapshot} (h : snap.path.length ≤ identLength)
    (hsiblings : snap.siblings.length ≤ identLength) : (snapshot snap).Fits where
  unbroken := by
    have hfew : ¬Limit.siblings < snap.siblings.length := Nat.not_lt.mpr hsiblings
    have hshort : ¬Limit.path < snap.path.length := Nat.not_lt.mpr h
    rw [brokenLimit, if_neg hfew, if_neg hshort]
  size :=
    Nat.le_trans (length_writeSingle_le (by decide) (length_writeSnapshot_le h hsiblings))
      (by decide)

theorem fits_nodeInfo {info : Option NodeInfo} (h : ∀ i ∈ info, i.path.length ≤ identLength) :
    (nodeInfo info).Fits := by
  cases info with
  | none => exact ⟨rfl, by decide⟩
  | some info =>
      have hpath := h info rfl
      have hshort : ¬Limit.path < info.path.length := Nat.not_lt.mpr hpath
      have hfew : ¬Limit.children < info.children.size :=
        Nat.not_lt.mpr info.children.length_entries_le
      refine ⟨?_, ?_⟩
      · rw [brokenLimit, if_neg hshort, if_neg hfew]
      · exact Nat.le_trans (length_writeSingle_le (by decide) (length_writeNodeInfo_le hpath))
          (by decide)

theorem fits_idents {ids : List Ident} (h : ids.length ≤ Limit.idents) : (idents ids).Fits where
  unbroken := by rw [brokenLimit, if_neg (Nat.not_lt.mpr h)]
  size := by
    have hids : (Cbor.writeArray (ids.map fun id => writeByteList id.bytes)).length ≤
        9 + Limit.idents * 69 := by
      refine Cbor.length_writeArray_le (by rwa [List.length_map]) fun w hw => ?_
      obtain ⟨id, _, rfl⟩ := List.mem_map.mp hw
      exact length_writePath_le (Nat.le_of_eq id.length_eq)
    exact Nat.le_trans (length_writeSingle_le (by decide) hids) (by decide)

theorem fits_error {code : ErrorCode} {text : String} (h : Short 17 text) :
    (error code text).Fits where
  unbroken := rfl
  size := by
    have hcode : (Bytes.ofText code.name).length ≤ 14 := by
      cases code with
      | invalidRequest => decide
      | tooLarge => decide
      | internal => decide
    have htext : (Bytes.ofText text).length ≤ 80 * 17 := by
      rw [length_ofText]
      exact h
    have hfields : (writeStruct [(Name.code, Cbor.writeText (.ofText code.name)),
        (Name.message, Cbor.writeText (.ofText text))]).length ≤ 2835 := by
      refine length_writeStruct_le (n := 2) (k := 1389) (Nat.le_refl 2) ?_
      simp only [List.forall_mem_cons]
      exact ⟨⟨by decide, Nat.le_trans (Cbor.length_writeText_le hcode) (by decide)⟩,
        ⟨by decide, Nat.le_trans (Cbor.length_writeText_le htext) (by decide)⟩,
        List.forall_mem_nil _⟩
    exact Nat.le_trans (length_writeSingle_le (by decide) hfields) (by decide)

/-- The text of a query's error is short enough. -/
theorem fits_failure {cause : EngineError} (h : cause.OfQuery) :
    (error .internal cause.message).Fits :=
  fits_error (h.short_message.mono (by decide))

end Response

theorem Request.brokenLimit_eq_none_iff {r : Request} :
    r.brokenLimit = none ↔ r.path.length ≤ Limit.path := by
  rw [brokenLimit]
  split
  · next hlong => exact iff_of_false (Option.some_ne_none _) (Nat.not_le.mpr hlong)
  · next hshort => exact iff_of_true rfl (Nat.not_lt.mp hshort)

/-- **Every answer** breaks no limit and can be encoded, whatever the store holds. -/
theorem Engine.answer_fits {e : Engine} {s : Store} (h : e.Sized s) (r : Request) :
    (e.answer s r).Fits := by
  rw [answer]
  split
  · next reason hreason =>
      rw [Request.brokenLimit] at hreason
      split at hreason
      · cases hreason
        exact Response.fits_error (by decide)
      · cases hreason
  · next hunbroken =>
      have hpath : r.path.length ≤ identLength := Request.brokenLimit_eq_none_iff.mp hunbroken
      cases r.question with
      | snapshot =>
          have hmeets := meets_snapshot h hpath
          dsimp only
          split
          · next snap hsnap =>
              obtain ⟨hshort, hfew⟩ := hmeets.ok _ hsnap
              exact Response.fits_snapshot hshort hfew
          · next hcause => exact Response.fits_failure (hmeets.error _ hcause)
      | nodeInfo =>
          have hmeets := meets_nodeInfo h hpath
          dsimp only
          split
          · next info hinfo =>
              refine Response.fits_nodeInfo fun i hi => ?_
              rw [hmeets.ok _ hinfo i hi]
              exact hpath
          · next hcause => exact Response.fits_failure (hmeets.error _ hcause)
      | idents =>
          have hmeets := meets_idents h hpath
          dsimp only
          split
          · next ids hids =>
              split
              · have hcount : Short 3 (toString ids.length) :=
                  short_number (by decide) (hmeets.ok _ hids)
                have hwords : Short 1 " identifiers under prefix" := by decide
                exact Response.fits_error ((hcount.append hwords).mono (by decide))
              · next hfew => exact Response.fits_idents (Nat.not_lt.mp hfew)
          · next hcause => exact Response.fits_failure (hmeets.error _ hcause)

end MerkleSync
