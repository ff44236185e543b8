import MerkleSync.Message.Codec
import MerkleSync.Proofs.ByteMapLookup
import MerkleSync.Proofs.ItemRoundTrip
import MerkleSync.Proofs.RecordRoundTrip

/-!
# Written messages are read back

The readers of messages know what should come next.  Each of them is paired with
the writer of its kind: on what was written, followed by anything, it gives the
value that was written and leaves what follows.  Structures are read field by
field into what was gathered before.

**Results.**
* `reads_iterate`: loops.
* `reads_natural`, `reads_byteList`, `reads_list`, `reads_text`: values.
* `reads_fields`: structures.
* `reads_request`, `reads_response`: messages of each kind.
-/

namespace MerkleSync
namespace Bytes

/-- **A text is read back** from its bytes. -/
theorem toText?_ofText (text : String) : toText? (ofText text) = some text := by
  have hbytes : (ofText text).toByteArray = text.toByteArray := by
    rw [ofText, String.toUTF8_eq_toByteArray]
    exact ByteArray.ext (List.data_toByteArray.trans Array.toArray_toList)
  rw [toText?, hbytes, String.fromUTF8?, dif_pos text.isValidUTF8]
  rfl

end Bytes

namespace Cbor

section Loops

/-- Steps of a loop: each reads its part into what was gathered before. -/
inductive Steps {σ : Type} (step : σ → Reader σ) : σ → List Bytes → σ → Prop
  | nil (s : σ) : Steps step s [] s
  | cons {s t last : σ} {w : Bytes} {rest : List Bytes} (hstep : Reads (step s) w t)
      (hrest : Steps step t rest last) : Steps step s (w :: rest) last

/-- **A loop** reads the parts of its steps one after another. -/
theorem reads_iterate {σ : Type} {step : σ → Reader σ} {s last : σ} {written : List Bytes}
    (h : Steps step s written last) :
    Reads (iterate step (some written.length) s) written.flatten last := by
  induction h with
  | nil s => exact fun _ => rfl
  | @cons s t last w rest hstep _ ih =>
      intro input
      rw [List.flatten_cons, List.append_assoc, List.length_cons]
      show repeatTimes step (rest.length + 1) s (w ++ (rest.flatten ++ input)) = _
      rw [repeatTimes, hstep]
      exact ih input

end Loops

section Values

theorem writeHead_ne_nil (major n : Nat) : writeHead major n ≠ [] := by
  unfold writeHead
  split
  · exact List.cons_ne_nil _ _
  · split
    · exact List.cons_ne_nil _ _
    · split
      · exact List.cons_ne_nil _ _
      · split
        · exact List.cons_ne_nil _ _
        · exact List.cons_ne_nil _ _

/-- A written head is taken as it is, unless it is a tag. -/
theorem reads_untagged {major n : Nat} {h : Head} (hmajor : major < 6) (hn : n < UInt64.size)
    (hhead : Head.ofArgument major (some n) [] = some h) :
    Reads untagged (writeHead major n) h := by
  intro rest
  have hread : head (writeHead major n ++ rest) = some (h, rest) := by
    rw [head_writeHead (by omega) hn, hhead]
    rfl
  have htag : ∀ number, h ≠ .tag number := by
    rintro number rfl
    rcases major with _ | _ | _ | _ | _ | _ | major
    all_goals first | cases hhead | omega
  obtain ⟨b, bound, hbound⟩ := List.exists_cons_of_ne_nil (writeHead_ne_nil major n)
  show untaggedFrom (writeHead major n ++ rest) (writeHead major n ++ rest) = _
  generalize hinput : writeHead major n ++ rest = input at hread
  rw [hbound, List.cons_append] at hinput
  rw [← hinput] at hread ⊢
  rw [untaggedFrom, hread]
  cases h with
  | tag number => exact absurd rfl (htag number)
  | _ => rfl

theorem reads_natural {n : Nat} (hn : n < UInt64.size) : Reads natural (writeNat n) n := by
  intro rest
  have hread : head (writeNat n ++ rest) = some (.positive n, rest) :=
    head_writeHead (by omega) hn rest
  obtain ⟨b, bound, hbound⟩ := List.exists_cons_of_ne_nil (writeHead_ne_nil 0 n)
  show naturalFrom (writeNat n ++ rest) (writeNat n ++ rest) = _
  generalize hinput : writeNat n ++ rest = input at hread
  rw [writeNat, hbound, List.cons_append] at hinput
  rw [← hinput] at hread ⊢
  rw [naturalFrom, hread]

theorem reads_byte (b : UInt8) : Reads byte (writeNat b.toNat) b := by
  have hn : b.toNat < UInt64.size := Nat.lt_trans b.toNat_lt (by decide)
  refine reads_bind_pure (reads_natural hn) ?_
  rw [if_pos b.toNat_lt, UInt8.ofNat_toNat]
  exact reads_pure b

theorem reads_word (n : UInt64) : Reads word (writeNat n.toNat) n := by
  refine reads_bind_pure (reads_natural n.toNat_lt) ?_
  rw [if_pos n.toNat_lt, UInt64.ofNat_toNat]
  exact reads_pure n

/-- The head of an array starts a list. -/
theorem reads_sequence {n : Nat} (hn : n < UInt64.size) :
    Reads sequence (writeHead 4 n) (.items (some n)) :=
  reads_bind_pure (reads_untagged (by omega) hn rfl) (reads_pure _)

theorem forall₂_reads_byte (data : Bytes) :
    List.Forall₂ (Reads byte) (data.map fun b => writeNat b.toNat) data :=
  List.forall₂_map_left_iff.mpr (List.forall₂_same.mpr fun b _ => reads_byte b)

/-- **A byte list** is an array of small integers. -/
theorem reads_byteList {data : Bytes} (hlen : data.length < UInt64.size) :
    Reads byteList (Message.writeByteList data) data := by
  rw [Message.writeByteList, writeArray, List.length_map]
  exact reads_bind (reads_sequence hlen) (reads_listOf (forall₂_reads_byte data))

theorem reads_leadingBytes {n : Nat} {data : Bytes} (hlen : data.length = n)
    (hn : n < UInt64.size) : Reads (leadingBytes n) (Message.writeByteList data) data := by
  subst hlen
  rw [Message.writeByteList, writeArray, List.length_map]
  refine reads_bind (reads_sequence hn) ?_
  have hall : ¬(some data.length).any (· < data.length) = true := by simp
  show Reads (leading byte data.length (some data.length)) _ data
  rw [leading, if_neg hall]
  exact reads_listOf (forall₂_reads_byte data)

/-- **A list** of values of one kind. -/
theorem reads_list {α : Type} {item : Reader α} {write : α → Bytes} {values : List α}
    (hitem : ∀ a ∈ values, Reads item (write a) a) (hlen : values.length < UInt64.size) :
    Reads (list item) (writeArray (values.map write)) values := by
  rw [writeArray, List.length_map]
  refine reads_bind (reads_sequence hlen) (reads_listOf ?_)
  exact List.forall₂_map_left_iff.mpr (List.forall₂_same.mpr hitem)

/-- **A text.** -/
theorem reads_text {text : String} (hlen : (Bytes.ofText text).length < UInt64.size) :
    Reads Cbor.text (writeText (.ofText text)) text := by
  refine reads_bind (reads_untagged (by omega) hlen rfl) ?_
  intro rest
  have hparts : stringSegments true (some (Bytes.ofText text).length)
      (Bytes.ofText text ++ rest) = some ([Bytes.ofText text], rest) := by
    show ((take (Bytes.ofText text).length (Bytes.ofText text ++ rest)).bind fun p =>
      some ([p.1], p.2)) = _
    rw [take, Bytes.splitExact_append rfl]
    rfl
  show textBody (some (Bytes.ofText text).length) (Bytes.ofText text ++ rest) = _
  rw [textBody, hparts]
  show (([Bytes.ofText text].mapM Bytes.toText?).map fun texts => (String.join texts, rest)) = _
  rw [List.mapM_cons, Bytes.toText?_ofText]
  show some ("" ++ text, rest) = _
  rw [String.empty_append]

theorem reads_take (data : Bytes) : Reads (take data.length) data data :=
  fun rest => Bytes.splitExact_append rfl rest

/-- A name of a variant or a field is a text of limited length. -/
structure IsName (name : Bytes) : Prop where
  short : name.length ≤ nameLimit
  isText : (Bytes.toText? name).isSome

theorem isName_ofText {text : String} (h : (Bytes.ofText text).length ≤ nameLimit) :
    IsName (.ofText text) where
  short := h
  isText := by rw [Bytes.toText?_ofText]; rfl

theorem IsName.length_lt {name : Bytes} (h : IsName name) : name.length < UInt64.size :=
  Nat.lt_of_le_of_lt h.short (by decide)

theorem reads_nameBody {name : Bytes} (h : IsName name) :
    Reads (nameBody (.text (some name.length))) name name := by
  rw [nameBody, if_neg (Nat.not_lt.mpr h.short)]
  refine reads_bind_pure (reads_take name) ?_
  rw [if_pos h.isText]
  exact reads_pure name

theorem reads_name {name : Bytes} (h : IsName name) : Reads Cbor.name (writeText name) name :=
  reads_bind (reads_untagged (by omega) h.length_lt rfl) (reads_nameBody h)

/-- **The name of a variant** is the key of a map of one entry, or stands alone. -/
theorem reads_variant {name : Bytes} (h : IsName name) :
    Reads variant (writeHead 5 1 ++ writeText name) name :=
  reads_bind (reads_untagged (by omega) (by decide) rfl) (reads_name h)

theorem reads_variant_alone {name : Bytes} (h : IsName name) :
    Reads variant (writeText name) name :=
  reads_bind (reads_untagged (by omega) h.length_lt rfl) (reads_nameBody h)

theorem reads_mapLength {n : Nat} (hn : n < UInt64.size) :
    Reads mapLength (writeHead 5 n) (some n) :=
  reads_bind_pure (reads_untagged (by omega) hn rfl) (reads_pure _)

/-- A field that was not read before. -/
theorem reads_once {α : Type} {item : Reader α} {w : Bytes} {a : α} (h : Reads item w a) :
    Reads (once none item) w (some a) := by
  rw [once]
  exact reads_bind_pure h (reads_pure _)

end Values

section Structures

variable {σ : Type}

/-- Fields of a structure: each is read into what was gathered before. -/
inductive Gathers (field : σ → Bytes → Reader σ) : σ → List (Bytes × Bytes) → σ → Prop
  | nil (s : σ) : Gathers field s [] s
  | cons {s t last : σ} {name value : Bytes} {rest : List (Bytes × Bytes)} (hname : IsName name)
      (hfield : Reads (field s name) value t) (hrest : Gathers field t rest last) :
      Gathers field s ((name, value) :: rest) last

theorem Gathers.steps {field : σ → Bytes → Reader σ} {s last : σ} {written : List (Bytes × Bytes)}
    (h : Gathers field s written last) :
    Steps (fun s => do field s (← name)) s (written.map fun f => writeText f.1 ++ f.2) last := by
  induction h with
  | nil s => exact .nil s
  | cons hname hfield _ ih => exact .cons (reads_bind (reads_name hname) hfield) ih

theorem writeStruct_eq (written : List (Bytes × Bytes)) :
    Message.writeStruct written =
      writeHead 5 written.length ++ written.flatMap fun f => writeText f.1 ++ f.2 := by
  rw [Message.writeStruct, writeMap, List.length_map, List.flatMap_map]

theorem reads_fields {field : σ → Bytes → Reader σ} {s last : σ} {written : List (Bytes × Bytes)}
    (h : Gathers field s written last) :
    Reads (fields field s (some written.length))
      (written.flatMap fun f => writeText f.1 ++ f.2) last := by
  have hsteps := reads_iterate h.steps
  rw [List.length_map] at hsteps
  exact hsteps

/-- **A structure** is read field by field, and its parts are put together. -/
theorem reads_struct {α : Type} {field : σ → Bytes → Reader σ} {start last : σ}
    {written : List (Bytes × Bytes)} {build : σ → Reader α} {a : α}
    (hlen : written.length < UInt64.size) (h : Gathers field start written last)
    (hbuild : build last = pure a) :
    Reads (do build (← fields field start (← mapLength))) (Message.writeStruct written) a := by
  rw [writeStruct_eq]
  refine reads_bind (reads_mapLength hlen) (reads_bind_pure (reads_fields h) ?_)
  rw [hbuild]
  exact reads_pure a

end Structures
end Cbor

namespace Message

open Cbor (Reads Steps Gathers isName_ofText reads_bind reads_bind_pure reads_pure reads_once)

section Parts

theorem reads_digest (d : Digest) : Reads readDigest (writeByteList d.bytes) d := by
  refine reads_bind_pure (Cbor.reads_leadingBytes d.length_eq (by decide)) ?_
  rw [dif_pos d.length_eq]
  exact reads_pure d

theorem reads_ident (id : Ident) : Reads readIdent (writeByteList id.bytes) id := by
  refine reads_bind_pure (Cbor.reads_leadingBytes id.length_eq (by decide)) ?_
  rw [dif_pos id.length_eq]
  exact reads_pure id

/-- **The summary of a child.** -/
theorem reads_summary (around : Nat) (s : Summary) :
    Reads (readSummary around) (writeSummary s) s := by
  have hgathers : Gathers (summaryField (around + 1)) {}
      [(Name.hash, writeByteList s.digest.bytes), (Name.itemCount, writeCount s.itemCount)]
      ⟨some s.digest, some s.itemCount⟩ := by
    refine .cons (t := ⟨some s.digest, none⟩) (isName_ofText (by decide)) ?_
      (.cons (isName_ofText (by decide)) ?_ (.nil _))
    · rw [summaryField, if_pos rfl]
      exact reads_bind_pure (reads_once (reads_digest s.digest)) (reads_pure _)
    · rw [summaryField, if_neg (by decide), if_pos rfl]
      exact reads_bind_pure (reads_once (Cbor.reads_word s.itemCount)) (reads_pure _)
  exact Cbor.reads_struct (by decide : 2 < UInt64.size) hgathers rfl

/-- Entries in ascending order are gathered as they come. -/
theorem steps_children (around : Nat) :
    ∀ {entries : List (UInt8 × Summary)} {done all : ByteMap Summary},
      done.entries ++ entries = all.entries →
        Steps (fun children : ByteMap Summary => do
            let b ← Cbor.byte
            return children.insert b (← readSummary (around + 1))) done
          (entries.map fun c => Cbor.writeNat c.1.toNat ++ writeSummary c.2) all
  | [], done, all, h => by
      rw [List.append_nil] at h
      exact ByteMap.ext h ▸ .nil done
  | c :: entries, done, all, h => by
      have hlast : ∀ e ∈ done.entries, e.1 < c.1 := by
        have hascending := all.ascending
        rw [← h, List.pairwise_append] at hascending
        exact fun e he => hascending.2.2 e he c List.mem_cons_self
      have hinsert : (done.insert c.1 c.2).entries ++ entries = all.entries := by
        show ByteMap.insertEntry c.1 c.2 done.entries ++ entries = _
        rw [ByteMap.insertEntry_of_forall_lt c.2 hlast, List.append_assoc]
        exact h
      refine .cons (t := done.insert c.1 c.2) ?_ (steps_children around hinsert)
      exact reads_bind (Cbor.reads_byte c.1)
        (reads_bind_pure (reads_summary (around + 1) c.2) (reads_pure _))

/-- **The children of a node.** -/
theorem reads_children (around : Nat) (children : ByteMap Summary) :
    Reads (readChildren around) (writeChildren children) children := by
  have hlen : children.entries.length < UInt64.size :=
    Nat.lt_of_le_of_lt children.length_entries_le (by decide)
  have hall : ByteMap.empty.entries ++ children.entries = children.entries := List.nil_append _
  have hsteps := Cbor.reads_iterate (steps_children around hall)
  rw [List.length_map] at hsteps
  rw [writeChildren, Cbor.writeMap, List.length_map, List.flatMap_map]
  exact reads_bind (Cbor.reads_mapLength hlen) hsteps

/-- **The description of a node.** -/
theorem reads_nodeInfo (around : Nat) {info : NodeInfo} (hlen : info.path.length < UInt64.size) :
    Reads (readNodeInfo around) (writeNodeInfo info) info := by
  have hgathers : Gathers (nodeInfoField (around + 1)) {}
      [(Name.path, writeByteList info.path), (Name.itemCount, writeCount info.itemCount),
        (Name.hash, writeByteList info.digest.bytes), (Name.children, writeChildren info.children)]
      ⟨some info.path, some info.itemCount, some info.digest, some info.children⟩ := by
    refine .cons (t := ⟨some info.path, none, none, none⟩) (isName_ofText (by decide)) ?_
      (.cons (t := ⟨some info.path, some info.itemCount, none, none⟩) (isName_ofText (by decide)) ?_
        (.cons (t := ⟨some info.path, some info.itemCount, some info.digest, none⟩)
          (isName_ofText (by decide)) ?_ (.cons (isName_ofText (by decide)) ?_ (.nil _))))
    · rw [nodeInfoField, if_pos rfl]
      exact reads_bind_pure (reads_once (Cbor.reads_byteList hlen)) (reads_pure _)
    · rw [nodeInfoField, if_neg (by decide), if_pos rfl]
      exact reads_bind_pure (reads_once (Cbor.reads_word info.itemCount)) (reads_pure _)
    · rw [nodeInfoField, if_neg (by decide), if_neg (by decide), if_pos rfl]
      exact reads_bind_pure (reads_once (reads_digest info.digest)) (reads_pure _)
    · rw [nodeInfoField, if_neg (by decide), if_neg (by decide), if_neg (by decide), if_pos rfl]
      exact reads_bind_pure (reads_once (reads_children _ info.children)) (reads_pure _)
  exact Cbor.reads_struct (by decide : 4 < UInt64.size) hgathers rfl

/-- **A snapshot.** -/
theorem reads_snapshot (around : Nat) {snap : Snapshot} (hpath : snap.path.length < UInt64.size)
    (hsiblings : snap.siblings.length < UInt64.size) :
    Reads (readSnapshot around) (writeSnapshot snap) snap := by
  have hgathers : Gathers (snapshotField (around + 1)) {}
      [(Name.path, writeByteList snap.path),
        (Name.excludedHashes, Cbor.writeArray (snap.siblings.map fun d => writeByteList d.bytes)),
        (Name.itemCount, writeCount snap.itemCount)]
      ⟨some snap.path, some snap.siblings, some snap.itemCount⟩ := by
    refine .cons (t := ⟨some snap.path, none, none⟩) (isName_ofText (by decide)) ?_
      (.cons (t := ⟨some snap.path, some snap.siblings, none⟩) (isName_ofText (by decide)) ?_
        (.cons (isName_ofText (by decide)) ?_ (.nil _)))
    · rw [snapshotField, if_pos rfl]
      exact reads_bind_pure (reads_once (Cbor.reads_byteList hpath)) (reads_pure _)
    · rw [snapshotField, if_neg (by decide), if_pos rfl]
      exact reads_bind_pure
        (reads_once (Cbor.reads_list (fun d _ => reads_digest d) hsiblings)) (reads_pure _)
    · rw [snapshotField, if_neg (by decide), if_neg (by decide), if_pos rfl]
      exact reads_bind_pure (reads_once (Cbor.reads_word snap.itemCount)) (reads_pure _)
  exact Cbor.reads_struct (by decide : 3 < UInt64.size) hgathers rfl

/-- A structure of one field, whose value is the content of a variant. -/
theorem writeStruct_single (name value : Bytes) :
    writeStruct [(name, value)] = Cbor.writeHead 5 1 ++ Cbor.writeText name ++ value := by
  rw [Cbor.writeStruct_eq]
  simp

theorem reads_head {n : Nat} (hn : n < UInt64.size) :
    Reads Cbor.head (Cbor.writeHead 5 n) (.map (some n)) := by
  intro rest
  rw [Cbor.head_writeHead (by omega) hn]
  rfl

/-- **The content of a request.** -/
theorem reads_requestContent (around : Nat) {path : Bytes} (hlen : path.length < UInt64.size) :
    Reads (readRequestContent around) (writeStruct [(Name.path, writeByteList path)]) path := by
  have hgathers : Gathers (requestField (around + 1)) none [(Name.path, writeByteList path)]
      (some path) := by
    refine .cons (isName_ofText (by decide)) ?_ (.nil _)
    rw [requestField, if_pos rfl]
    exact reads_once (Cbor.reads_byteList hlen)
  rw [Cbor.writeStruct_eq]
  refine reads_bind (reads_head (by decide : 1 < UInt64.size)) ?_
  exact reads_bind_pure (Cbor.reads_fields hgathers) (reads_pure path)

theorem isName_code (code : ErrorCode) : Cbor.IsName (.ofText code.name) := by
  cases code with
  | invalidRequest => exact isName_ofText (by decide)
  | tooLarge => exact isName_ofText (by decide)
  | internal => exact isName_ofText (by decide)

theorem reads_code (code : ErrorCode) :
    Reads readCode (Cbor.writeText (.ofText code.name)) code := by
  have hname : ErrorCode.ofName? (.ofText code.name) = some code := by
    cases code with
    | invalidRequest => decide
    | tooLarge => decide
    | internal => decide
  refine reads_bind_pure (Cbor.reads_variant_alone (isName_code code)) ?_
  rw [hname]
  exact reads_pure code

/-- **The content of an error.** -/
theorem reads_errorContent (around : Nat) (code : ErrorCode) {text : String}
    (hlen : (Bytes.ofText text).length < UInt64.size) :
    Reads (readErrorContent around)
      (writeStruct [(Name.code, Cbor.writeText (.ofText code.name)),
        (Name.message, Cbor.writeText (.ofText text))]) (.error code text) := by
  have hgathers : Gathers (errorField (around + 1)) (none, none)
      [(Name.code, Cbor.writeText (.ofText code.name)),
        (Name.message, Cbor.writeText (.ofText text))] (some code, some text) := by
    refine .cons (t := (some code, none)) (isName_ofText (by decide)) ?_
      (.cons (isName_ofText (by decide)) ?_ (.nil _))
    · rw [errorField, if_pos rfl]
      exact reads_bind_pure (reads_once (reads_code code)) (reads_pure _)
    · rw [errorField, if_neg (by decide), if_pos rfl]
      exact reads_bind_pure (reads_once (Cbor.reads_text hlen)) (reads_pure _)
  rw [Cbor.writeStruct_eq]
  refine reads_bind (reads_head (by decide : 2 < UInt64.size)) ?_
  exact reads_bind_pure (Cbor.reads_fields hgathers) (reads_pure _)

end Parts

section Lengths

/-- Items that are not empty are no more than the bytes of their array. -/
theorem length_le_writeArray {items : List Bytes} (h : ∀ w ∈ items, w ≠ []) :
    items.length ≤ (Cbor.writeArray items).length := by
  have hflatten : items.length ≤ items.flatten.length := by
    induction items with
    | nil => exact Nat.zero_le _
    | cons w items ih =>
        have hw := List.length_pos_of_ne_nil (h w List.mem_cons_self)
        have hrest := ih fun v hv => h v (List.mem_cons_of_mem w hv)
        rw [List.length_cons, List.flatten_cons, List.length_append]
        omega
  rw [Cbor.writeArray, List.length_append]
  omega

theorem length_le_writeByteList (data : Bytes) : data.length ≤ (writeByteList data).length := by
  have hitems : ∀ w ∈ data.map fun b => Cbor.writeNat b.toNat, w ≠ [] := by
    intro w hw
    obtain ⟨b, _, rfl⟩ := List.mem_map.mp hw
    exact Cbor.writeHead_ne_nil 0 b.toNat
  have hlen := length_le_writeArray hitems
  rwa [List.length_map] at hlen

theorem writeByteList_ne_nil (data : Bytes) : writeByteList data ≠ [] := by
  intro h
  exact Cbor.writeHead_ne_nil _ _ (List.append_eq_nil_iff.mp h).1

theorem length_le_writeText (utf8 : Bytes) : utf8.length ≤ (Cbor.writeText utf8).length := by
  rw [Cbor.writeText, List.length_append]
  exact Nat.le_add_left _ _

/-- The value of a field is part of its structure. -/
theorem length_le_writeStruct {fields : List (Bytes × Bytes)} {name value : Bytes}
    (h : (name, value) ∈ fields) : value.length ≤ (writeStruct fields).length := by
  have hpart : (Cbor.writeText name ++ value).Sublist
      (fields.flatMap fun f => Cbor.writeText f.1 ++ f.2) :=
    List.sublist_flatten_of_mem (List.mem_map_of_mem h)
  have hlen := hpart.length_le
  rw [List.length_append] at hlen
  rw [Cbor.writeStruct_eq, List.length_append]
  omega

/-- So is the content of a variant. -/
theorem length_le_single (name value : Bytes) :
    value.length ≤ (writeStruct [(name, value)]).length :=
  length_le_writeStruct List.mem_cons_self

end Lengths
end Message

open Message Cbor in
/-- **A written request is read back**, whatever follows it. -/
theorem reads_request {r : Request} (h : r.write.length < UInt64.size) :
    Reads Request.read r.write r := by
  have hcontent := Nat.lt_of_le_of_lt (length_le_single _ _) h
  have hpath : r.path.length < UInt64.size :=
    Nat.lt_of_le_of_lt (length_le_writeByteList r.path)
      (Nat.lt_of_le_of_lt (length_le_single _ _) hcontent)
  have hname : Question.ofName? r.question.name = some r.question := by
    cases r.question with
    | snapshot => decide
    | nodeInfo => decide
    | idents => decide
  have hvalid : IsName r.question.name := by
    cases r.question with
    | snapshot => exact isName_ofText (by decide)
    | nodeInfo => exact isName_ofText (by decide)
    | idents => exact isName_ofText (by decide)
  rw [Request.write, writeStruct_single]
  refine reads_bind (reads_variant hvalid) ?_
  rw [hname]
  exact reads_bind_pure (reads_requestContent 1 hpath) (reads_pure r)

section Responses

open Message Cbor

theorem reads_response_snapshot {snap : Snapshot} (h : (writeSnapshot snap).length < UInt64.size) :
    Reads Response.read (Response.snapshot snap).write (.snapshot snap) := by
  have hpath : snap.path.length < UInt64.size :=
    Nat.lt_of_le_of_lt (length_le_writeByteList snap.path)
      (Nat.lt_of_le_of_lt (length_le_writeStruct List.mem_cons_self) h)
  have hsiblings : snap.siblings.length < UInt64.size := by
    have hitems : ∀ w ∈ snap.siblings.map fun d => writeByteList d.bytes, w ≠ [] := by
      intro w hw
      obtain ⟨d, _, rfl⟩ := List.mem_map.mp hw
      exact writeByteList_ne_nil d.bytes
    have hlen := length_le_writeArray hitems
    rw [List.length_map] at hlen
    exact Nat.lt_of_le_of_lt hlen
      (Nat.lt_of_le_of_lt (length_le_writeStruct (List.mem_cons_of_mem _ List.mem_cons_self)) h)
  rw [Response.write, writeStruct_single]
  refine reads_bind (reads_variant (isName_ofText (by decide))) ?_
  rw [if_pos rfl]
  exact reads_bind_pure (reads_snapshot 1 hpath hsiblings) (reads_pure _)

theorem reads_response_nodeInfo {info : NodeInfo} (h : (writeNodeInfo info).length < UInt64.size) :
    Reads Response.read (Response.nodeInfo (some info)).write (.nodeInfo (some info)) := by
  have hpath : info.path.length < UInt64.size :=
    Nat.lt_of_le_of_lt (length_le_writeByteList info.path)
      (Nat.lt_of_le_of_lt (length_le_writeStruct List.mem_cons_self) h)
  have hoptional : Reads (Cbor.optional (readNodeInfo 1)) (writeNodeInfo info) (some info) := by
    intro rest
    have hread := reads_nodeInfo 1 hpath rest
    have hhead : ∃ rest', Cbor.head (writeNodeInfo info ++ rest) = some (.map (some 4), rest') := by
      rw [writeNodeInfo, writeStruct_eq, List.append_assoc]
      exact ⟨_, reads_head (by decide : 4 < UInt64.size) _⟩
    obtain ⟨rest', hhead⟩ := hhead
    rw [Cbor.optional, hhead]
    show (readNodeInfo 1 (writeNodeInfo info ++ rest)).map _ = _
    rw [hread]
    rfl
  rw [Response.write, writeStruct_single]
  refine reads_bind (reads_variant (isName_ofText (by decide))) ?_
  rw [if_neg (by decide), if_pos rfl]
  exact reads_bind_pure hoptional (reads_pure _)

theorem reads_response_none :
    Reads Response.read (Response.nodeInfo none).write (.nodeInfo none) := by
  have hoptional : Reads (Cbor.optional (readNodeInfo 1)) writeNull none := fun _ => rfl
  rw [Response.write, writeStruct_single]
  refine reads_bind (reads_variant (isName_ofText (by decide))) ?_
  rw [if_neg (by decide), if_pos rfl]
  exact reads_bind_pure hoptional (reads_pure _)

theorem reads_response_idents {ids : List Ident}
    (h : (writeArray (ids.map fun id => writeByteList id.bytes)).length < UInt64.size) :
    Reads Response.read (Response.idents ids).write (.idents ids) := by
  have hids : ids.length < UInt64.size := by
    have hitems : ∀ w ∈ ids.map fun id => writeByteList id.bytes, w ≠ [] := by
      intro w hw
      obtain ⟨id, _, rfl⟩ := List.mem_map.mp hw
      exact writeByteList_ne_nil id.bytes
    have hlen := length_le_writeArray hitems
    rw [List.length_map] at hlen
    exact Nat.lt_of_le_of_lt hlen h
  rw [Response.write, writeStruct_single]
  refine reads_bind (reads_variant (isName_ofText (by decide))) ?_
  rw [if_neg (by decide), if_neg (by decide), if_pos rfl]
  exact reads_bind_pure (reads_list (fun id _ => reads_ident id) hids) (reads_pure _)

theorem reads_response_error (code : ErrorCode) {text : String}
    (h : (writeText (.ofText text)).length < UInt64.size) :
    Reads Response.read (Response.error code text).write (.error code text) := by
  have hlen := Nat.lt_of_le_of_lt (length_le_writeText (.ofText text)) h
  rw [Response.write, writeStruct_single]
  refine reads_bind (reads_variant (isName_ofText (by decide))) ?_
  rw [if_neg (by decide), if_neg (by decide), if_neg (by decide), if_pos rfl]
  exact reads_errorContent 1 code hlen

/-- **A written response is read back**, whatever follows it. -/
theorem reads_response {m : Response} (h : m.write.length < UInt64.size) :
    Reads Response.read m.write m := by
  cases m with
  | snapshot snap =>
      exact reads_response_snapshot (Nat.lt_of_le_of_lt (length_le_single _ _) h)
  | nodeInfo info =>
      cases info with
      | none => exact reads_response_none
      | some info => exact reads_response_nodeInfo (Nat.lt_of_le_of_lt (length_le_single _ _) h)
  | idents ids => exact reads_response_idents (Nat.lt_of_le_of_lt (length_le_single _ _) h)
  | error code text =>
      have hcontent := Nat.lt_of_le_of_lt (length_le_single _ _) h
      exact reads_response_error code (Nat.lt_of_le_of_lt
        (length_le_writeStruct (List.mem_cons_of_mem _ List.mem_cons_self)) hcontent)

end Responses
end MerkleSync
