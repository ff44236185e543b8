import MerkleSync.Proofs.ItemLength

/-!
# Items end where they end

What a reader takes from the front of an input is a byte string that it reads
wherever it stands: nothing that follows is looked at.  So an item that is
accepted alone is accepted in an array or a map, and what is accepted in one is
accepted alone.

**Results.**
* `delimited_bind`: readers one after another.
* `reads_iff_of_delimited`: what is read whole is read with anything after it.
* `listOf_eq_some_iff`: the written form of a list is what its reader takes.
* `delimited_item`: items of any kind.
-/

namespace MerkleSync

namespace Bytes

theorem splitExact_eq_some_iff
    {n : Nat}
    {input data rest : Bytes} :
    input.splitExact n = some (data, rest) ↔ data.length = n ∧ input = data ++ rest := by
  constructor
  · intro h
    refine ⟨?_, (Cbor.splitExact_eq_some h).symm⟩
    rw [splitExact] at h
    split at h
    · next hlen =>
        rw [Option.some.inj h] at hlen
        exact hlen
    · cases h
  · rintro ⟨hlen, rfl⟩
    exact splitExact_append hlen rest

end Bytes

namespace Cbor

/-- What the reader takes from an input is a string that it reads, whatever
follows. -/
def Delimited {α : Type} (m : Reader α) : Prop :=
  ∀ input a rest, m input = some (a, rest) → ∃ w, input = w ++ rest ∧ Reads m w a

/-- The reader fails where no item starts: there is no head, or it is a break. -/
def StartsItem {α : Type} (m : Reader α) : Prop :=
  ∀ input, (∀ h rest, head input = some (h, rest) → h = .stop) → m input = none

section Readers

variable {α β : Type}

theorem delimited_pure (a : α) : Delimited (pure a : Reader α) := by
  intro input b rest hread
  cases hread
  exact ⟨[], rfl, fun _ => rfl⟩

theorem delimited_failure : Delimited (failure : Reader α) :=
  fun _ _ _ hread => nomatch hread

theorem delimited_bind
    {m : Reader α}
    {f : α → Reader β}
    (hm : Delimited m)
    (hf : ∀ a, Delimited (f a)) :
    Delimited (m >>= f) := by
  intro input b rest hread
  change ((m input).bind fun p => f p.1 p.2) = _ at hread
  obtain ⟨⟨a, mid⟩, hfirst, hnext⟩ := Option.bind_eq_some_iff.mp hread
  obtain ⟨w, rfl, hw⟩ := hm input a mid hfirst
  obtain ⟨w', rfl, hw'⟩ := hf a mid b rest hnext
  exact ⟨w ++ w', (List.append_assoc w w' rest).symm, reads_bind hw hw'⟩

theorem startsItem_bind
    {m : Reader α}
    {f : α → Reader β}
    (hm : StartsItem m) :
    StartsItem (m >>= f) := by
  intro input hnone
  show ((m input).bind fun p => f p.1 p.2) = none
  rw [hm input hnone]
  rfl

/-- What was read whole is read with anything after it. -/
theorem reads_iff_of_delimited
    {m : Reader α}
    (hm : Delimited m)
    {w : Bytes}
    {a : α} :
    Reads m w a ↔ m w = some (a, []) := by
  constructor
  · intro hw
    have hwhole := hw []
    rwa [List.append_nil] at hwhole
  · intro hwhole
    obtain ⟨w', hsplit, hw'⟩ := hm w a [] hwhole
    rw [List.append_nil] at hsplit
    rwa [hsplit]

theorem delimited_take (n : Nat) : Delimited (take n) := by
  intro input data rest hread
  obtain ⟨hlen, rfl⟩ := Bytes.splitExact_eq_some_iff.mp hread
  exact ⟨data, rfl, fun more => Bytes.splitExact_append hlen more⟩

theorem delimited_argument (info : Nat) : Delimited (argument info) := by
  intro input a rest hread
  rw [argument] at hread
  split at hread
  · next hsmall =>
      cases hread
      exact ⟨[], rfl, fun more => argument_small hsmall more⟩
  · next hlarge =>
      split at hread
      · next hwide =>
          split at hread
          · next number mid hsplit =>
              cases hread
              obtain ⟨hlen, rfl⟩ := Bytes.splitExact_eq_some_iff.mp hsplit
              refine ⟨number, rfl, fun more => ?_⟩
              simp [argument, hlarge, hwide, Bytes.splitExact_append hlen]
          · cases hread
      · next hnarrow =>
          split at hread
          · next hnone =>
              cases hread
              exact ⟨[], rfl, fun more => by simp [argument, hnone]⟩
          · cases hread

theorem argument_eq_indefinite
    {info : Nat}
    {input number rest : Bytes}
    (h : argument info input = some ((none, number), rest)) :
    info = 31 ∧ rest = input := by
  rw [argument] at h
  split at h
  · cases h
  · split at h
    · split at h <;> cases h
    · split at h
      · next hinfo =>
          cases h
          exact ⟨hinfo, rfl⟩
      · cases h

theorem ofArgument_eq_stop
    {major : Nat}
    {n : Option Nat}
    {number : Bytes}
    (h : Head.ofArgument major n number = some .stop) :
    7 ≤ major ∧ n = none := by
  rcases major with _ | _ | _ | _ | _ | _ | _ | major
  all_goals cases n <;> simp [Head.ofArgument] at h ⊢
  split at h <;> cases h

theorem delimited_head : Delimited head := by
  intro input h rest hread
  cases input with
  | nil => cases hread
  | cons first input =>
      rw [head] at hread
      split at hread
      · cases hread
      · next n number mid harg =>
          obtain ⟨h', hkind, hpair⟩ := Option.map_eq_some_iff.mp hread
          cases hpair
          obtain ⟨w, rfl, hw⟩ := delimited_argument _ input _ _ harg
          refine ⟨first :: w, rfl, fun more => ?_⟩
          simp [head, hw more, hkind]

/-- Only one byte is a break. -/
theorem head_eq_stop_iff {input rest : Bytes} :
    head input = some (.stop, rest) ↔ input = 0xFF :: rest := by
  constructor
  · intro h
    cases input with
    | nil => cases h
    | cons first input =>
        rw [head] at h
        split at h
        · cases h
        · next n number mid harg =>
            obtain ⟨h', hkind, hpair⟩ := Option.map_eq_some_iff.mp h
            cases hpair
            obtain ⟨hmajor, rfl⟩ := ofArgument_eq_stop hkind
            obtain ⟨hinfo, rfl⟩ := argument_eq_indefinite harg
            have hfirst : first = 0xFF := by
              rw [← UInt8.toNat_inj]
              have hlt := first.toNat_lt
              show first.toNat = 255
              omega
            rw [hfirst]
  · rintro rfl
    rfl

/-- A reader that needs a head finds one in what it reads. -/
theorem StartsItem.head_of_reads
    {m : Reader α}
    (hm : StartsItem m)
    {w : Bytes}
    {a : α}
    (hw : Reads m w a) :
    ∃ h r, h ≠ .stop ∧ ∀ more, head (w ++ more) = some (h, r ++ more) := by
  by_cases hnone : ∀ h rest, head w = some (h, rest) → h = .stop
  · have hwhole := hw []
    rw [List.append_nil, hm w hnone] at hwhole
    cases hwhole
  · push Not at hnone
    obtain ⟨h, rest, hhead, hgo⟩ := hnone
    obtain ⟨w', rfl, hw'⟩ := delimited_head w h rest hhead
    exact ⟨h, rest, hgo, fun more => by rw [List.append_assoc, hw']⟩

theorem StartsItem.not_stop
    {m : Reader α}
    (hm : StartsItem m)
    {w : Bytes}
    {a : α}
    (hw : Reads m w a)
    (more rest : Bytes) :
    head (w ++ more) ≠ some (.stop, rest) := by
  obtain ⟨h, r, hgo, hhead⟩ := hm.head_of_reads hw
  simp [hhead, hgo]

theorem StartsItem.length_pos
    {m : Reader α}
    (hm : StartsItem m)
    {w : Bytes}
    {a : α}
    (hw : Reads m w a) :
    0 < w.length := by
  obtain ⟨h, r, -, hhead⟩ := hm.head_of_reads hw
  cases w with
  | nil => cases hhead []
  | cons first w => simp

/-- What has a head is not empty, so a bound of its length allows one step more
than for what comes after it. -/
theorem exists_cons_of_head
    {w r bound : Bytes}
    {h : Head}
    {n : Nat}
    (hhead : ∀ more, head (w ++ more) = some (h, r ++ more))
    (hlen : w.length + n ≤ bound.length) :
    ∃ b rest, bound = b :: rest ∧ n ≤ rest.length := by
  cases w with
  | nil => cases hhead []
  | cons first w =>
      cases bound with
      | nil => simp at hlen
      | cons b rest =>
          simp only [List.length_cons] at hlen
          exact ⟨b, rest, rfl, by omega⟩

end Readers

section Lists

variable {α : Type} {item : Reader α}

/-- The written form of a list: its items one after another, and a break if its length
is not given. -/
def EncodesList
    (item : Reader α)
    (length : Option Nat)
    (written : Bytes)
    (values : List α) : Prop :=
  ∃ parts : List Bytes,
    List.Forall₂ (Reads item) parts values ∧
      match length with
      | some n => values.length = n ∧ written = parts.flatten
      | none => written = parts.flatten ++ [0xFF]

/-- What a loop over items has gathered after the given ones. -/
theorem exists_parts_of_repeatTimes
    (hitem : Delimited item)
    {n : Nat}
    {done all : List α}
    {input rest : Bytes}
    (hread : repeatTimes (fun items => do return (← item) :: items) n done input =
      some (all, rest)) :
    ∃ parts values,
      List.Forall₂ (Reads item) parts values ∧
        values.length = n ∧ input = parts.flatten ++ rest ∧ all = values.reverse ++ done := by
  induction n generalizing done input with
  | zero =>
      cases hread
      exact ⟨[], [], .nil, rfl, rfl, rfl⟩
  | succ n ih =>
      rw [repeatTimes] at hread
      split at hread
      · cases hread
      · next done' mid hfirst =>
          obtain ⟨v, hvalue, rfl⟩ := gather_eq_some_iff.mp hfirst
          obtain ⟨w, rfl, hw⟩ := hitem input v mid hvalue
          obtain ⟨parts, values, hparts, hlen, rfl, rfl⟩ := ih hread
          exact ⟨w :: parts, v :: values, .cons hw hparts, by simp [hlen], by simp, by simp⟩

/-- The same of a loop up to a break. -/
theorem exists_parts_of_repeatUntilStop
    (hitem : Delimited item)
    {bound : Bytes}
    {done all : List α}
    {input rest : Bytes}
    (hread : repeatUntilStop (fun items => do return (← item) :: items) bound done input =
      some (all, rest)) :
    ∃ parts values,
      List.Forall₂ (Reads item) parts values ∧
        input = parts.flatten ++ 0xFF :: rest ∧ all = values.reverse ++ done := by
  induction bound generalizing done input with
  | nil => cases hread
  | cons b bound ih =>
      rw [repeatUntilStop] at hread
      split at hread
      · next hstop =>
          cases hread
          exact ⟨[], [], .nil, head_eq_stop_iff.mp hstop, rfl⟩
      · split at hread
        · cases hread
        · next done' mid hfirst =>
            obtain ⟨v, hvalue, rfl⟩ := gather_eq_some_iff.mp hfirst
            obtain ⟨w, rfl, hw⟩ := hitem input v mid hvalue
            obtain ⟨parts, values, hparts, rfl, rfl⟩ := ih hread
            exact ⟨w :: parts, v :: values, .cons hw hparts, by simp, by simp⟩

/-- A loop up to a break reads written items; a bound as long as they are allows all of
its steps. -/
theorem repeatUntilStop_parts
    (hstarts : StartsItem item)
    {parts : List Bytes}
    {values : List α}
    (hparts : List.Forall₂ (Reads item) parts values)
    (bound : Bytes)
    (done : List α)
    (rest : Bytes)
    (hlen : parts.flatten.length < bound.length) :
    repeatUntilStop (fun items => do return (← item) :: items) bound done
        (parts.flatten ++ 0xFF :: rest) =
      some (values.reverse ++ done, rest) := by
  induction hparts generalizing bound done with
  | nil =>
      cases bound with
      | nil => simp at hlen
      | cons b bound =>
          have hstop : head (0xFF :: rest) = some (.stop, rest) := head_eq_stop_iff.mpr rfl
          simp [repeatUntilStop, hstop]
  | @cons w v parts values hw _ ih =>
      have hpos : 0 < w.length := hstarts.length_pos hw
      cases bound with
      | nil => simp at hlen
      | cons b bound =>
          simp only [List.flatten_cons, List.length_append, List.length_cons] at hlen
          have hnext := hw (parts.flatten ++ 0xFF :: rest)
          rw [List.flatten_cons, List.append_assoc, repeatUntilStop]
          split
          · next hstop => exact absurd hstop (hstarts.not_stop hw _ _)
          · rw [gather_eq_some_iff.mpr ⟨v, hnext, rfl⟩]
            simpa using ih bound (v :: done) (by omega)

/-- **The written form of a list** is what its reader takes from the input. -/
theorem listOf_eq_some_iff
    (hitem : Delimited item)
    (hstarts : StartsItem item)
    {length : Option Nat}
    {input rest : Bytes}
    {values : List α} :
    listOf item length input = some (values, rest) ↔
      ∃ w, input = w ++ rest ∧ EncodesList item length w values := by
  constructor
  · intro hread
    obtain ⟨⟨all, mid⟩, hloop, hpair⟩ := Option.bind_eq_some_iff.mp hread
    cases hpair
    cases length with
    | some n =>
        obtain ⟨parts, values, hparts, hlen, rfl, rfl⟩ := exists_parts_of_repeatTimes hitem hloop
        exact ⟨parts.flatten, rfl, parts, by simpa using hparts, by simpa using hlen, rfl⟩
    | none =>
        obtain ⟨parts, values, hparts, rfl, rfl⟩ := exists_parts_of_repeatUntilStop hitem hloop
        exact ⟨parts.flatten ++ [0xFF], by simp, parts, by simpa using hparts, rfl⟩
  · rintro ⟨w, rfl, parts, hparts, hw⟩
    cases length with
    | some n =>
        obtain ⟨rfl, rfl⟩ := hw
        exact reads_listOf hparts rest
    | none =>
        cases hw
        have hloop := repeatUntilStop_parts hstarts hparts
          (parts.flatten ++ [0xFF] ++ rest) [] rest (by simp)
        show ((repeatUntilStop _ _ [] (parts.flatten ++ [0xFF] ++ rest)).bind fun p =>
          some (p.1.reverse, p.2)) = _
        rw [show parts.flatten ++ [0xFF] ++ rest = parts.flatten ++ 0xFF :: rest by simp] at hloop ⊢
        rw [hloop]
        simp

theorem delimited_listOf
    (hitem : Delimited item)
    (hstarts : StartsItem item)
    (length : Option Nat) :
    Delimited (listOf item length) := by
  intro input values rest hread
  obtain ⟨w, rfl, hw⟩ := (listOf_eq_some_iff hitem hstarts).mp hread
  exact ⟨w, rfl, fun more => (listOf_eq_some_iff hitem hstarts).mpr ⟨w, rfl, hw⟩⟩

end Lists

section Strings

/-- An indefinite string inside another one. -/
theorem segments_of_indefinite
    {isText : Bool}
    {b : UInt8}
    {bound input mid : Bytes}
    {nested : Nat}
    {done : List Bytes}
    {h : Head}
    (hhead : head input = some (h, mid))
    (hkind : segmentLength? isText h = some none) :
    segments isText (b :: bound) nested done input =
      segments isText bound (nested + 1) done mid := by
  cases h with
  | stop => cases hkind
  | _ => simp only [segments, hhead, hkind]

/-- A segment of given length. -/
theorem segments_of_definite
    {isText : Bool}
    {b : UInt8}
    {bound input mid segment rest : Bytes}
    {nested n : Nat}
    {done : List Bytes}
    {h : Head}
    (hhead : head input = some (h, mid))
    (hkind : segmentLength? isText h = some (some n))
    (hsplit : mid.splitExact n = some (segment, rest)) :
    segments isText (b :: bound) nested done input =
      segments isText bound nested (segment :: done) rest := by
  cases h with
  | stop => cases hkind
  | _ => simp only [segments, hhead, hkind, hsplit]

/-- **Segments** share nothing with what follows their break. -/
theorem delimited_segments
    {isText : Bool}
    {bound input rest : Bytes}
    {nested : Nat}
    {done segs : List Bytes}
    (hread : segments isText bound nested done input = some (segs, rest)) :
    ∃ w, input = w ++ rest ∧ ∀ bound' more, w.length ≤ bound'.length →
      segments isText bound' nested done (w ++ more) = some (segs, more) := by
  induction bound generalizing nested done input with
  | nil => cases hread
  | cons b bound ih =>
      rw [segments] at hread
      split at hread
      · cases hread
      · next mid hhead =>
          obtain ⟨w, rfl, hw⟩ := delimited_head _ _ _ hhead
          split at hread
          · cases hread
            refine ⟨w, rfl, fun bound' more hlen => ?_⟩
            obtain ⟨b', bound', rfl, -⟩ := exists_cons_of_head (r := []) (n := 0) hw hlen
            rw [segments, hw]
          · obtain ⟨w', rfl, hw'⟩ := ih hread
            refine ⟨w ++ w', (List.append_assoc w w' rest).symm, fun bound' more hlen => ?_⟩
            rw [List.length_append] at hlen
            obtain ⟨b', bound', rfl, hlen'⟩ := exists_cons_of_head (r := []) hw hlen
            rw [List.append_assoc, segments, hw]
            exact hw' bound' more hlen'
      · next h mid hgo hhead =>
          obtain ⟨w, rfl, hw⟩ := delimited_head _ _ _ hhead
          split at hread
          · cases hread
          · next hkind =>
              obtain ⟨w', rfl, hw'⟩ := ih hread
              refine ⟨w ++ w', (List.append_assoc w w' rest).symm, fun bound' more hlen => ?_⟩
              rw [List.length_append] at hlen
              obtain ⟨b', bound', rfl, hlen'⟩ := exists_cons_of_head (r := []) hw hlen
              rw [List.append_assoc, segments_of_indefinite (hw _) hkind]
              exact hw' bound' more hlen'
          · next n hkind =>
              split at hread
              · cases hread
              · next segment mid' hsplit =>
                  obtain ⟨hsize, rfl⟩ := Bytes.splitExact_eq_some_iff.mp hsplit
                  obtain ⟨w', rfl, hw'⟩ := ih hread
                  refine ⟨w ++ (segment ++ w'), by simp, fun bound' more hlen => ?_⟩
                  rw [List.length_append] at hlen
                  obtain ⟨b', bound', rfl, hlen'⟩ := exists_cons_of_head (r := []) hw hlen
                  rw [List.length_append] at hlen'
                  simp only [List.append_assoc]
                  rw [segments_of_definite (hw _) hkind (Bytes.splitExact_append hsize _)]
                  exact hw' bound' more (by omega)

theorem delimited_stringSegments (isText : Bool) (length : Option Nat) :
    Delimited (stringSegments isText length) := by
  cases length with
  | some k => exact delimited_bind (delimited_take k) fun data => delimited_pure [data]
  | none =>
      intro input parts rest hread
      obtain ⟨⟨segs, mid⟩, hsegs, hpair⟩ := Option.map_eq_some_iff.mp hread
      cases hpair
      obtain ⟨w, rfl, hw⟩ := delimited_segments hsegs
      refine ⟨w, rfl, fun more => ?_⟩
      show (segments isText (w ++ more) 0 [] (w ++ more)).map _ = _
      rw [hw (w ++ more) more (by simp)]
      rfl

theorem delimited_bytesBody (length : Option Nat) : Delimited (bytesBody length) :=
  delimited_bind (delimited_stringSegments false length) fun parts =>
    delimited_pure parts.flatten

theorem delimited_textBody (length : Option Nat) : Delimited (textBody length) := by
  intro input text rest hread
  rw [textBody] at hread
  split at hread
  · cases hread
  · next parts mid hparts =>
      obtain ⟨texts, htexts, hpair⟩ := Option.map_eq_some_iff.mp hread
      cases hpair
      obtain ⟨w, rfl, hw⟩ := delimited_stringSegments true length _ _ _ hparts
      refine ⟨w, rfl, fun more => ?_⟩
      simp [textBody, hw more, htexts]

end Strings

section Items

/-- **What follows a tag**: the head that decides how it is read is part of what is
taken. -/
theorem delimited_tagContent
    {inner : Option (Reader Item)}
    (hinner : ∀ item ∈ inner, Delimited item ∧ StartsItem item)
    (number : Nat) :
    Delimited (tagContent inner number) := by
  intro input it rest hread
  by_cases hnumber : StartsNumber number input
  · obtain ⟨hbig, n, mid, hhead, hshort⟩ := hnumber
    rw [tagContent_of_number inner hbig hhead hshort] at hread
    obtain ⟨⟨data, mid'⟩, hsplit, hread⟩ := Option.bind_eq_some_iff.mp hread
    obtain ⟨it', hvalue, hpair⟩ := Option.map_eq_some_iff.mp hread
    cases hpair
    obtain ⟨hlen, rfl⟩ := Bytes.splitExact_eq_some_iff.mp hsplit
    obtain ⟨w, rfl, hw⟩ := delimited_head _ _ _ hhead
    refine ⟨w ++ data, (List.append_assoc w data mid').symm, fun more => ?_⟩
    rw [List.append_assoc, tagContent_of_number inner hbig (hw _) hshort,
      Bytes.splitExact_append hlen]
    simp [hvalue]
  · rw [tagContent_of_not_number inner hnumber] at hread
    obtain ⟨item, hitem, hread⟩ := Option.bind_eq_some_iff.mp hread
    obtain ⟨⟨content, mid⟩, hcontent, hpair⟩ := Option.map_eq_some_iff.mp hread
    cases hpair
    obtain ⟨hdelimited, hstarts⟩ := hinner item hitem
    obtain ⟨w, rfl, hw⟩ := hdelimited input content mid hcontent
    obtain ⟨h, r, -, hhead⟩ := hstarts.head_of_reads hw
    refine ⟨w, rfl, fun more => ?_⟩
    have hstill : ¬StartsNumber number (w ++ more) := by
      rintro ⟨hbig, n, mid', hother, hshort⟩
      rw [hhead] at hother
      cases hother
      exact hnumber ⟨hbig, n, _, hhead mid, hshort⟩
    rw [tagContent_of_not_number inner hstill, Option.mem_def.mp hitem]
    simp [hw more]

theorem startsItem_itemWith (inner : Option (Reader Item)) : StartsItem (itemWith inner) := by
  intro input hstop
  show (head input).bind _ = none
  cases hhead : head input with
  | none => rfl
  | some found =>
      obtain ⟨h, rest⟩ := found
      rw [hstop h rest hhead]
      rfl

theorem delimited_itemWith
    {inner : Option (Reader Item)}
    (hinner : ∀ item ∈ inner, Delimited item ∧ StartsItem item) :
    Delimited (itemWith inner) := by
  refine delimited_bind delimited_head fun h => ?_
  cases h with
  | positive n => exact delimited_pure _
  | negative n => exact delimited_pure _
  | bytes length => exact delimited_bind (delimited_bytesBody length) fun _ => delimited_pure _
  | text length => exact delimited_bind (delimited_textBody length) fun _ => delimited_pure _
  | array length =>
      cases inner with
      | none => exact delimited_failure
      | some item =>
          obtain ⟨hitem, hstarts⟩ := hinner item rfl
          exact delimited_bind (delimited_listOf hitem hstarts length) fun _ => delimited_pure _
  | map length =>
      cases inner with
      | none => exact delimited_failure
      | some item =>
          obtain ⟨hitem, hstarts⟩ := hinner item rfl
          have hentry : Delimited (do return (← item, ← item) : Reader (Item × Item)) :=
            delimited_bind hitem fun _ => delimited_bind hitem fun _ => delimited_pure _
          exact delimited_bind (delimited_listOf hentry (startsItem_bind hstarts) length)
            fun _ => delimited_pure _
  | tag number => exact delimited_tagContent hinner number
  | simple value =>
      intro input it rest hread
      obtain ⟨it', hvalue, hpair⟩ := Option.map_eq_some_iff.mp hread
      cases hpair
      refine ⟨[], rfl, fun more => ?_⟩
      show (simpleItem value).map _ = _
      rw [hvalue]
      rfl
  | float number => exact delimited_pure _
  | stop => exact delimited_failure

theorem startsItem_item (depth : Nat) : StartsItem (item depth) := by
  cases depth with
  | zero => exact startsItem_itemWith none
  | succ depth => exact startsItem_itemWith (some (item depth))

/-- **Items are self-delimiting** at every nesting depth. -/
theorem delimited_item (depth : Nat) : Delimited (item depth) := by
  induction depth with
  | zero => exact delimited_itemWith fun _ hitem => nomatch hitem
  | succ depth ih =>
      refine delimited_itemWith fun inner hitem => ?_
      cases hitem
      exact ⟨ih, startsItem_item depth⟩

end Items

section Maps

variable {depth : Nat}

/-- The written form of an entry: its key and its value, each an item by itself. -/
def EncodesEntry
    (depth : Nat)
    (written : Bytes × Bytes)
    (entry : Item × Item) : Prop :=
  item depth written.1 = some (entry.1, []) ∧ item depth written.2 = some (entry.2, [])

/-- The written form of a map: a head, its entries one after another, and a break if
their number is not given. -/
inductive EncodesMap (depth : Nat) (entries : List (Item × Item)) : Bytes → Prop
  | definite
      {start : Bytes}
      {parts : List (Bytes × Bytes)}
      (hstart : head start = some (.map (some entries.length), []))
      (hparts : List.Forall₂ (EncodesEntry depth) parts entries) :
      EncodesMap depth entries (start ++ parts.flatMap fun w => w.1 ++ w.2)
  | indefinite
      {start : Bytes}
      {parts : List (Bytes × Bytes)}
      (hstart : head start = some (.map none, []))
      (hparts : List.Forall₂ (EncodesEntry depth) parts entries) :
      EncodesMap depth entries (start ++ (parts.flatMap fun w => w.1 ++ w.2) ++ [0xFF])

/-- The reader of an entry. -/
def entryReader (depth : Nat) : Reader (Item × Item) := do
  return (← item depth, ← item depth)

theorem delimited_entryReader : Delimited (entryReader depth) :=
  delimited_bind (delimited_item depth) fun _ =>
    delimited_bind (delimited_item depth) fun _ => delimited_pure _

theorem startsItem_entryReader : StartsItem (entryReader depth) :=
  startsItem_bind (startsItem_item depth)

theorem reads_entryReader_iff
    {w : Bytes}
    {entry : Item × Item} :
    Reads (entryReader depth) w entry ↔
      ∃ part : Bytes × Bytes, w = part.1 ++ part.2 ∧ EncodesEntry depth part entry := by
  have hitem := delimited_item depth
  constructor
  · intro hw
    have hwhole := (reads_iff_of_delimited delimited_entryReader).mp hw
    obtain ⟨⟨key, mid⟩, hkey, hnext⟩ := Option.bind_eq_some_iff.mp hwhole
    obtain ⟨⟨value, rest⟩, hvalue, hpair⟩ := Option.bind_eq_some_iff.mp hnext
    cases hpair
    obtain ⟨w', rfl, hw'⟩ := hitem w key mid hkey
    exact ⟨(w', mid), rfl, (reads_iff_of_delimited hitem).mp hw', hvalue⟩
  · rintro ⟨part, rfl, hkey, hvalue⟩
    exact reads_bind ((reads_iff_of_delimited hitem).mpr hkey)
      (reads_bind_pure ((reads_iff_of_delimited hitem).mpr hvalue) (reads_pure entry))

theorem forall₂_reads_entryReader_iff
    {written : List Bytes}
    {entries : List (Item × Item)} :
    List.Forall₂ (Reads (entryReader depth)) written entries ↔
      ∃ parts : List (Bytes × Bytes),
        written = parts.map (fun w => w.1 ++ w.2) ∧
          List.Forall₂ (EncodesEntry depth) parts entries := by
  constructor
  · intro h
    induction h with
    | nil => exact ⟨[], rfl, .nil⟩
    | cons hentry _ ih =>
        obtain ⟨part, rfl, hpart⟩ := reads_entryReader_iff.mp hentry
        obtain ⟨parts, rfl, hparts⟩ := ih
        exact ⟨part :: parts, rfl, .cons hpart hparts⟩
  · rintro ⟨parts, rfl, hparts⟩
    rw [List.forall₂_map_left_iff]
    exact hparts.imp fun part _ hpart => reads_entryReader_iff.mpr ⟨part, rfl, hpart⟩

/-- What follows a tag is no map. -/
theorem tagContent_ne_map
    {inner : Option (Reader Item)}
    {number : Nat}
    {input rest : Bytes}
    {entries : List (Item × Item)} :
    tagContent inner number input ≠ some (.map entries, rest) := by
  intro hread
  by_cases hnumber : StartsNumber number input
  · obtain ⟨hbig, n, mid, hhead, hshort⟩ := hnumber
    rw [tagContent_of_number inner hbig hhead hshort] at hread
    obtain ⟨p, -, hread⟩ := Option.bind_eq_some_iff.mp hread
    obtain ⟨it, hvalue, hpair⟩ := Option.map_eq_some_iff.mp hread
    cases hpair
    rcases bigInteger_kind hvalue with ⟨_, hmap⟩ | ⟨_, hmap⟩
    · cases hmap
    · cases hmap
  · rw [tagContent_of_not_number inner hnumber] at hread
    obtain ⟨item, -, hread⟩ := Option.bind_eq_some_iff.mp hread
    obtain ⟨p, -, hpair⟩ := Option.map_eq_some_iff.mp hread
    cases hpair

/-- A map is read after a head that says so. -/
theorem item_eq_map_iff_head
    {input rest : Bytes}
    {entries : List (Item × Item)} :
    item (depth + 1) input = some (.map entries, rest) ↔
      ∃ length mid, head input = some (.map length, mid) ∧
        listOf (entryReader depth) length mid = some (entries, rest) := by
  constructor
  · intro hread
    obtain ⟨⟨h, mid⟩, hhead, hread⟩ := Option.bind_eq_some_iff.mp hread
    cases h with
    | map length =>
        obtain ⟨⟨entries', rest'⟩, hlist, hpair⟩ := Option.bind_eq_some_iff.mp hread
        cases hpair
        exact ⟨length, mid, hhead, hlist⟩
    | bytes length =>
        obtain ⟨p, -, hpair⟩ := Option.bind_eq_some_iff.mp hread
        cases hpair
    | text length =>
        obtain ⟨p, -, hpair⟩ := Option.bind_eq_some_iff.mp hread
        cases hpair
    | array length =>
        obtain ⟨p, -, hpair⟩ := Option.bind_eq_some_iff.mp hread
        cases hpair
    | tag number => exact absurd hread tagContent_ne_map
    | simple value =>
        obtain ⟨it, hvalue, hpair⟩ := Option.map_eq_some_iff.mp hread
        cases hpair
        simp only [simpleItem] at hvalue
        split at hvalue <;> cases hvalue
    | _ => cases hread
  · rintro ⟨length, mid, hhead, hlist⟩
    show (head input).bind _ = _
    rw [hhead]
    show (listOf (entryReader depth) length mid).bind _ = _
    rw [hlist]
    rfl

/-- **Maps are read exactly where their written form stands.** -/
theorem item_eq_map_iff
    {input rest : Bytes}
    {entries : List (Item × Item)} :
    item (depth + 1) input = some (.map entries, rest) ↔
      ∃ w, input = w ++ rest ∧ EncodesMap depth entries w := by
  have hlist : ∀ length mid, listOf (entryReader depth) length mid = some (entries, rest) ↔ _ :=
    fun _ _ => listOf_eq_some_iff delimited_entryReader startsItem_entryReader
  have hhead : ∀ {w : Bytes} {h : Head}, head w = some (h, []) → Reads head w h :=
    (reads_iff_of_delimited delimited_head).mpr
  rw [item_eq_map_iff_head]
  constructor
  · rintro ⟨length, mid, hstart, hread⟩
    obtain ⟨w, rfl, written, hwritten, hw⟩ := (hlist length mid).mp hread
    obtain ⟨parts, rfl, hparts⟩ := forall₂_reads_entryReader_iff.mp hwritten
    obtain ⟨start, rfl, hreads⟩ := delimited_head _ _ _ hstart
    have hwhole := (reads_iff_of_delimited delimited_head).mp hreads
    rw [← List.flatMap_def] at hw
    cases length with
    | some n =>
        obtain ⟨rfl, rfl⟩ := hw
        exact ⟨_, (List.append_assoc _ _ _).symm, .definite hwhole hparts⟩
    | none =>
        cases hw
        exact ⟨_, by simp only [List.append_assoc], .indefinite hwhole hparts⟩
  · rintro ⟨w, rfl, hw⟩
    cases hw with
    | @definite start parts hstart hparts =>
        refine ⟨_, _, by rw [List.append_assoc]; exact hhead hstart _, (hlist _ _).mpr ?_⟩
        exact ⟨_, rfl, _, forall₂_reads_entryReader_iff.mpr ⟨parts, rfl, hparts⟩, rfl,
          List.flatMap_def⟩
    | @indefinite start parts hstart hparts =>
        refine ⟨_, _, by rw [List.append_assoc, List.append_assoc]; exact hhead hstart _,
          (hlist _ _).mpr ?_⟩
        exact ⟨_, (List.append_assoc _ _ _).symm, _,
          forall₂_reads_entryReader_iff.mpr ⟨parts, rfl, hparts⟩, by rw [List.flatMap_def]⟩

end Maps
end Cbor
end MerkleSync
