import MerkleSync.Proofs.ItemRoundTrip

/-!
# Items are no longer than their encoding

Whatever is read, a reader leaves no more than it was given.  So a byte string
that is part of an item, made of one segment or of many, is no longer than the
input that the item was read from.

**Results.**
* `gives_bind`, `gives_iterate`: readers one after another.
* `gives_bytesBody`: byte strings.
* `gives_item`: items.
-/

namespace MerkleSync
namespace Cbor

/-- From at most `n` bytes the reader gives values with `P` only, and it leaves no
more than it was given. -/
def Gives {α : Type} (n : Nat) (m : Reader α) (P : α → Prop) : Prop :=
  ∀ input a rest, input.length ≤ n → m input = some (a, rest) →
    P a ∧ rest.length ≤ input.length

section Readers

variable {α β : Type} {n : Nat} {P : α → Prop} {Q : β → Prop}

theorem gives_pure {a : α} (h : P a) : Gives n (pure a) P := by
  intro input b rest _ hread
  cases hread
  exact ⟨h, Nat.le_refl _⟩

theorem gives_failure : Gives n (failure : Reader α) P := fun _ _ _ _ hread => nomatch hread

theorem gives_bind {m : Reader α} {f : α → Reader β} (hm : Gives n m P)
    (hf : ∀ a, P a → Gives n (f a) Q) : Gives n (m >>= f) Q := by
  intro input b rest hlen hread
  change ((m input).bind fun p => f p.1 p.2) = _ at hread
  obtain ⟨⟨a, mid⟩, hfirst, hnext⟩ := Option.bind_eq_some_iff.mp hread
  obtain ⟨ha, hmid⟩ := hm input a mid hlen hfirst
  obtain ⟨hb, hrest⟩ := hf a ha mid b rest (Nat.le_trans hmid hlen) hnext
  exact ⟨hb, Nat.le_trans hrest hmid⟩

theorem Gives.imp {m : Reader α} {P' : α → Prop} (h : Gives n m P) (himp : ∀ a, P a → P' a) :
    Gives n m P' := fun input a rest hlen hread =>
  (h input a rest hlen hread).imp_left (himp a)

theorem splitExact_eq_some {k : Nat} {input data rest : Bytes}
    (h : input.splitExact k = some (data, rest)) : data ++ rest = input := by
  rw [Bytes.splitExact] at h
  split at h
  · have hparts := Option.some.inj h
    rw [List.splitAt_eq] at hparts
    cases hparts
    exact List.take_append_drop k input
  · cases h

/-- What was taken and what is left are the input. -/
theorem length_of_splitExact {k : Nat} {input data rest : Bytes}
    (h : input.splitExact k = some (data, rest)) :
    data.length + rest.length = input.length := by
  rw [← splitExact_eq_some h, List.length_append]

theorem gives_argument (info : Nat) : Gives n (argument info) fun _ => True := by
  intro input a rest _ hread
  refine ⟨trivial, ?_⟩
  rw [argument] at hread
  split at hread
  · cases hread
    exact Nat.le_refl _
  · split at hread
    · cases hnumber : Bytes.splitExact (1 <<< (info - 24)) input with
      | none =>
          rw [hnumber] at hread
          cases hread
      | some parts =>
          rw [hnumber] at hread
          cases hread
          have hlen := length_of_splitExact hnumber
          omega
    · split at hread
      · cases hread
        exact Nat.le_refl _
      · cases hread

theorem length_of_head {input rest : Bytes} {h : Head} (hread : head input = some (h, rest)) :
    rest.length ≤ input.length := by
  cases input with
  | nil => cases hread
  | cons first input =>
      rw [head] at hread
      cases harg : argument (first.toNat % 32) input with
      | none =>
          rw [harg] at hread
          cases hread
      | some parts =>
          obtain ⟨⟨k, number⟩, rest'⟩ := parts
          rw [harg] at hread
          obtain ⟨h', _, hpair⟩ := Option.map_eq_some_iff.mp hread
          cases hpair
          have hrest := (gives_argument _ input _ _ (Nat.le_refl _) harg).2
          rw [List.length_cons]
          omega

theorem gives_head : Gives n head fun _ => True :=
  fun _ _ _ _ hread => ⟨trivial, length_of_head hread⟩

/-- **A loop** keeps what each of its steps keeps. -/
theorem gives_repeatTimes {σ : Type} {inv : σ → Prop} {step : σ → Reader σ}
    (hstep : ∀ s, inv s → Gives n (step s) inv) (k : Nat) (s : σ) (hs : inv s) :
    Gives n (repeatTimes step k s) inv := by
  induction k generalizing s with
  | zero => exact gives_pure hs
  | succ k ih =>
      intro input a rest hlen hread
      rw [repeatTimes] at hread
      split at hread
      · cases hread
      · next s' mid hfirst =>
          obtain ⟨hs', hmid⟩ := hstep s hs input s' mid hlen hfirst
          obtain ⟨ha, hrest⟩ := ih s' hs' mid a rest (Nat.le_trans hmid hlen) hread
          exact ⟨ha, Nat.le_trans hrest hmid⟩

theorem gives_repeatUntilStop {σ : Type} {inv : σ → Prop} {step : σ → Reader σ}
    (hstep : ∀ s, inv s → Gives n (step s) inv) (bound : Bytes) (s : σ) (hs : inv s) :
    Gives n (repeatUntilStop step bound s) inv := by
  induction bound generalizing s with
  | nil => exact fun _ _ _ _ hread => nomatch hread
  | cons b bound ih =>
      intro input a rest hlen hread
      rw [repeatUntilStop] at hread
      split at hread
      · next hstop =>
          cases hread
          exact ⟨hs, length_of_head hstop⟩
      · split at hread
        · cases hread
        · next s' mid hfirst =>
            obtain ⟨hs', hmid⟩ := hstep s hs input s' mid hlen hfirst
            obtain ⟨ha, hrest⟩ := ih s' hs' mid a rest (Nat.le_trans hmid hlen) hread
            exact ⟨ha, Nat.le_trans hrest hmid⟩

theorem gives_iterate {σ : Type} {inv : σ → Prop} {step : σ → Reader σ}
    (hstep : ∀ s, inv s → Gives n (step s) inv) (length : Option Nat) (s : σ) (hs : inv s) :
    Gives n (iterate step length s) inv := by
  cases length with
  | some k => exact gives_repeatTimes hstep k s hs
  | none =>
      exact fun input => gives_repeatUntilStop hstep input s hs input

theorem gives_listOf {item : Reader α} (hitem : Gives n item P) (length : Option Nat) :
    Gives n (listOf item length) fun items => ∀ a ∈ items, P a := by
  have hstep : ∀ items : List α, (∀ a ∈ items, P a) →
      Gives n (do return (← item) :: items) fun items => ∀ a ∈ items, P a := by
    intro items hitems
    refine gives_bind hitem fun a ha => gives_pure fun b hb => ?_
    rcases List.mem_cons.mp hb with rfl | hb
    · exact ha
    · exact hitems b hb
  refine gives_bind (gives_iterate hstep length [] fun a ha => nomatch ha) fun items hitems => ?_
  exact gives_pure fun a ha => hitems a (List.mem_reverse.mp ha)

end Readers

section Strings

variable {n : Nat}

/-- **Segments**, however they are nested, share the input with what is left of it. -/
theorem length_segments {isText : Bool} {bound : Bytes} {nested : Nat} {done segs : List Bytes}
    {input rest : Bytes} (h : segments isText bound nested done input = some (segs, rest)) :
    segs.flatten.length + rest.length ≤ done.flatten.length + input.length := by
  induction bound generalizing nested done input with
  | nil => cases h
  | cons b bound ih =>
      rw [segments] at h
      split at h
      · cases h
      · next hhead =>
          have hlen := length_of_head hhead
          split at h
          · cases h
            omega
          · have hrest := ih h
            omega
      · next hhead =>
          have hlen := length_of_head hhead
          split at h
          · cases h
          · have hrest := ih h
            omega
          · split at h
            · cases h
            · next segment mid hsplit =>
                have hparts := length_of_splitExact hsplit
                have hrest := ih h
                rw [List.flatten_cons, List.length_append] at hrest
                omega

theorem gives_stringSegments (isText : Bool) (length : Option Nat) :
    Gives n (stringSegments isText length) fun parts => parts.flatten.length ≤ n := by
  intro input parts rest hlen hread
  cases length with
  | some k =>
      change ((input.splitExact k).bind fun p => some ([p.1], p.2)) = _ at hread
      obtain ⟨⟨data, mid⟩, hsplit, hpair⟩ := Option.bind_eq_some_iff.mp hread
      cases hpair
      have hparts := length_of_splitExact hsplit
      dsimp only
      rw [List.flatten_cons, List.flatten_nil, List.append_nil]
      exact ⟨by omega, by omega⟩
  | none =>
      obtain ⟨⟨segs, mid⟩, hsegs, hpair⟩ := Option.map_eq_some_iff.mp hread
      cases hpair
      have hparts := length_segments hsegs
      rw [List.flatten_nil, List.length_nil] at hparts
      dsimp only
      rw [(List.reverse_perm segs).flatten.length_eq]
      exact ⟨by omega, by omega⟩

theorem gives_bytesBody (length : Option Nat) :
    Gives n (bytesBody length) fun data => data.length ≤ n :=
  gives_bind (gives_stringSegments false length) fun _ hparts => gives_pure hparts

theorem gives_textBody (length : Option Nat) : Gives n (textBody length) fun _ => True := by
  intro input text rest hlen hread
  refine ⟨trivial, ?_⟩
  rw [textBody] at hread
  split at hread
  · cases hread
  · next hparts =>
      obtain ⟨texts, _, hpair⟩ := Option.map_eq_some_iff.mp hread
      cases hpair
      exact (gives_stringSegments true length input _ _ hlen hparts).2

end Strings

/-- A byte string of at most `n` bytes, or another item. -/
def Item.BytesWithin (n : Nat) : Item → Prop
  | .bytes data => data.length ≤ n
  | _ => True

/-- No value of a map is a byte string of more than `n` bytes. -/
def Item.ValuesWithin (n : Nat) : Item → Prop
  | .map entries => ∀ e ∈ entries, e.2.BytesWithin n
  | _ => True

section Items

variable {n : Nat}

theorem bigInteger_kind
    {number : Nat}
    {data : Bytes}
    {it : Item}
    (h : bigInteger number data = some it) :
    (∃ value, it = .int value) ∨ ∃ content, it = .tagged number content := by
  rw [bigInteger] at h
  split_ifs at h
  all_goals first
    | exact Or.inl ⟨_, (Option.some.inj h).symm⟩
    | exact Or.inr ⟨_, (Option.some.inj h).symm⟩

/-- The tag of a big integer and a short byte string are read together. -/
def StartsNumber (number : Nat) (input : Bytes) : Prop :=
  (number = 2 ∨ number = 3) ∧ ∃ n mid, head input = some (.bytes (some n), mid) ∧ n ≤ 16

theorem tagContent_of_number
    {number n : Nat}
    {input mid : Bytes}
    (inner : Option (Reader Item))
    (hnumber : number = 2 ∨ number = 3)
    (hhead : head input = some (.bytes (some n), mid))
    (hshort : n ≤ 16) :
    tagContent inner number input =
      (mid.splitExact n).bind fun p => (bigInteger number p.1).map fun it => (it, p.2) := by
  simp [tagContent, hnumber, hhead, hshort]

theorem tagContent_of_not_number
    {number : Nat}
    {input : Bytes}
    (inner : Option (Reader Item))
    (h : ¬StartsNumber number input) :
    tagContent inner number input =
      inner.bind fun item => (item input).map fun p => (.tagged number p.1, p.2) := by
  rw [tagContent]
  split
  · next hnumber =>
      split
      · next n mid hhead =>
          rw [if_neg fun hshort => h ⟨hnumber, n, mid, hhead, hshort⟩]
      · rfl
  · rfl

/-- What a tag makes of its content is no byte string and no map. -/
theorem gives_tagContent {inner : Option (Reader Item)}
    (hinner : ∀ item ∈ inner, Gives n item fun _ => True) (number : Nat) :
    Gives n (tagContent inner number) fun it => it.BytesWithin n ∧ it.ValuesWithin n := by
  intro input it rest hlen hread
  by_cases hnumber : StartsNumber number input
  · obtain ⟨hbig, k, mid, hhead, hshort⟩ := hnumber
    rw [tagContent_of_number inner hbig hhead hshort] at hread
    obtain ⟨⟨data, mid'⟩, hsplit, hread⟩ := Option.bind_eq_some_iff.mp hread
    obtain ⟨it', hvalue, hpair⟩ := Option.map_eq_some_iff.mp hread
    cases hpair
    have hparts := length_of_splitExact hsplit
    have hmid := length_of_head hhead
    refine ⟨?_, by simp only; omega⟩
    rcases bigInteger_kind hvalue with ⟨value, rfl⟩ | ⟨content, rfl⟩
    · exact ⟨trivial, trivial⟩
    · exact ⟨trivial, trivial⟩
  · rw [tagContent_of_not_number inner hnumber] at hread
    obtain ⟨item, hitem, hread⟩ := Option.bind_eq_some_iff.mp hread
    obtain ⟨⟨content, mid⟩, hcontent, hpair⟩ := Option.map_eq_some_iff.mp hread
    cases hpair
    exact ⟨⟨trivial, trivial⟩, (hinner item hitem input content _ hlen hcontent).2⟩

/-- An item whose parts are read by a reader of items. -/
theorem gives_itemWith {inner : Option (Reader Item)}
    (hinner : ∀ item ∈ inner, Gives n item fun it => it.BytesWithin n ∧ it.ValuesWithin n) :
    Gives n (itemWith inner) fun it => it.BytesWithin n ∧ it.ValuesWithin n := by
  refine gives_bind gives_head fun h _ => ?_
  cases h with
  | positive k => exact gives_pure ⟨trivial, trivial⟩
  | negative k => exact gives_pure ⟨trivial, trivial⟩
  | bytes length =>
      exact gives_bind (gives_bytesBody length) fun data hdata => gives_pure ⟨hdata, trivial⟩
  | text length =>
      exact gives_bind (gives_textBody length) fun _ _ => gives_pure ⟨trivial, trivial⟩
  | array length =>
      cases inner with
      | none => exact gives_failure
      | some item =>
          refine gives_bind (gives_listOf (hinner item rfl) length) fun _ _ => ?_
          exact gives_pure ⟨trivial, trivial⟩
  | map length =>
      cases inner with
      | none => exact gives_failure
      | some item =>
          have hentry : Gives n (do return (← item, ← item)) fun e => e.2.BytesWithin n :=
            gives_bind (hinner item rfl) fun _ _ =>
              gives_bind (hinner item rfl) fun _ hvalue => gives_pure hvalue.1
          refine gives_bind (gives_listOf hentry length) fun entries hentries => ?_
          exact gives_pure ⟨trivial, hentries⟩
  | tag number =>
      exact gives_tagContent (fun item hitem => (hinner item hitem).imp fun _ _ => trivial) number
  | simple value =>
      intro input it rest _ hread
      obtain ⟨it', hvalue, hpair⟩ := Option.map_eq_some_iff.mp hread
      cases hpair
      refine ⟨?_, Nat.le_refl _⟩
      unfold simpleItem at hvalue
      split at hvalue
      all_goals cases hvalue
      all_goals exact ⟨trivial, trivial⟩
  | float number => exact gives_pure ⟨trivial, trivial⟩
  | stop => exact gives_failure

/-- **Items** have no byte string that is longer than the input. -/
theorem gives_item (n depth : Nat) :
    Gives n (item depth) fun it => it.BytesWithin n ∧ it.ValuesWithin n := by
  induction depth with
  | zero => exact gives_itemWith fun _ hitem => nomatch hitem
  | succ depth ih =>
      refine gives_itemWith fun inner hitem => ?_
      cases hitem
      exact ih

end Items
end Cbor
end MerkleSync
