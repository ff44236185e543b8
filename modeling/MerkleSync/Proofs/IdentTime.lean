import Mathlib.Algebra.Order.Ring.Nat
import Mathlib.Data.List.Induction
import MerkleSync.Ident

/-!
# Identifiers in time

The timestamp of an identifier is written with a fixed number of decimal
digits, zeros in front.  So the order of the bytes is first that of time, and
the identifiers that start with some of the digits are those of one span of
time, whose length is a power of ten.

**Results.**
* `readDigits_decimalDigits`, `decimalDigits_of_readDigits`: written digits are
  read back, and digits that are read are those that would be written.
* `compare_decimalDigits_append`: written digits compare as the numbers do.
* `take_decimalDigits`: the first digits are those of a quotient.
* `identifiers_encode_time`: identifiers of any times and hashes.
-/

namespace MerkleSync

section Digits

/-- The byte of the last digit of `n`. -/
theorem toNat_lastDigit (n : Nat) :
    (UInt8.ofNat (48 + n % 10)).toNat = 48 + n % 10 := by
  rw [UInt8.toNat_ofNat_of_lt']
  simp only [UInt8.size]
  omega

/-- Bytes compare as the numbers they are. -/
theorem compare_toNat (b c : UInt8) : compare b c = compare b.toNat c.toNat := by
  show compareOfLessAndEq b c = compareOfLessAndEq b.toNat c.toNat
  simp only [compareOfLessAndEq, UInt8.lt_iff_toNat_lt, ← UInt8.toNat_inj]

theorem compare_lastDigit (m n : Nat) :
    compare (UInt8.ofNat (48 + m % 10)) (UInt8.ofNat (48 + n % 10)) =
      compare (m % 10) (n % 10) := by
  rw [compare_toNat, toNat_lastDigit, toNat_lastDigit]
  show compareOfLessAndEq _ _ = compareOfLessAndEq _ _
  simp [compareOfLessAndEq]

/-- Numbers compare as their quotients do, and then as their last digits. -/
theorem compare_div_then_mod (m n : Nat) :
    (compare (m / 10) (n / 10)).then (compare (m % 10) (n % 10)) = compare m n := by
  rcases hcmp : compare m n with _ | _ | _
  · rw [Nat.compare_eq_lt] at hcmp
    rw [Ordering.then_eq_lt, Nat.compare_eq_lt, Nat.compare_eq_eq, Nat.compare_eq_lt]
    omega
  · rw [Nat.compare_eq_eq] at hcmp
    rw [Ordering.then_eq_eq, Nat.compare_eq_eq, Nat.compare_eq_eq]
    omega
  · rw [Nat.compare_eq_gt] at hcmp
    rw [Ordering.then_eq_gt, Nat.compare_eq_gt, Nat.compare_eq_eq, Nat.compare_eq_gt]
    omega

/-- **Written digits compare as the numbers do**, and after them whatever
follows is compared. -/
theorem compare_decimalDigits_append
    {width m n : Nat}
    (hm : m < 10 ^ width)
    (hn : n < 10 ^ width)
    (g h : Bytes) :
    compare (decimalDigits width m ++ g) (decimalDigits width n ++ h) =
      (compare m n).then (compare g h) := by
  induction width generalizing m n g h with
  | zero =>
      have hm0 : m = 0 := by omega
      have hn0 : n = 0 := by omega
      simp [decimalDigits, hm0, hn0]
  | succ width ih =>
      have hmq : m / 10 < 10 ^ width := by
        rw [pow_succ] at hm
        omega
      have hnq : n / 10 < 10 ^ width := by
        rw [pow_succ] at hn
        omega
      -- the last digit goes to what follows
      have hstep := ih hmq hnq (UInt8.ofNat (48 + m % 10) :: g) (UInt8.ofNat (48 + n % 10) :: h)
      rw [List.compare_cons_cons, compare_lastDigit, ← Ordering.then_assoc,
        compare_div_then_mod] at hstep
      simpa [decimalDigits] using hstep

theorem readDigits_append_singleton
    (n : Nat)
    (front : Bytes)
    (b : UInt8) :
    Ident.readDigits n (front ++ [b]) =
      (Ident.readDigits n front).bind fun v =>
        if 48 ≤ b.toNat ∧ b.toNat ≤ 57 then some (v * 10 + (b.toNat - 48)) else none := by
  induction front generalizing n with
  | nil => simp [Ident.readDigits]
  | cons c front ih =>
      rw [List.cons_append, Ident.readDigits, Ident.readDigits]
      split
      · exact ih _
      · rfl

/-- **Written digits are read back**, up to the number of digits. -/
theorem readDigits_decimalDigits (width n : Nat) :
    Ident.readDigits 0 (decimalDigits width n) = some (n % 10 ^ width) := by
  induction width generalizing n with
  | zero => simp [decimalDigits, Ident.readDigits, Nat.mod_one]
  | succ width ih =>
      have hdigit := toNat_lastDigit n
      rw [decimalDigits, readDigits_append_singleton, ih, Option.bind_some, hdigit,
        if_pos (by omega), pow_succ', Nat.mod_mul]
      congr 1
      omega

/-- **Digits that are read** are those that would be written. -/
theorem decimalDigits_of_readDigits
    {digits : Bytes}
    {n : Nat}
    (h : Ident.readDigits 0 digits = some n) :
    decimalDigits digits.length n = digits ∧ n < 10 ^ digits.length := by
  induction digits using List.reverseRecOn generalizing n with
  | nil =>
      obtain rfl : 0 = n := by simpa [Ident.readDigits] using h
      simp [decimalDigits]
  | append_singleton front b ih =>
      rw [readDigits_append_singleton] at h
      obtain ⟨v, hfront, hlast⟩ := Option.bind_eq_some_iff.mp h
      obtain ⟨hwritten, hbound⟩ := ih hfront
      split at hlast
      · next hdigit =>
          obtain rfl := Option.some.inj hlast
          have hquot : (v * 10 + (b.toNat - 48)) / 10 = v := by omega
          have hbyte : 48 + (v * 10 + (b.toNat - 48)) % 10 = b.toNat := by omega
          rw [List.length_append, List.length_singleton, decimalDigits, hquot, hwritten, hbyte,
            UInt8.ofNat_toNat, pow_succ]
          exact ⟨rfl, by omega⟩
      · cases hlast

theorem decimalDigits_inj
    {width m n : Nat}
    (hm : m < 10 ^ width)
    (hn : n < 10 ^ width) :
    decimalDigits width m = decimalDigits width n ↔ m = n := by
  constructor
  · intro hsame
    have hread := readDigits_decimalDigits width m
    rw [hsame, readDigits_decimalDigits, Nat.mod_eq_of_lt hm, Nat.mod_eq_of_lt hn] at hread
    exact (Option.some.inj hread).symm
  · rintro rfl
    rfl

/-- **The first digits** are those of a quotient. -/
theorem take_decimalDigits
    {k width : Nat}
    (hk : k ≤ width)
    (n : Nat) :
    (decimalDigits width n).take k = decimalDigits k (n / 10 ^ (width - k)) := by
  induction width generalizing n with
  | zero =>
      obtain rfl : k = 0 := by omega
      simp [decimalDigits]
  | succ width ih =>
      rcases Nat.lt_or_ge width k with hall | hfew
      · obtain rfl : k = width + 1 := by omega
        simp [List.take_of_length_le]
      · have hexp : width + 1 - k = (width - k) + 1 := by omega
        rw [decimalDigits, List.take_append_of_le_length (by simpa using hfew), ih hfew, hexp,
          pow_succ', Nat.div_div_eq_div_mul]

/-- A number starts with the first digits of another one where the quotients are
the same. -/
theorem take_decimalDigits_isPrefix_iff
    {k width m n : Nat}
    (hk : k ≤ width)
    (hm : m < 10 ^ width)
    (hn : n < 10 ^ width)
    (rest : Bytes) :
    (decimalDigits width n).take k <+: decimalDigits width m ++ rest ↔
      m / 10 ^ (width - k) = n / 10 ^ (width - k) := by
  have hquot : ∀ v < 10 ^ width, v / 10 ^ (width - k) < 10 ^ k := by
    intro v hv
    refine Nat.div_lt_of_lt_mul ?_
    rwa [← pow_add, Nat.sub_add_cancel hk]
  have hlen : ((decimalDigits width n).take k).length = k := by simpa using hk
  rw [List.prefix_iff_eq_take, hlen, List.take_append_of_le_length (by simpa using hk),
    take_decimalDigits hk, take_decimalDigits hk, decimalDigits_inj (hquot n hn) (hquot m hm)]
  exact eq_comm

end Digits

namespace Ident

section Made

variable {t : Nat} {g : Bytes}

theorem lt_pow_of_le_maxTimestamp (ht : t ≤ maxTimestamp) : t < 10 ^ timestampLength := by
  simp only [maxTimestamp, timestampLength] at ht ⊢
  omega

theorem timestampDigits_eq_ok (ht : t ≤ maxTimestamp) :
    timestampDigits t = .ok (decimalDigits timestampLength t) := by
  simp [timestampDigits, Nat.not_lt.mpr ht]

/-- An identifier is made of the digits of its time and of its hash. -/
theorem make_eq_ok_iff {id : Ident} :
    make t g = .ok id ↔
      t ≤ maxTimestamp ∧ g.length = hashLength ∧
        id.bytes = decimalDigits timestampLength t ++ g := by
  rw [make]
  split
  · next hlen =>
      split
      · next hlate => simp [Nat.not_le.mpr hlate]
      · next hearly =>
          simp only [Except.ok.injEq, Nat.not_lt.mp hearly, hlen, true_and]
          exact ⟨fun heq => heq ▸ rfl, fun hbytes => Ident.ext hbytes.symm⟩
  · next hlen => simp [hlen]

theorem exists_make
    (ht : t ≤ maxTimestamp)
    (hg : g.length = hashLength) :
    ∃ id, make t g = .ok id := by
  have hlen : (decimalDigits timestampLength t ++ g).length = identLength := by
    simp [hg, timestampLength, hashLength, identLength]
  exact ⟨⟨_, hlen⟩, make_eq_ok_iff.mpr ⟨ht, hg, rfl⟩⟩

theorem timestampBytes_of_make {id : Ident} (h : make t g = .ok id) :
    id.timestampBytes = decimalDigits timestampLength t := by
  obtain ⟨_, _, hbytes⟩ := make_eq_ok_iff.mp h
  rw [timestampBytes, hbytes, List.take_left' (length_decimalDigits _ _)]

theorem hashBytes_of_make {id : Ident} (h : make t g = .ok id) : id.hashBytes = g := by
  obtain ⟨_, _, hbytes⟩ := make_eq_ok_iff.mp h
  rw [hashBytes, hbytes, List.drop_left' (length_decimalDigits _ _)]

/-- **The time of an identifier** is the one it was made of. -/
theorem timestamp?_of_make {id : Ident} (h : make t g = .ok id) : id.timestamp? = some t := by
  obtain ⟨ht, _, _⟩ := make_eq_ok_iff.mp h
  rw [timestamp?, timestampBytes_of_make h, readDigits_decimalDigits,
    Nat.mod_eq_of_lt (lt_pow_of_le_maxTimestamp ht)]

/-- **An identifier with a time** is made of that time and its hash. -/
theorem make_of_timestamp? {id : Ident} (h : id.timestamp? = some t) :
    make t id.hashBytes = .ok id := by
  have hlen : id.timestampBytes.length = timestampLength := by
    simp [timestampBytes, id.length_eq, timestampLength, identLength]
  obtain ⟨hwritten, hbound⟩ := decimalDigits_of_readDigits h
  rw [hlen] at hwritten hbound
  refine make_eq_ok_iff.mpr ⟨?_, ?_, ?_⟩
  · simp only [maxTimestamp, timestampLength] at hbound ⊢
    omega
  · simp [hashBytes, id.length_eq, timestampLength, hashLength, identLength]
  · rw [hwritten]
    exact (List.take_append_drop timestampLength id.bytes).symm

end Made
end Ident

/-- **Identifiers encode time faithfully.**  For any two times of at most ten digits
and any two hashes of twenty bytes there are identifiers.  They are ordered by time
and then by hash; each has its own time and hash; and one of them starts with the
first `k` digits of the other time exactly if both times fall into the same span of
`10 ^ (10 - k)` seconds.  Every identifier that has a time is the one made of this
time and its hash. -/
theorem identifiers_encode_time
    {t u : Nat}
    {g h : Bytes}
    (ht : t ≤ maxTimestamp)
    (hu : u ≤ maxTimestamp)
    (hg : g.length = hashLength)
    (hh : h.length = hashLength) :
    ∃ a b digits, Ident.make t g = .ok a ∧ Ident.make u h = .ok b ∧
      timestampDigits u = .ok digits ∧
      (compare a.bytes b.bytes = .lt ↔ t < u ∨ t = u ∧ compare g h = .lt) ∧
      a.timestamp? = some t ∧
      a.hashBytes = g ∧
      (∀ k ≤ timestampLength, digits.take k <+: a.bytes ↔
        t / 10 ^ (timestampLength - k) = u / 10 ^ (timestampLength - k)) ∧
      ∀ (id : Ident) (v : Nat), id.timestamp? = some v → Ident.make v id.hashBytes = .ok id := by
  have hlt := Ident.lt_pow_of_le_maxTimestamp ht
  have hlu := Ident.lt_pow_of_le_maxTimestamp hu
  obtain ⟨a, ha⟩ := Ident.exists_make ht hg
  obtain ⟨b, hb⟩ := Ident.exists_make hu hh
  obtain ⟨_, _, habytes⟩ := Ident.make_eq_ok_iff.mp ha
  obtain ⟨_, _, hbbytes⟩ := Ident.make_eq_ok_iff.mp hb
  refine ⟨a, b, decimalDigits timestampLength u, ha, hb, Ident.timestampDigits_eq_ok hu, ?_,
    Ident.timestamp?_of_make ha, Ident.hashBytes_of_make ha, ?_,
    fun _ _ => Ident.make_of_timestamp?⟩
  · rw [habytes, hbbytes, compare_decimalDigits_append hlt hlu, Ordering.then_eq_lt,
      Nat.compare_eq_lt, Nat.compare_eq_eq]
  · intro k hk
    rw [habytes]
    exact take_decimalDigits_isPrefix_iff hk hlt hlu g

/-- The last second of a century of seconds and the first one of the next, the hashes
in the other order. -/
theorem identifiers_encode_time_at_carry :
    (99 : Nat) ≤ maxTimestamp ∧ (100 : Nat) ≤ maxTimestamp ∧
      (List.replicate 20 (255 : UInt8)).length = hashLength ∧
      (List.replicate 20 (0 : UInt8)).length = hashLength ∧
      ∃ a b digits, Ident.make 99 (List.replicate 20 255) = .ok a ∧
        Ident.make 100 (List.replicate 20 0) = .ok b ∧ timestampDigits 100 = .ok digits ∧
        compare a.bytes b.bytes = .lt ∧ digits.take 7 <+: a.bytes ∧ ¬digits.take 8 <+: a.bytes := by
  obtain ⟨a, b, digits, ha, hb, hdigits, horder, _, _, hspan, _⟩ :=
    identifiers_encode_time (t := 99) (u := 100) (g := List.replicate 20 255)
      (h := List.replicate 20 0) (by decide) (by decide) (by decide) (by decide)
  refine ⟨by decide, by decide, by decide, by decide, a, b, digits, ha, hb, hdigits, ?_, ?_, ?_⟩
  · exact horder.mpr (Or.inl (by decide))
  · exact (hspan 7 (by decide)).mpr (by decide)
  · exact fun hpre => absurd ((hspan 8 (by decide)).mp hpre) (by decide)

end MerkleSync
