import Mathlib.Data.Finset.Card
import MerkleSync.Engine.Integrity
import MerkleSync.Proofs.History
import MerkleSync.Proofs.ScanMeaning

/-!
# What the check of a stored trie means

The check looks at one record at a time and compares it with its neighbours.
Together the comparisons say that the records are those of the trie of one set:
the identifiers are read off the leaves; every node above a leaf is listed, so it
is there; and from the leaves up each record is the canonical one of its path.

**Results.**
* `checkNode_eq_ok_iff`, `checkNodes_eq_ok_iff`: what the check compares.
* `agrees_of_tabulates`, `tabulates_of_passes`: records that pass are those of the
  trie of a set, and conversely.
* `verify_of_decodes`, `decodes_of_verify`: the check of a store.
* `verify_iff_canonical`: when the check of any store by any engine passes, and
  what it counts.
-/

namespace MerkleSync

/-- A table of the records of the trie of a set. -/
def Tabulates (records : Table Record) (held : Finset Ident) : Prop :=
  ∀ path, records[path]? = if Occurs held path then some (canonical held path) else none

/-- The records stored under the namespace are those of the trie of `held`. -/
def Store.Decodes (s : Store) (ns : UInt8) (held : Finset Ident) : Prop :=
  ∀ path, s.decoded ns path = if Occurs held path then some (canonical held path) else none

section Shapes

variable {r : Record} {depth : Nat}

theorem le_of_shapeFault (h : r.shapeFault depth = none) : depth ≤ identLength := by
  rw [Record.shapeFault] at h
  split at h
  · cases h
  · next hle => exact Nat.le_of_not_lt hle

/-- A record of the shape of a leaf is that of its key. -/
theorem leaf_of_shapeFault (h : r.shapeFault identLength = none) : ∃ id, r = Record.leaf id := by
  obtain ⟨digest, count, key, children⟩ := r
  rw [Record.shapeFault, if_neg (Nat.lt_irrefl _), if_pos rfl] at h
  cases key with
  | none => cases h
  | some id =>
      dsimp only at h
      split at h
      · cases h
      · next hchildren =>
          split at h
          · cases h
          · next hcount =>
              split at h
              · cases h
              · next hdigest =>
                  have hempty : children = ByteMap.empty := by
                    rw [Bool.not_eq_true', Bool.not_eq_false] at hchildren
                    exact ByteMap.ext (List.isEmpty_iff.mp hchildren)
                  refine ⟨id, ?_⟩
                  rw [Record.leaf, hempty, not_not.mp hcount, not_not.mp hdigest]

/-- A record of the shape of an inner node has children, whose counts it adds. -/
theorem inner_of_shapeFault (hdepth : depth < identLength) (h : r.shapeFault depth = none) :
    r.key = none ∧ r.children.isEmpty = false ∧ childrenCount r.children = r.itemCount := by
  rw [Record.shapeFault, if_neg (by omega), if_neg (by omega)] at h
  split at h
  · cases h
  · next hkey =>
      split at h
      · cases h
      · next hchildren =>
          split at h
          · cases h
          · next hcount =>
              exact ⟨Option.not_isSome_iff_eq_none.mp hkey, by simpa using hchildren,
                not_not.mp hcount⟩

end Shapes

namespace Integrity

section Comparisons

variable {records : Table Record} {path : Bytes} {r : Record}

/-- What the check asks of a record and its neighbours. -/
structure Agrees (records : Table Record) (path : Bytes) (r : Record) : Prop where
  listed : ∀ q b, path = q ++ [b] →
    ∃ parent, records[q]? = some parent ∧ parent.children.contains b = true
  leaf : path.length = identLength → r.key.map (·.bytes) = some path
  digest : path.length ≠ identLength → childrenDigest r.children = r.digest
  children : path.length ≠ identLength → ∀ b summary, r.children.get? b = some summary →
    ∃ next, records[path ++ [b]]? = some next ∧ next.summary = summary

theorem isListed_iff : isListed records path = true ↔ ∀ q b, path = q ++ [b] →
    ∃ parent, records[q]? = some parent ∧ parent.children.contains b = true := by
  induction path using List.reverseRecOn with
  | nil => exact iff_of_true rfl fun q b h => absurd h (by simp)
  | append_singleton path c _ =>
      have hlisted : isListed records (path ++ [c]) =
          records[path]?.any fun parent => parent.children.contains c := by
        rw [isListed, List.getLast?_concat, List.dropLast_concat]
        cases records[path]? with
        | none => rfl
        | some parent => rfl
      rw [hlisted]
      constructor
      · intro h q b heq
        obtain ⟨rfl, hb⟩ := List.append_inj' heq rfl
        obtain rfl := List.singleton_inj.mp hb
        cases hget : records[path]? with
        | none =>
            rw [hget] at h
            cases h
        | some parent =>
            rw [hget] at h
            exact ⟨parent, rfl, h⟩
      · intro h
        obtain ⟨parent, hget, hcontains⟩ := h path c rfl
        rw [hget]
        exact hcontains

theorem checkChildren_eq_ok_iff :
    ∀ children : List (UInt8 × Summary), checkChildren records path children = .ok () ↔
      ∀ child ∈ children, ∃ next, records[path ++ [child.1]]? = some next ∧ next.summary = child.2
  | [] => iff_of_true rfl fun child hchild => absurd hchild List.not_mem_nil
  | (b, summary) :: rest => by
      rw [checkChildren, List.forall_mem_cons]
      cases hget : records[path ++ [b]]? with
      | none => exact iff_of_false nofun (by rintro ⟨⟨_, ⟨⟩, _⟩, _⟩)
      | some next =>
          dsimp only
          split
          · next hsame =>
              rw [checkChildren_eq_ok_iff rest]
              exact (and_iff_right ⟨next, rfl, hsame⟩).symm
          · next hdiffers =>
              refine iff_of_false nofun ?_
              rintro ⟨⟨other, hother, hsame⟩, _⟩
              exact hdiffers (Option.some.inj hother ▸ hsame)

/-- **The check of one record.** -/
theorem checkNode_eq_ok_iff : checkNode records path r = .ok () ↔ Agrees records path r := by
  rw [checkNode]
  cases hlisted : isListed records path with
  | false =>
      refine iff_of_false nofun fun h => ?_
      rw [isListed_iff.mpr h.listed] at hlisted
      cases hlisted
  | true =>
      rw [isListed_iff] at hlisted
      simp only [Bool.not_true, Bool.false_eq_true, if_false]
      by_cases hlen : path.length = identLength
      · rw [if_pos hlen]
        constructor
        · intro h
          split at h
          · next hkey => exact ⟨hlisted, fun _ => hkey, absurd hlen, absurd hlen⟩
          · cases h
        · exact fun h => if_pos (h.leaf hlen)
      · rw [if_neg hlen]
        by_cases hdigest : childrenDigest r.children = r.digest
        · rw [if_neg (not_not_intro hdigest), checkChildren_eq_ok_iff]
          constructor
          · intro h
            refine ⟨hlisted, fun hfull => absurd hfull hlen, fun _ => hdigest, ?_⟩
            exact fun _ b summary hget => h (b, summary) (ByteMap.get?_eq_some_iff.mp hget)
          · intro h child hchild
            exact h.children hlen child.1 child.2 (ByteMap.get?_eq_some_iff.mpr hchild)
        · rw [if_pos hdigest]
          exact iff_of_false nofun fun h => hdigest (h.digest hlen)

/-- **The check of all records** is that of each, and counts them. -/
theorem checkNodes_eq_ok_iff {total : IntegrityReport} :
    ∀ {nodes : List (Bytes × Record)} {report : IntegrityReport},
      checkNodes records report nodes = .ok total ↔
        (∀ node ∈ nodes, Agrees records node.1 node.2) ∧
          total = ⟨report.nodes + nodes.length,
            report.leaves + nodes.countP fun node => node.1.length = identLength⟩
  | [], report => by
      rw [checkNodes, Except.ok.injEq]
      exact ⟨fun h => ⟨fun node hnode => absurd hnode List.not_mem_nil, h.symm⟩,
        fun h => h.2.symm⟩
  | (path, r) :: rest, report => by
      rw [checkNodes, List.forall_mem_cons, ← checkNode_eq_ok_iff]
      cases hnode : checkNode records path r with
      | error cause => exact iff_of_false nofun fun h => nomatch h.1.1
      | ok =>
          dsimp only
          have hleaves : ∀ n,
              (if path.length = identLength then report.leaves + 1 else report.leaves) + n =
                report.leaves + (n + if decide (path.length = identLength) = true then 1 else 0) := by
            intro n
            by_cases hlen : path.length = identLength
            · rw [if_pos hlen, if_pos (decide_eq_true hlen)]
              omega
            · rw [if_neg hlen, if_neg (mt of_decide_eq_true hlen)]
              omega
          have hnodes : report.nodes + 1 + rest.length = report.nodes + (rest.length + 1) := by
            omega
          rw [checkNodes_eq_ok_iff, List.countP_cons, List.length_cons, hleaves, hnodes]
          exact and_congr_left' (and_iff_right rfl).symm

end Comparisons

section Soundness

variable {records : Table Record} {held : Finset Ident} {path : Bytes}

/-- A table of the records of the trie of a set passes. -/
theorem agrees_of_tabulates (h : Tabulates records held) (hocc : Occurs held path) :
    Agrees records path (canonical held path) := by
  have hlt : path.length ≠ identLength → path.length < identLength :=
    Nat.lt_of_le_of_ne hocc.length_le
  constructor
  · rintro q b rfl
    have hparent : Occurs held q := hocc.of_isPrefix (List.prefix_append q [b])
    refine ⟨canonical held q, by rw [h q, if_pos hparent], ?_⟩
    rw [contains_canonical_children]
    exact decide_eq_true hocc
  · intro hlen
    obtain ⟨id, hid, rfl⟩ := hocc.exists_mem hlen.ge
    rw [canonical_of_mem hid]
    rfl
  · intro hlen
    rw [canonical_of_lt held (hlt hlen)]
    rfl
  · intro _ b summary hget
    rw [get?_canonical_children] at hget
    split at hget
    · next hnext =>
        refine ⟨canonical held (path ++ [b]), by rw [h _, if_pos hnext], ?_⟩
        exact Option.some.inj hget
    · cases hget

/-- Every record has the shape of its depth and agrees with its neighbours. -/
structure Passes (records : Table Record) : Prop where
  shape : ∀ (path : Bytes) (r : Record), records[path]? = some r → r.shapeFault path.length = none
  agrees : ∀ (path : Bytes) (r : Record), records[path]? = some r → Agrees records path r

/-- Above a record there are records all the way to the root. -/
theorem Passes.above (h : Passes records) {q : Bytes} (hpre : q <+: path)
    (hpath : ∃ r, records[path]? = some r) : ∃ r, records[q]? = some r := by
  obtain ⟨rest, rfl⟩ := hpre
  induction rest using List.reverseRecOn with
  | nil => rwa [List.append_nil] at hpath
  | append_singleton rest b ih =>
      rw [← List.append_assoc] at hpath
      obtain ⟨r, hr⟩ := hpath
      obtain ⟨parent, hparent, _⟩ := (h.agrees _ r hr).listed (q ++ rest) b rfl
      exact ih ⟨parent, hparent⟩

/-- A leaf record is that of its path. -/
theorem Passes.leaf_eq (h : Passes records) {r : Record} (hr : records[path]? = some r)
    (hlen : path.length = identLength) : ∃ id : Ident, id.bytes = path ∧ r = Record.leaf id := by
  have hshape := h.shape path r hr
  rw [hlen] at hshape
  obtain ⟨id, rfl⟩ := leaf_of_shapeFault hshape
  exact ⟨id, Option.some.inj ((h.agrees path _ hr).leaf hlen), rfl⟩

/-- A record whose children's records are canonical is canonical. -/
theorem Passes.inner_eq (h : Passes records) (hlen : path.length < identLength)
    (habove : ∀ q, Occurs held q → ∃ r, records[q]? = some r)
    (hnext : ∀ b next, records[path ++ [b]]? = some next →
      Occurs held (path ++ [b]) ∧ next = canonical held (path ++ [b]))
    {r : Record} (hr : records[path]? = some r) : Occurs held path ∧ r = canonical held path := by
  have hne : path.length ≠ identLength := Nat.ne_of_lt hlen
  obtain ⟨hkey, hsome, hcount⟩ := inner_of_shapeFault hlen (h.shape path r hr)
  have hagrees := h.agrees path r hr
  have hchild : ∀ b summary, r.children.get? b = some summary →
      Occurs held (path ++ [b]) ∧ summary = (canonical held (path ++ [b])).summary := by
    intro b summary hget
    obtain ⟨next, hrecord, rfl⟩ := hagrees.children hne b summary hget
    obtain ⟨hocc, heq⟩ := hnext b next hrecord
    exact ⟨hocc, congrArg Record.summary heq⟩
  have hchildren : r.children = canonicalChildren held path := by
    refine ByteMap.ext_get? fun b => ?_
    rw [get?_canonicalChildren]
    cases hget : r.children.get? b with
    | some summary =>
        obtain ⟨hocc, heq⟩ := hchild b summary hget
        rw [if_pos hocc, heq]
    | none =>
        -- the record of a child that occurs is there, and is listed by this one
        refine (if_neg fun hocc => ?_).symm
        obtain ⟨next, hrecord⟩ := habove _ hocc
        obtain ⟨parent, hparent, hcontains⟩ := (h.agrees _ next hrecord).listed path b rfl
        rw [hr] at hparent
        obtain rfl := Option.some.inj hparent
        obtain ⟨summary, hsummary⟩ := ByteMap.contains_iff.mp hcontains
        rw [hget] at hsummary
        cases hsummary
  have hr' : r = Record.ofChildren r.children := by
    have hdigest := hagrees.digest hne
    obtain ⟨digest, count, key, children⟩ := r
    rw [Record.ofChildren, hdigest, hcount, ← hkey]
  constructor
  · obtain ⟨b, summary, hget⟩ : ∃ b summary, r.children.get? b = some summary := by
      by_contra hnone
      refine Bool.eq_false_iff.mp hsome (ByteMap.isEmpty_iff.mpr fun b => ?_)
      exact Option.eq_none_iff_forall_ne_some.mpr fun summary hget => hnone ⟨b, summary, hget⟩
    exact (hchild b summary hget).1.of_isPrefix (List.prefix_append path [b])
  · rw [hr', hchildren, canonical_of_lt held hlen]

/-- **Records that pass are those of the set of the leaves**, from the leaves
up. -/
theorem tabulates_of_passes (h : Passes records)
    (hheld : ∀ id : Ident, id ∈ held ↔ ∃ r, records[id.bytes]? = some r) :
    Tabulates records held := by
  have habove : ∀ path, Occurs held path → ∃ r, records[path]? = some r := by
    rintro path ⟨id, hid, hpre⟩
    exact h.above hpre ((hheld id).mp hid)
  have hcanonical : ∀ path r, records[path]? = some r →
      Occurs held path ∧ r = canonical held path := by
    intro path
    induction path using path_induction with
    | leaf path hlen =>
        intro r hr
        have hfull : path.length = identLength :=
          Nat.le_antisymm (le_of_shapeFault (h.shape path r hr)) hlen
        obtain ⟨id, rfl, rfl⟩ := h.leaf_eq hr hfull
        have hid : id ∈ held := (hheld id).mpr ⟨_, hr⟩
        exact ⟨occurs_of_mem hid, (canonical_of_mem hid).symm⟩
    | node path hlen ih => exact fun r hr => h.inner_eq hlen habove ih hr
  intro path
  by_cases hocc : Occurs held path
  · obtain ⟨r, hr⟩ := habove path hocc
    rw [if_pos hocc, hr, (hcanonical path r hr).2]
  · rw [if_neg hocc]
    exact Option.eq_none_iff_forall_ne_some.mpr fun r hr => hocc (hcanonical path r hr).1

/-- The comparison of the roots, once the records are those of a set. -/
theorem checkRoot_eq_ok_iff {root : Record} (h : Tabulates records held) :
    checkRoot root records = .ok () ↔ root.summary = (canonical held []).summary := by
  rw [checkRoot, h []]
  by_cases hocc : Occurs held []
  · rw [if_pos hocc]
    dsimp only
    by_cases hsame : (canonical held []).summary = root.summary
    · rw [if_neg (not_not_intro hsame)]
      exact iff_of_true rfl hsame.symm
    · rw [if_pos hsame]
      exact iff_of_false nofun fun heq => hsame heq.symm
  · have hempty : records.isEmpty = true := by
      refine Std.TreeMap.isEmpty_iff_forall_not_mem.mpr fun path hpath => ?_
      rw [Std.TreeMap.mem_iff_isSome_getElem?, h path] at hpath
      rw [if_neg fun hlong => hocc (hlong.of_isPrefix List.nil_prefix)] at hpath
      cases hpath
    obtain ⟨digest, count, key, children⟩ := root
    rw [if_neg hocc, canonical_of_not_occurs hocc, hempty]
    simp [Digest.isEmpty, Record.summary, Record.empty]

end Soundness
end Integrity

section Stores

variable {e : Engine} {s : Store} {ns : UInt8} {held : Finset Ident}
  {nodes : List (Bytes × Record)} {report : IntegrityReport}

theorem verify_eq_ok_iff :
    e.verify s = .ok report ↔ ∃ nodes, s.scanNodes e.config.ns [] = .ok nodes ∧
      Integrity.checkRoot e.view.root (Std.TreeMap.ofList nodes) = .ok () ∧
      Integrity.checkNodes (Std.TreeMap.ofList nodes) ⟨0, 0⟩ nodes = .ok report := by
  rw [Engine.verify]
  cases s.scanNodes e.config.ns [] with
  | error cause => exact iff_of_false nofun fun h => nomatch h.choose_spec.1
  | ok nodes =>
      dsimp only
      cases hroot : Integrity.checkRoot e.view.root (Std.TreeMap.ofList nodes) with
      | error cause =>
          refine iff_of_false nofun ?_
          rintro ⟨other, hother, hok, _⟩
          rw [← Except.ok.inj hother, hroot] at hok
          cases hok
      | ok =>
          constructor
          · exact fun h => ⟨nodes, rfl, hroot, h⟩
          · rintro ⟨other, hother, _, h⟩
            rwa [Except.ok.inj hother]

/-- What was read is a table of the trie of a set if that is what is stored. -/
theorem Scanned.tabulates_iff (h : Scanned s ns nodes) :
    Tabulates (Std.TreeMap.ofList nodes) held ↔ s.Decodes ns held := by
  have hsame : ∀ path, (Std.TreeMap.ofList nodes : Table Record)[path]? = s.decoded ns path :=
    fun path => Option.ext fun r => h.getElem?_ofList.trans h.mem_iff_decoded
  exact forall_congr' fun path => by rw [hsame]

/-- The leaves that were read are as many as the set has members. -/
theorem Scanned.countP_leaves (h : Scanned s ns nodes) (hdecodes : s.Decodes ns held) :
    nodes.countP (fun node => node.1.length = identLength) = held.card := by
  let leaves := (nodes.filter fun node => node.1.length = identLength).map (·.1)
  have hnodup : leaves.Nodup := List.pairwise_map.mpr (h.distinct.filter _)
  have hmem : leaves.toFinset = held.image Ident.bytes := by
    ext path
    rw [List.mem_toFinset, Finset.mem_image]
    constructor
    · intro hpath
      obtain ⟨⟨q, r⟩, hnode, rfl⟩ := List.mem_map.mp hpath
      obtain ⟨hnode, hlen⟩ := List.mem_filter.mp hnode
      rw [h.mem_iff_decoded, hdecodes q] at hnode
      split at hnode
      · next hocc => exact hocc.exists_mem (of_decide_eq_true hlen).ge
      · cases hnode
    · rintro ⟨id, hid, rfl⟩
      have hnode : (id.bytes, canonical held id.bytes) ∈ nodes := by
        rw [h.mem_iff_decoded, hdecodes, if_pos (occurs_of_mem hid)]
      exact List.mem_map_of_mem (List.mem_filter.mpr ⟨hnode, decide_eq_true id.length_eq⟩)
  have hinj : Function.Injective Ident.bytes := fun _ _ => Ident.ext
  calc nodes.countP (fun node => node.1.length = identLength)
      = leaves.length := by rw [List.countP_eq_length_filter, List.length_map]
    _ = leaves.toFinset.card := (List.toFinset_card_of_nodup hnodup).symm
    _ = held.card := by rw [hmem, Finset.card_image_of_injective held hinj]

/-- **A store of the records of a set passes.** -/
theorem verify_of_decodes (hreads : s.readsFail = false) (hreadable : s.Readable e.config.ns)
    (hdecodes : s.Decodes e.config.ns held)
    (hroot : e.view.root.summary = (canonical held []).summary) :
    ∃ count, s.countNodes e.config.ns = .ok count ∧ e.verify s = .ok ⟨count, held.card⟩ := by
  have hstored : ∀ path value, s.entries[nodeKey e.config.ns path]? = some value →
      Record.decode value = .ok (canonical held path) ∧
        (canonical held path).shapeFault path.length = none := by
    intro path value hget
    obtain ⟨r, hvalue⟩ := hreadable path value hget
    have hdecoded := hdecodes path
    rw [Store.decoded, hget, Option.bind_some, hvalue] at hdecoded
    split at hdecoded
    · next hocc =>
        obtain rfl := Option.some.inj hdecoded
        exact ⟨hvalue, checkShape_eq_ok_iff.mp (checkShape_canonical hocc)⟩
    · cases hdecoded
  obtain ⟨nodes, hscan⟩ := exists_scanNodes hreads hstored
  have hscanned := scanned_of_scanNodes hscan
  have htable := hscanned.tabulates_iff.mpr hdecodes
  refine ⟨nodes.length, hscanned.count, verify_eq_ok_iff.mpr ⟨nodes, hscan, ?_, ?_⟩⟩
  · exact (Integrity.checkRoot_eq_ok_iff htable).mpr hroot
  · refine Integrity.checkNodes_eq_ok_iff.mpr ⟨fun node hnode => ?_, ?_⟩
    · have hget := htable node.1
      rw [hscanned.getElem?_ofList.mpr hnode] at hget
      split at hget
      · next hocc =>
          rw [Option.some.inj hget]
          exact Integrity.agrees_of_tabulates htable hocc
      · cases hget
    · rw [Nat.zero_add, Nat.zero_add, hscanned.countP_leaves hdecodes]

/-- Among records that pass, those with a key are those at the path of an
identifier. -/
theorem Scanned.mem_keys (h : Scanned s ns nodes)
    (hpasses : Integrity.Passes (Std.TreeMap.ofList nodes)) {id : Ident} :
    id ∈ nodes.filterMap (fun node => node.2.key) ↔
      ∃ r, (Std.TreeMap.ofList nodes : Table Record)[id.bytes]? = some r := by
  rw [List.mem_filterMap]
  constructor
  · rintro ⟨⟨path, r⟩, hnode, hkey⟩
    have hget := h.getElem?_ofList.mpr hnode
    have hshape := hpasses.shape path r hget
    by_cases hlen : path.length < identLength
    · rw [(inner_of_shapeFault hlen hshape).1] at hkey
      cases hkey
    · have hfull := Nat.le_antisymm (le_of_shapeFault hshape) (Nat.le_of_not_lt hlen)
      obtain ⟨other, rfl, rfl⟩ := hpasses.leaf_eq hget hfull
      obtain rfl := Option.some.inj hkey
      exact ⟨_, hget⟩
  · rintro ⟨r, hget⟩
    obtain ⟨other, hbytes, rfl⟩ := hpasses.leaf_eq hget id.length_eq
    obtain rfl := Ident.ext hbytes
    exact ⟨_, h.getElem?_ofList.mp hget, rfl⟩

/-- **A store that passes** holds the records of a set: of the keys of the
leaves. -/
theorem decodes_of_verify (h : e.verify s = .ok report) :
    s.readsFail = false ∧ s.Readable e.config.ns ∧ ∃ held, s.Decodes e.config.ns held ∧
      e.view.root.summary = (canonical held []).summary ∧ report.leaves = held.card ∧
      s.countNodes e.config.ns = .ok report.nodes := by
  obtain ⟨nodes, hscan, hroot, hnodes⟩ := verify_eq_ok_iff.mp h
  have hscanned := scanned_of_scanNodes hscan
  obtain ⟨hagrees, rfl⟩ := Integrity.checkNodes_eq_ok_iff.mp hnodes
  have hpasses : Integrity.Passes (Std.TreeMap.ofList nodes) := by
    constructor
    · intro path r hget
      obtain ⟨_, _, _, hshape⟩ := (hscanned.mem path r).mp (hscanned.getElem?_ofList.mp hget)
      exact hshape
    · exact fun path r hget => hagrees (path, r) (hscanned.getElem?_ofList.mp hget)
  have htable : Tabulates (Std.TreeMap.ofList nodes)
      (nodes.filterMap fun node => node.2.key).toFinset :=
    Integrity.tabulates_of_passes hpasses fun id =>
      List.mem_toFinset.trans (hscanned.mem_keys hpasses)
  have hdecodes := hscanned.tabulates_iff.mp htable
  refine ⟨hscanned.reads, fun path value hget => ?_, _, hdecodes,
    (Integrity.checkRoot_eq_ok_iff htable).mp hroot, ?_, ?_⟩
  · obtain ⟨r, hnode⟩ := hscanned.readable path value hget
    obtain ⟨value', hget', hvalue, _⟩ := (hscanned.mem path r).mp hnode
    rw [hget] at hget'
    exact ⟨r, Option.some.inj hget' ▸ hvalue⟩
  · exact (Nat.zero_add _).trans (hscanned.countP_leaves hdecodes)
  · exact hscanned.count.trans (congrArg Except.ok (Nat.zero_add _).symm)

/-- The records of a set are stored in their canonical form. -/
theorem Store.Holds.decodes (h : s.Holds ns held) : s.Readable ns ∧ s.Decodes ns held := by
  constructor
  · intro path value hget
    rw [h.records] at hget
    split at hget
    · rw [← Option.some.inj hget]
      exact ⟨_, Record.decode_encode _⟩
    · cases hget
  · intro path
    rw [Store.decoded, h.records]
    split
    · rw [Option.bind_some, Record.decode_encode]
      rfl
    · rfl

/-- **The check of what a coherent engine has stored passes.** -/
theorem Engine.verify_of_coherent (h : e.Coherent s held) :
    ∃ report, e.verify s = .ok report := by
  obtain ⟨hreadable, hdecodes⟩ := h.store.decodes
  obtain ⟨count, _, hverify⟩ := verify_of_decodes h.store.reads hreadable hdecodes
    (congrArg Record.summary h.view.root_eq)
  exact ⟨_, hverify⟩

end Stores

section Counts

variable {held : Finset Ident}

/-- The sum of the counts of some children, as a number. -/
def childrenTotal (children : ByteMap Summary) : Nat :=
  (children.values.map fun child => child.itemCount.toNat).sum

theorem childrenTotal_tabulate (f : UInt8 → Option Summary) :
    childrenTotal (ByteMap.tabulate f) =
      (ByteMap.bytes.map fun b => (f b).elim 0 fun child => child.itemCount.toNat).sum := by
  rw [childrenTotal, ByteMap.values, ByteMap.tabulate]
  dsimp only
  induction ByteMap.bytes with
  | nil => rfl
  | cons b rest ih =>
      cases hb : f b with
      | none => simpa [hb] using ih
      | some child => simpa [hb] using ih

/-- The total of the children of a node, if their counts are exact. -/
theorem childrenTotal_canonical {path : Bytes} (hlen : path.length < identLength)
    (h : ∀ b, (canonical held (path ++ [b])).itemCount.toNat = (under held (path ++ [b])).card) :
    childrenTotal (canonical held path).children = (under held path).card := by
  rw [canonical_of_lt held hlen, ← card_under held hlen]
  refine (childrenTotal_tabulate _).trans (congrArg List.sum (List.map_congr_left fun b _ => ?_))
  by_cases hocc : Occurs held (path ++ [b])
  · rw [if_pos hocc, ← h b]
    rfl
  · rw [if_neg hocc, Finset.not_nonempty_iff_eq_empty.mp (mt occurs_iff.mpr hocc)]
    rfl

/-- **Counts are exact** where no total exceeds a word. -/
theorem itemCount_exact
    (h : ∀ path, Occurs held path → childrenTotal (canonical held path).children < 2 ^ 64)
    (path : Bytes) : (canonical held path).itemCount.toNat = (under held path).card := by
  have hexact : ∀ path, (under held path).card < 2 ^ 64 →
      (canonical held path).itemCount.toNat = (under held path).card := by
    intro path hcard
    rw [canonical_itemCount]
    exact UInt64.toNat_ofNat_of_lt' hcard
  induction path using path_induction with
  | leaf path hlen =>
      refine hexact path (lt_of_le_of_lt (Finset.card_le_one.mpr fun id hid other hother => ?_)
        (by decide : 1 < 2 ^ 64))
      have hpath := (mem_under.mp hid).2.eq_of_length_le (id.length_eq.le.trans hlen)
      have hpath' := (mem_under.mp hother).2.eq_of_length_le (other.length_eq.le.trans hlen)
      exact Ident.ext (hpath.symm.trans hpath')
  | node path hlen ih =>
      refine hexact path ?_
      by_cases hocc : Occurs held path
      · rw [← childrenTotal_canonical hlen ih]
        exact h path hocc
      · rw [Finset.not_nonempty_iff_eq_empty.mp (mt occurs_iff.mpr hocc)]
        decide

end Counts

/-- **The check accepts exactly the stored tries of sets.**  The store and the root
in memory are arbitrary.  The check passes if and only if the store can be read,
every value under the namespace is a record, and there is a finite set such that
the records are the canonical ones of the beginnings of its members, one for
each, and the root in memory has the digest and the count of the canonical root
(of the record that holds nothing, if the set is empty).  The report then counts
the records and the members of the set.  Where the counts that a record has of
its children do not exceed a word together, all these counts are exact. -/
theorem verify_iff_canonical (e : Engine) (s : Store) :
    (∀ report, e.verify s = .ok report ↔
      s.readsFail = false ∧
        (∀ path value, s.entries[nodeKey e.config.ns path]? = some value →
          ∃ r, Record.decode value = .ok r) ∧
        ∃ held : Finset Ident,
          (∀ path, s.decoded e.config.ns path =
            if ∃ id ∈ held, path <+: id.bytes then some (canonical held path) else none) ∧
          e.view.root.digest = (canonical held []).digest ∧
          e.view.root.itemCount = (canonical held []).itemCount ∧
          report.leaves = held.card ∧ s.countNodes e.config.ns = .ok report.nodes) ∧
      ((∀ path r, s.decoded e.config.ns path = some r →
          (r.children.values.map fun child => child.itemCount.toNat).sum < 2 ^ 64) →
        ∀ held : Finset Ident,
          (∀ path, s.decoded e.config.ns path =
            if ∃ id ∈ held, path <+: id.bytes then some (canonical held path) else none) →
          (∀ path, (canonical held path).itemCount.toNat = (under held path).card) ∧
            (canonical held []).itemCount.toNat = held.card) := by
  constructor
  · intro report
    constructor
    · intro h
      obtain ⟨hreads, hreadable, held, hdecodes, hroot, hleaves, hnodes⟩ := decodes_of_verify h
      obtain ⟨hdigest, hcount⟩ := Summary.mk.inj hroot
      exact ⟨hreads, hreadable, held, hdecodes, hdigest, hcount, hleaves, hnodes⟩
    · rintro ⟨hreads, hreadable, held, hdecodes, hdigest, hcount, hleaves, hnodes⟩
      have hroot : e.view.root.summary = (canonical held []).summary :=
        congrArg₂ Summary.mk hdigest hcount
      obtain ⟨count, hcount, hverify⟩ := verify_of_decodes hreads hreadable hdecodes hroot
      rw [hnodes] at hcount
      rw [hverify, ← Except.ok.inj hcount, ← hleaves]
  · intro htotals held hdecodes
    have hexact : ∀ path, (canonical held path).itemCount.toNat = (under held path).card :=
      itemCount_exact fun path hocc => htotals path _ ((hdecodes path).trans (if_pos hocc))
    refine ⟨hexact, ?_⟩
    rw [hexact, under_nil]

/-- After one insertion the check passes, and all counts are exact. -/
theorem verify_iff_canonical_one_identifier :
    let sys := ((System.blank {}).run (reliably [.insert (constantIdent 0)])).2
    (∃ count, sys.engine.verify sys.store = .ok ⟨count, 1⟩) ∧
      (∀ path r, sys.store.decoded 8 path = some r →
        (r.children.values.map fun child => child.itemCount.toNat).sum < 2 ^ 64) ∧
      ∀ path, (canonical {constantIdent 0} path).itemCount.toNat =
        (under {constantIdent 0} path).card := by
  intro sys
  have hopened : OpenedBlank {} (System.blank {}) := openedBlank_blank {}
  have hcoherent : sys.Coherent {constantIdent 0} :=
    System.reliably_coherent (coherent_of_opened hopened).1 [.insert (constantIdent 0)]
  have hns : sys.engine.config.ns = 8 :=
    (run_of_opened hopened (reliably [.insert (constantIdent 0)])).2
  obtain ⟨hverify, hcounts⟩ := verify_iff_canonical sys.engine sys.store
  obtain ⟨hreadable, hdecodes⟩ := hcoherent.store.decodes
  have hcard : ∀ path, (under {constantIdent 0} path).card < 2 ^ 64 := fun path =>
    lt_of_le_of_lt (Finset.card_filter_le _ _) (by decide)
  have htotals : ∀ path r, sys.store.decoded sys.engine.config.ns path = some r →
      (r.children.values.map fun child => child.itemCount.toNat).sum < 2 ^ 64 := by
    intro path r hdecoded
    rw [hdecodes path] at hdecoded
    split at hdecoded
    · next hocc =>
        rw [← Option.some.inj hdecoded]
        by_cases hlen : path.length < identLength
        · have hchildren : childrenTotal (canonical {constantIdent 0} path).children =
              (under {constantIdent 0} path).card := by
            refine childrenTotal_canonical hlen fun b => ?_
            rw [canonical_itemCount]
            exact UInt64.toNat_ofNat_of_lt' (hcard _)
          rw [childrenTotal] at hchildren
          rw [hchildren]
          exact hcard path
        · obtain ⟨id, hid, rfl⟩ := hocc.exists_mem (Nat.le_of_not_lt hlen)
          rw [canonical_of_mem hid]
          exact Nat.two_pow_pos 64
    · cases hdecoded
  have hreads : sys.store.scan [sys.engine.config.ns] =
      .ok (sys.store.entries.under [sys.engine.config.ns]) := by
    rw [Store.scan, hcoherent.store.reads]
    rfl
  refine ⟨⟨(sys.store.entries.under [sys.engine.config.ns]).length, (hverify _).mpr
    ⟨hcoherent.store.reads, hreadable, {constantIdent 0}, hdecodes, ?_, ?_, rfl, ?_⟩⟩,
    hns ▸ htotals, (hcounts htotals {constantIdent 0} hdecodes).1⟩
  · rw [hcoherent.view.root_eq]
  · rw [hcoherent.view.root_eq]
  · rw [Store.countNodes, hreads]
    rfl

end MerkleSync
