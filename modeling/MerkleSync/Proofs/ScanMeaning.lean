import MerkleSync.Proofs.Coherence
import MerkleSync.Proofs.KeyRange
import MerkleSync.Proofs.QueryMeaning

/-!
# What a scan reads

A scan of a namespace reads every entry under it as a record, and fails as soon
as one of them cannot be read or does not have the shape of a node at its depth.
Nothing is assumed about what the store holds.

**Results.**
* `readRecord_eq_ok_iff`, `loadNode_eq_some_iff`, `readNode_eq_ok_iff`: reading one
  entry.
* `scanned_of_scanNodes`: the nodes that a scan gives.
* `exists_scanNodes`: when a scan succeeds.
-/

namespace MerkleSync

/-- The record that is stored for the node at `path`, whatever its shape. -/
def Store.decoded (s : Store) (ns : UInt8) (path : Bytes) : Option Record :=
  s.entries[nodeKey ns path]?.bind fun value => (Record.decode value).toOption

/-- Every value under the namespace can be read as a record, of whatever shape. -/
def Store.Readable (s : Store) (ns : UInt8) : Prop :=
  ∀ path value, s.entries[nodeKey ns path]? = some value → ∃ r, Record.decode value = .ok r

section Reading

variable {α β ε : Type}

theorem mapM_eq_ok_iff {f : α → Except ε β} :
    ∀ {l : List α} {l' : List β}, l.mapM f = .ok l' ↔ l.map f = l'.map Except.ok
  | [], l' => by
      rw [List.mapM_nil, List.map_nil, eq_comm (a := []), List.map_eq_nil_iff]
      exact ⟨fun h => (Except.ok.inj h).symm, fun h => by rw [h]; rfl⟩
  | a :: rest, l' => by
      rw [List.mapM_cons, List.map_cons]
      cases ha : f a with
      | error cause =>
          refine iff_of_false (fun h => by cases h) ?_
          cases l' with
          | nil => exact List.cons_ne_nil _ _
          | cons b l' => exact fun h => nomatch (List.cons.inj h).1
      | ok b =>
          cases hrest : rest.mapM f with
          | error cause =>
              refine iff_of_false (fun h => by cases h) ?_
              cases l' with
              | nil => exact List.cons_ne_nil _ _
              | cons b' l' =>
                  intro h
                  rw [List.map_cons, List.cons.injEq, ← mapM_eq_ok_iff, hrest] at h
                  exact nomatch h.2
          | ok l =>
              rw [mapM_eq_ok_iff.mp hrest, ← List.map_cons]
              constructor
              · intro h
                rw [← Except.ok.inj h]
              · intro h
                have hinj : Function.Injective (Except.ok : β → Except ε β) :=
                  fun _ _ => Except.ok.inj
                rw [← List.map_injective_iff.mpr hinj h]
                rfl

theorem checkShape_eq_ok_iff {r : Record} {depth : Nat} :
    r.checkShape depth = .ok () ↔ r.shapeFault depth = none := by
  rw [Record.checkShape]
  cases r.shapeFault depth with
  | none => exact iff_of_true rfl rfl
  | some fault => simp

theorem readRecord_eq_ok_iff {key : Bytes} {depth : Nat} {value : Bytes} {r : Record} :
    readRecord key depth value = .ok r ↔
      Record.decode value = .ok r ∧ r.shapeFault depth = none := by
  rw [readRecord]
  cases Record.decode value with
  | error cause => simp
  | ok found =>
      dsimp only
      rw [Except.ok.injEq]
      cases hshape : found.checkShape depth with
      | error cause =>
          refine iff_of_false (by simp) ?_
          rintro ⟨rfl, hnone⟩
          rw [← checkShape_eq_ok_iff, hshape] at hnone
          cases hnone
      | ok =>
          rw [checkShape_eq_ok_iff] at hshape
          constructor
          · intro h
            obtain rfl := Except.ok.inj h
            exact ⟨rfl, hshape⟩
          · rintro ⟨rfl, _⟩
            rfl

theorem loadNode_eq_some_iff {s : Store} {ns : UInt8} {path : Bytes} {r : Record} :
    s.loadNode ns path = .ok (some r) ↔ s.readsFail = false ∧
      ∃ value, s.entries[nodeKey ns path]? = some value ∧
        Record.decode value = .ok r ∧ r.shapeFault path.length = none := by
  rw [Store.loadNode, Store.get?]
  cases s.readsFail with
  | true => simp
  | false =>
      rw [if_neg Bool.false_ne_true, and_iff_right rfl]
      cases s.entries[nodeKey ns path]? with
      | none => simp
      | some value =>
          have hread : (∃ found, some value = some found ∧ Record.decode found = .ok r ∧
              r.shapeFault path.length = none) ↔
                readRecord (nodeKey ns path) path.length value = .ok r := by
            rw [readRecord_eq_ok_iff]
            simp
          rw [hread]
          dsimp only
          cases readRecord (nodeKey ns path) path.length value with
          | error cause => simp [Except.map]
          | ok found =>
              exact ⟨fun h => congrArg Except.ok (Option.some.inj (Except.ok.inj h)),
                fun h => congrArg (Except.ok ∘ some) (Except.ok.inj h)⟩

/-- An entry of a scan, read as a node. -/
def Store.readNode (entry : Bytes × Bytes) : Except StoreError (Bytes × Record) :=
  (readRecord entry.1 (entry.1.length - 1) entry.2).map fun r => (entry.1.drop 1, r)

theorem readNode_eq_ok_iff {ns : UInt8} {path value : Bytes} {node : Bytes × Record} :
    Store.readNode (nodeKey ns path, value) = .ok node ↔
      node.1 = path ∧ Record.decode value = .ok node.2 ∧ node.2.shapeFault path.length = none := by
  have hread : Store.readNode (nodeKey ns path, value) =
      (readRecord (nodeKey ns path) path.length value).map fun r => (path, r) := rfl
  have hiff : readRecord (nodeKey ns path) path.length value = .ok node.2 ↔
      Record.decode value = .ok node.2 ∧ node.2.shapeFault path.length = none :=
    readRecord_eq_ok_iff
  rw [hread, ← hiff]
  cases readRecord (nodeKey ns path) path.length value with
  | error cause => simp [Except.map]
  | ok r =>
      rw [Except.ok.injEq]
      constructor
      · intro h
        obtain rfl := Except.ok.inj h
        exact ⟨rfl, rfl⟩
      · rintro ⟨rfl, rfl⟩
        rfl

end Reading

section Scans

variable {s : Store} {ns : UInt8} {nodes : List (Bytes × Record)}

/-- What a scan of a namespace has read: every entry, as a record of the shape of
its depth. -/
structure Scanned (s : Store) (ns : UInt8) (nodes : List (Bytes × Record)) : Prop where
  reads : s.readsFail = false
  mem : ∀ path r, (path, r) ∈ nodes ↔ ∃ value, s.entries[nodeKey ns path]? = some value ∧
    Record.decode value = .ok r ∧ r.shapeFault path.length = none
  readable : ∀ path value, s.entries[nodeKey ns path]? = some value → ∃ r, (path, r) ∈ nodes
  distinct : nodes.Pairwise fun a b => a.1 ≠ b.1
  count : s.countNodes ns = .ok nodes.length

/-- The entries of a namespace, by the paths in their keys. -/
theorem mem_under_namespace {entry : Bytes × Bytes} :
    entry ∈ s.entries.under [ns] ↔
      ∃ path value, entry = (nodeKey ns path, value) ∧
        s.entries[nodeKey ns path]? = some value :=
  mem_under_nodeKey.trans
    (exists₂_congr fun _ _ => and_iff_right List.nil_prefix)

theorem scanNodes_of_reads (h : s.readsFail = false) :
    s.scanNodes ns [] = Store.readNodes (s.entries.under [ns]) := by
  rw [Store.scanNodes, Store.scan, h]
  rfl

/-- The paths of the nodes are those of the keys, which ascend. -/
theorem distinct_of_read
    (h : (s.entries.under [ns]).map Store.readNode = nodes.map Except.ok) :
    nodes.Pairwise fun a b => a.1 ≠ b.1 := by
  have hkeys : ((s.entries.under [ns]).map Store.readNode).Pairwise fun a b =>
      ∀ node other, a = .ok node → b = .ok other → node.1 ≠ other.1 := by
    refine List.pairwise_map.mpr ((Table.ascending_under s.entries [ns]).imp_of_mem ?_)
    intro entry entry' hentry hentry' hlt node other hnode hother heq
    obtain ⟨path, value, rfl, _⟩ := mem_under_namespace.mp hentry
    obtain ⟨path', value', rfl, _⟩ := mem_under_namespace.mp hentry'
    rw [(readNode_eq_ok_iff.mp hnode).1, (readNode_eq_ok_iff.mp hother).1] at heq
    rw [heq, Std.ReflOrd.compare_self] at hlt
    cases hlt
  rw [h, List.pairwise_map] at hkeys
  exact hkeys.imp fun hne => hne _ _ rfl rfl

/-- **What a scan reads** are the entries of the namespace. -/
theorem scanned_of_scanNodes (h : s.scanNodes ns [] = .ok nodes) : Scanned s ns nodes := by
  have hreads : s.readsFail = false := by
    by_contra hfail
    rw [Bool.not_eq_false] at hfail
    simp [Store.scanNodes, Store.scan, hfail] at h
  rw [scanNodes_of_reads hreads] at h
  have hnodes : (s.entries.under [ns]).map Store.readNode = nodes.map Except.ok :=
    mapM_eq_ok_iff.mp h
  have hmem : ∀ node, node ∈ nodes ↔ ∃ entry ∈ s.entries.under [ns],
      Store.readNode entry = .ok node := by
    intro node
    rw [← List.mem_map, hnodes]
    exact ⟨List.mem_map_of_mem, fun hin => by
      obtain ⟨other, hother, heq⟩ := List.mem_map.mp hin
      exact Except.ok.inj heq ▸ hother⟩
  constructor
  · exact hreads
  · intro path r
    rw [hmem]
    constructor
    · rintro ⟨entry, hentry, hread⟩
      obtain ⟨q, value, rfl, hget⟩ := mem_under_namespace.mp hentry
      obtain ⟨rfl, hvalue⟩ := readNode_eq_ok_iff.mp hread
      exact ⟨value, hget, hvalue⟩
    · rintro ⟨value, hget, hvalue⟩
      exact ⟨_, mem_under_namespace.mpr ⟨path, value, rfl, hget⟩,
        readNode_eq_ok_iff.mpr ⟨rfl, hvalue⟩⟩
  · intro path value hget
    have hentry := mem_under_namespace.mpr ⟨path, value, rfl, hget⟩
    have hread : Store.readNode (nodeKey ns path, value) ∈ nodes.map Except.ok :=
      hnodes ▸ List.mem_map_of_mem hentry
    obtain ⟨⟨q, r⟩, hnode, heq⟩ := List.mem_map.mp hread
    obtain ⟨hq, _⟩ := readNode_eq_ok_iff.mp heq.symm
    exact ⟨r, hq ▸ hnode⟩
  · exact distinct_of_read hnodes
  · have hlen := congrArg List.length hnodes
    rw [List.length_map, List.length_map] at hlen
    rw [Store.countNodes, Store.scan, hreads, ← hlen]
    rfl

/-- A scan succeeds if each entry is a record of the shape of its depth. -/
theorem exists_scanNodes (hreads : s.readsFail = false) {record : Bytes → Record}
    (h : ∀ path value, s.entries[nodeKey ns path]? = some value →
      Record.decode value = .ok (record path) ∧ (record path).shapeFault path.length = none) :
    ∃ nodes, s.scanNodes ns [] = .ok nodes := by
  have hread : ∀ entry ∈ s.entries.under [ns],
      Store.readNode entry = .ok (entry.1.drop 1, record (entry.1.drop 1)) := by
    intro entry hentry
    obtain ⟨path, value, rfl, hget⟩ := mem_under_namespace.mp hentry
    exact readNode_eq_ok_iff.mpr ⟨rfl, h path value hget⟩
  exact ⟨_, (scanNodes_of_reads hreads).trans (mapM_eq_map_of_ok hread)⟩

namespace Scanned

/-- The table of the nodes that were read. -/
theorem getElem?_ofList (h : Scanned s ns nodes) {path : Bytes} {r : Record} :
    (Std.TreeMap.ofList nodes : Table Record)[path]? = some r ↔ (path, r) ∈ nodes := by
  have hdistinct : nodes.Pairwise fun a b => ¬compare a.1 b.1 = .eq :=
    h.distinct.imp fun hne heq => hne (Std.LawfulEqOrd.eq_of_compare heq)
  constructor
  · intro hget
    by_contra hnot
    by_cases hpath : path ∈ nodes.map (·.1)
    · obtain ⟨⟨q, r'⟩, hnode, rfl⟩ := List.mem_map.mp hpath
      have hfound : (Std.TreeMap.ofList nodes : Table Record)[q]? = some r' :=
        Std.TreeMap.getElem?_ofList_of_mem Std.ReflOrd.compare_self hdistinct hnode
      rw [hfound] at hget
      exact hnot (Option.some.inj hget ▸ hnode)
    · have hnone : (Std.TreeMap.ofList nodes : Table Record)[path]? = none := by
        refine Std.TreeMap.getElem?_ofList_of_contains_eq_false ?_
        rw [List.contains_eq_mem, decide_eq_false_iff_not]
        exact hpath
      rw [hnone] at hget
      cases hget
  · intro hnode
    exact Std.TreeMap.getElem?_ofList_of_mem Std.ReflOrd.compare_self hdistinct hnode

/-- The nodes that were read are the records that are stored. -/
theorem mem_iff_decoded (h : Scanned s ns nodes) {path : Bytes} {r : Record} :
    (path, r) ∈ nodes ↔ s.decoded ns path = some r := by
  rw [Store.decoded]
  constructor
  · intro hnode
    obtain ⟨value, hget, hvalue, _⟩ := (h.mem path r).mp hnode
    rw [hget, Option.bind_some, hvalue]
    rfl
  · intro hdecoded
    obtain ⟨value, hget, hvalue⟩ := Option.bind_eq_some_iff.mp hdecoded
    obtain ⟨r', hnode⟩ := h.readable path value hget
    obtain ⟨value', hget', hvalue', _⟩ := (h.mem path r').mp hnode
    rw [hget] at hget'
    rw [Option.some.inj hget', hvalue'] at hvalue
    exact Option.some.inj hvalue ▸ hnode

end Scanned
end Scans

end MerkleSync
