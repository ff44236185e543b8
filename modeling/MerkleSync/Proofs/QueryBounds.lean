import MerkleSync.Proofs.ErrorTexts
import MerkleSync.Proofs.ItemLength
import MerkleSync.Proofs.ScanMeaning

/-!
# How large answers can be

Nothing is assumed here about what a store holds or an engine keeps, except
that both fit into a machine: their entries, and the bytes of a value, are
counted by words.  Queries along paths that are no longer than identifiers have
small results, and fail with errors of a few kinds that have short texts.

**Results.**
* `meets_decode`, `meets_loadNode`, `meets_leafIdents`: records that cannot be
  read.
* `meets_snapshot`, `meets_nodeInfo`, `meets_idents`: queries.
* `EngineError.OfQuery.short_message`: the texts of their errors.
-/

namespace MerkleSync

/-- Results are as `P` says, and errors as `E` says. -/
structure Meets {ε α : Type} (m : Except ε α) (P : α → Prop) (E : ε → Prop) : Prop where
  ok : ∀ a, m = .ok a → P a
  error : ∀ cause, m = .error cause → E cause

section Computations

variable {ε δ α β : Type} {P : α → Prop} {Q : β → Prop} {E : ε → Prop} {F : δ → Prop}

theorem meets_ok {a : α} (h : P a) : Meets (.ok a) P E where
  ok _ hb := Except.ok.inj hb ▸ h
  error _ hcause := nomatch hcause

theorem meets_error {cause : ε} (h : E cause) : Meets (.error cause) P E where
  ok _ ha := nomatch ha
  error _ hcause := Except.error.inj hcause ▸ h

theorem Meets.bind {m : Except ε α} {f : α → Except ε β} (hm : Meets m P E)
    (hf : ∀ a, P a → Meets (f a) Q E) : Meets (m >>= f) Q E := by
  cases hresult : m with
  | error cause => exact meets_error (hm.error cause hresult)
  | ok a => exact hf a (hm.ok a hresult)

theorem Meets.map {m : Except ε α} {f : α → β} (hm : Meets m P E) (hf : ∀ a, P a → Q (f a)) :
    Meets (m.map f) Q E := by
  cases hresult : m with
  | error cause => exact meets_error (hm.error cause hresult)
  | ok a => exact meets_ok (hf a (hm.ok a hresult))

theorem Meets.mapError {m : Except ε α} {f : ε → δ} (hm : Meets m P E)
    (hf : ∀ cause, E cause → F (f cause)) : Meets (m.mapError f) P F := by
  cases hresult : m with
  | error cause => exact meets_error (hf cause (hm.error cause hresult))
  | ok a => exact meets_ok (hm.ok a hresult)

theorem meets_mapM {f : α → Except ε β} {l : List α} (h : ∀ a ∈ l, Meets (f a) Q E) :
    Meets (l.mapM f) (fun bs => bs.length = l.length ∧ ∀ b ∈ bs, Q b) E := by
  induction l with
  | nil => exact meets_ok ⟨rfl, fun _ hb => nomatch hb⟩
  | cons a l ih =>
      rw [List.mapM_cons]
      refine (h a List.mem_cons_self).bind fun b hb => ?_
      refine (ih fun c hc => h c (List.mem_cons_of_mem a hc)).bind fun bs hbs => meets_ok ?_
      refine ⟨by rw [List.length_cons, List.length_cons, hbs.1], fun c hc => ?_⟩
      rcases List.mem_cons.mp hc with rfl | hc
      · exact hb
      · exact hbs.2 c hc

/-- Lists of at most `k` elements each, one after another. -/
theorem length_flatten_le {k : Nat} {lists : List (List α)} (h : ∀ l ∈ lists, l.length ≤ k) :
    lists.flatten.length ≤ lists.length * k := by
  induction lists with
  | nil => exact Nat.zero_le _
  | cons l lists ih =>
      have hl := h l List.mem_cons_self
      have hrest := ih fun l' hl' => h l' (List.mem_cons_of_mem l hl')
      rw [List.flatten_cons, List.length_append, List.length_cons, Nat.succ_mul]
      omega

end Computations

/-! ## Records -/

namespace Record

open Cbor (Item)

section Decoding

variable {n : Nat}

theorem meets_readCount (notInteger outOfRange : RecordFault) (hkind : notInteger.Sized)
    (hrange : outOfRange.Sized) (it : Item) :
    Meets (readCount notInteger outOfRange it) (fun _ => True) RecordFault.Sized := by
  unfold readCount
  split
  · split
    · exact meets_ok trivial
    · exact meets_error hrange
  · exact meets_error hkind

theorem meets_readDigest (fault : RecordFault) (hfault : fault.Sized) (it : Item) :
    Meets (readDigest fault it) (fun _ => True) RecordFault.Sized := by
  unfold readDigest
  split
  · split
    · exact meets_ok trivial
    · exact meets_error hfault
  · exact meets_error hfault

theorem meets_readKey (hn : n < UInt64.size) {it : Item} (hit : it.BytesWithin n) :
    Meets (readKey it) (fun _ => True) RecordFault.Sized := by
  unfold readKey
  split
  · split
    · exact meets_ok trivial
    · exact meets_error (Nat.lt_of_le_of_lt hit hn)
  · exact meets_ok trivial
  · exact meets_error trivial

theorem meets_readByte (it : Item) :
    Meets (readByte it) (fun _ => True) RecordFault.Sized := by
  unfold readByte
  split
  · split
    · exact meets_ok trivial
    · exact meets_error trivial
  · exact meets_error trivial

theorem meets_readChild (it : Item) :
    Meets (readChild it) (fun _ => True) RecordFault.Sized := by
  unfold readChild
  split
  · refine (meets_readByte _).bind fun _ _ => ?_
    refine (meets_readDigest .badChildDigest trivial _).bind fun _ _ => ?_
    refine (meets_readCount .childCountNotInteger .childCountOutOfRange trivial trivial _).bind
      fun _ _ => meets_ok trivial
  · exact meets_error trivial

theorem meets_readChildren (items : List Item) (done : ByteMap Summary) :
    Meets (readChildren done items) (fun _ => True) RecordFault.Sized := by
  induction items generalizing done with
  | nil => exact meets_ok trivial
  | cons it rest ih =>
      rw [readChildren]
      split
      · next hchild => exact meets_error ((meets_readChild it).error _ hchild)
      · split
        · exact meets_error trivial
        · exact ih _

/-- The value of a field is a value of the map. -/
theorem within_of_field? {entries : List (Item × Item)} {key : Int} {it : Item}
    (hentries : ∀ e ∈ entries, e.2.BytesWithin n) (hit : field? entries key = some it) :
    it.BytesWithin n := by
  obtain ⟨e, hfind, rfl⟩ := Option.map_eq_some_iff.mp hit
  exact hentries e (List.mem_of_find?_eq_some hfind)

theorem meets_ofEntries (hn : n < UInt64.size) {entries : List (Item × Item)}
    (hentries : ∀ e ∈ entries, e.2.BytesWithin n) :
    Meets (ofEntries entries) (fun _ => True) RecordFault.Sized := by
  unfold ofEntries
  cases field? entries 0 with
  | none => exact meets_error trivial
  | some item =>
      refine (meets_readDigest .badDigest trivial item).bind fun digest _ => ?_
      cases field? entries 1 with
      | none => exact meets_error trivial
      | some item =>
          refine (meets_readCount .countNotInteger .countOutOfRange trivial trivial item).bind
            fun count _ => ?_
          cases hfield : field? entries 2
          case' some item =>
            refine (meets_readKey hn (within_of_field? hentries hfield)).bind fun key _ => ?_
          all_goals
            dsimp only
            split
            · exact (meets_readChildren _ ByteMap.empty).bind fun _ _ => meets_ok trivial
            · exact meets_error trivial
            · exact meets_ok trivial

theorem meets_decodeFault {data : Bytes} (hdata : data.length < UInt64.size) :
    Meets (decodeFault data) (fun _ => True) RecordFault.Sized := by
  rw [decodeFault, Item.ofBytes?]
  cases hread : Cbor.item Cbor.nestingLimit data with
  | none => exact meets_error trivial
  | some parts =>
      obtain ⟨it, rest⟩ := parts
      obtain ⟨⟨_, hvalues⟩, _⟩ :=
        Cbor.gives_item data.length _ data it rest (Nat.le_refl _) hread
      cases it with
      | map entries => exact meets_ofEntries hdata hvalues
      | _ => exact meets_error trivial

/-- **A value that is no record** is named by a fault whose numbers are words. -/
theorem meets_decode {data : Bytes} (hdata : data.length < UInt64.size) :
    Meets (decode data) (fun _ => True)
      fun cause => ∃ fault : RecordFault, cause = .malformedRecord fault ∧ fault.Sized :=
  (meets_decodeFault hdata).mapError fun fault hfault => ⟨fault, rfl, hfault⟩

theorem sized_of_shapeFault {r : Record} {depth : Nat} {fault : RecordFault}
    (hdepth : depth < UInt64.size) (h : r.shapeFault depth = some fault) : fault.Sized := by
  unfold shapeFault at h
  split at h
  · cases h
    exact hdepth
  · split at h
    · split at h
      · cases h
        exact trivial
      · split_ifs at h
        all_goals cases h
        all_goals exact trivial
    · split_ifs at h
      all_goals cases h
      all_goals first
        | exact hdepth
        | exact trivial

end Decoding
end Record

/-! ## Reads of the store -/

/-- The error of a read of records under keys of nodes. -/
inductive StoreError.OfReads : StoreError → Prop
  | failure : OfReads Store.readFailure
  | record {key : Bytes} {fault : RecordFault} (hkey : key.length ≤ identLength + 1)
      (hfault : fault.Sized) : OfReads (.malformedRecord key.toHex fault.message)

/-- A store whose entries, and the bytes of whose values, are counted by words. -/
structure Store.Sized (s : Store) : Prop where
  entries : s.entries.size < UInt64.size
  values : ∀ (key value : Bytes), s.entries[key]? = some value → value.length < UInt64.size

section Reads

variable {s : Store}

theorem meets_readRecord {key value : Bytes} {depth : Nat} (hkey : key.length ≤ identLength + 1)
    (hdepth : depth ≤ identLength) (hvalue : value.length < UInt64.size) :
    Meets (readRecord key depth value) (fun _ => True) StoreError.OfReads := by
  have hword : depth < UInt64.size := Nat.lt_of_le_of_lt hdepth (by decide)
  have hdecode := Record.meets_decode hvalue
  rw [readRecord]
  cases hread : Record.decode value with
  | error cause =>
      obtain ⟨fault, rfl, hfault⟩ := hdecode.error cause hread
      exact meets_error (.record hkey hfault)
  | ok r =>
      dsimp only
      rw [Record.checkShape]
      cases hshape : r.shapeFault depth with
      | none => exact meets_ok trivial
      | some fault =>
          exact meets_error (.record hkey (Record.sized_of_shapeFault hword hshape))

theorem meets_loadNode (hs : s.Sized) (ns : UInt8) {path : Bytes}
    (hpath : path.length ≤ identLength) :
    Meets (s.loadNode ns path) (fun _ => True) StoreError.OfReads := by
  have hkey : (nodeKey ns path).length ≤ identLength + 1 := Nat.succ_le_succ hpath
  rw [Store.loadNode, Store.get?]
  cases s.readsFail with
  | true => exact meets_error .failure
  | false =>
      cases hget : s.entries[nodeKey ns path]? with
      | none => exact meets_ok trivial
      | some value =>
          have hread := meets_readRecord hkey hpath (hs.values _ value hget)
          exact hread.map fun _ _ => trivial

theorem length_under_le {α : Type} (t : Table α) (start : Bytes) :
    (t.under start).length ≤ t.size := by
  rw [Table.under_eq_filter, ← Std.TreeMap.length_toList]
  exact List.length_filter_le _ _

/-- A scan for leaves reads no more of them than there are entries. -/
theorem meets_leafIdents (hs : s.Sized) (ns : UInt8) (path : Bytes) :
    Meets (s.leafIdents ns path) (fun ids => ids.length ≤ s.entries.size) StoreError.OfReads := by
  rw [Store.leafIdents, Store.scan]
  cases s.readsFail with
  | true => exact meets_error .failure
  | false =>
      have hnodes : Meets (Store.readNodes ((s.entries.under (nodeKey ns path)).filter fun entry =>
          entry.1.length == identLength + 1)) (fun nodes => nodes.length ≤ s.entries.size)
          StoreError.OfReads := by
        have hentries := @meets_mapM _ _ _ (fun _ => True) StoreError.OfReads Store.readNode
          ((s.entries.under (nodeKey ns path)).filter fun entry =>
            entry.1.length == identLength + 1) fun entry hentry => by
              obtain ⟨hunder, hlen⟩ := List.mem_filter.mp hentry
              have hkey := beq_iff_eq.mp hlen
              have hvalue := hs.values _ _ (Table.mem_under.mp hunder).2
              have hread := meets_readRecord (Nat.le_of_eq hkey)
                (by omega : entry.1.length - 1 ≤ identLength) hvalue
              exact hread.map fun _ _ => trivial
        refine ⟨fun nodes hok => ?_, hentries.error⟩
        rw [(hentries.ok nodes hok).1]
        exact Nat.le_trans (List.length_filter_le _ _) (length_under_le _ _)
      exact hnodes.map fun nodes hlen => Nat.le_trans (List.length_filterMap_le _ _) hlen

end Reads

/-! ## Queries -/

/-- The error of a query along a path that is no longer than identifiers. -/
inductive EngineError.OfQuery : EngineError → Prop
  | store {cause : StoreError} (h : cause.OfReads) : OfQuery (.ofStore cause)
  | missing {path : Bytes} (hpath : path.length ≤ identLength) :
      OfQuery (.missingNode path.toHex)
  | summary {path : Bytes} (hpath : path.length ≤ identLength) :
      OfQuery (.malformedRecord (path.toHex ++ ": record does not match parent summary"))

/-- **The errors of queries** have short texts. -/
theorem EngineError.OfQuery.short_message {cause : EngineError} (h : cause.OfQuery) :
    Short 16 cause.message := by
  have hmalformed : Short 1 "malformed record: " := by decide
  cases h with
  | store h =>
      cases h with
      | failure =>
          have hword : Short 2 (EngineError.ofStore Store.readFailure).message := by decide
          exact hword.mono (by decide)
      | record hkey hfault =>
          have hcolon : Short 1 ": " := by decide
          exact (hmalformed.append (((short_toHex hkey).append hcolon).append
            (RecordFault.short_message hfault))).mono (by decide)
  | missing hpath =>
      have hmissing : Short 1 "missing node record at " := by decide
      exact (hmissing.append (short_toHex (Nat.le_succ_of_le hpath))).mono (by decide)
  | summary hpath =>
      have hsummary : Short 1 ": record does not match parent summary" := by decide
      exact (hmalformed.append ((short_toHex (Nat.le_succ_of_le hpath)).append
        hsummary)).mono (by decide)

/-- An engine on a store: also the nodes in memory are counted by words. -/
structure Engine.Sized (e : Engine) (s : Store) : Prop where
  loaded : e.view.loaded.size < UInt64.size
  store : s.Sized

namespace Engine

section Queries

variable {e : Engine} {s : Store} (h : e.Sized s)
include h

theorem meets_child (path : Bytes) (r : Record) (b : UInt8)
    (hpath : path.length < identLength) :
    Meets (e.child s path r b) (fun _ => True) EngineError.OfQuery := by
  have hnext : (path ++ [b]).length ≤ identLength := by
    rw [List.length_append, List.length_singleton]
    exact hpath
  rw [child]
  split
  · exact meets_ok trivial
  · split
    · exact meets_ok trivial
    · have hload := meets_loadNode h.store e.config.ns hnext
      refine Meets.map (P := fun _ => True) ?_ fun _ _ => trivial
      rw [loadChild]
      split
      · next hread => exact meets_error (.store (hload.error _ hread))
      · exact meets_error (.missing hnext)
      · split
        · exact meets_ok trivial
        · exact meets_error (.summary hnext)

theorem meets_descend (rest : Bytes) (path : Bytes) (r : Record)
    (hlen : path.length + rest.length ≤ identLength) :
    Meets (e.descend s path r rest) (fun _ => True) EngineError.OfQuery := by
  induction rest generalizing path r with
  | nil => exact meets_ok trivial
  | cons b rest ih =>
      rw [List.length_cons] at hlen
      have hchild := meets_child h path r b (by omega)
      rw [descend]
      split
      · next hread => exact meets_error (hchild.error _ hread)
      · exact meets_ok trivial
      · refine ih _ _ ?_
        rw [List.length_append, List.length_singleton]
        omega

theorem meets_node {path : Bytes} (hpath : path.length ≤ identLength) :
    Meets (e.node s path) (fun _ => True) EngineError.OfQuery :=
  meets_descend h path [] e.view.root (by rw [List.length_nil]; omega)

/-- **The description of a node** is of the path that was asked for. -/
theorem meets_nodeInfo {path : Bytes} (hpath : path.length ≤ identLength) :
    Meets (e.nodeInfo s path) (fun info => ∀ i ∈ info, i.path = path) EngineError.OfQuery := by
  refine (meets_node h hpath).map fun r _ i hi => ?_
  obtain ⟨_, _, rfl⟩ := Option.map_eq_some_iff.mp hi
  rfl

theorem meets_snapshotFrom (rest : Bytes) (path : Bytes) (r : Record)
    (hlen : path.length + rest.length ≤ identLength) :
    Meets (e.snapshotFrom s path r rest)
      (fun snap => snap.path.length ≤ path.length + rest.length ∧
        snap.siblings.length ≤ rest.length) EngineError.OfQuery := by
  induction rest generalizing path r with
  | nil => exact meets_ok ⟨Nat.le_refl _, Nat.le_refl _⟩
  | cons b rest ih =>
      rw [List.length_cons] at hlen ⊢
      have hstep : (path ++ [b]).length = path.length + 1 := List.length_append
      have hchild := meets_child h path r b (by omega)
      rw [snapshotFrom]
      split
      · next hread => exact meets_error (hchild.error _ hread)
      · refine meets_ok ⟨?_, ?_⟩
        · rw [hstep]
          omega
        · rw [List.length_singleton]
          omega
      · next next _ =>
          refine (ih (path ++ [b]) next (by omega)).map fun snap hsnap => ⟨?_, ?_⟩
          · have hpath := hsnap.1
            rw [hstep] at hpath
            dsimp only
            omega
          · rw [List.length_cons]
            exact Nat.succ_le_succ hsnap.2

/-- **The snapshot** is no longer than the path that was asked for. -/
theorem meets_snapshot {path : Bytes} (hpath : path.length ≤ identLength) :
    Meets (e.snapshot s path)
      (fun snap => snap.path.length ≤ identLength ∧ snap.siblings.length ≤ identLength)
      EngineError.OfQuery := by
  have hfrom := meets_snapshotFrom h path [] e.view.root (by rw [List.length_nil]; omega)
  refine ⟨fun snap hok => ?_, hfrom.error⟩
  obtain ⟨hlen, hsiblings⟩ := hfrom.ok snap hok
  rw [List.length_nil] at hlen
  exact ⟨by omega, Nat.le_trans hsiblings hpath⟩

omit h in
/-- A node has at most 256 children, in memory or not. -/
theorem length_frontier_le (nodes : List (Bytes × Record)) :
    (e.frontier nodes).length ≤ nodes.length * 256 := by
  rw [frontier, List.length_mergeSort, List.flatMap_def]
  have hlists : ∀ lists : List (List Bytes), lists.length = nodes.length →
      (∀ paths ∈ lists, paths.length ≤ 256) → lists.flatten.length ≤ nodes.length * 256 :=
    fun lists hlen hpaths => hlen ▸ length_flatten_le hpaths
  refine hlists _ (List.length_map _) fun paths hpaths => ?_
  obtain ⟨node, _, rfl⟩ := List.mem_map.mp hpaths
  exact Nat.le_trans (List.length_filterMap_le _ _) node.2.children.length_entries_le

theorem meets_storedIdents (paths : List Bytes) :
    Meets (e.storedIdents s paths) (fun ids => ids.length ≤ paths.length * s.entries.size)
      EngineError.OfQuery := by
  have hreads := meets_mapM fun path (_ : path ∈ paths) => meets_leafIdents h.store e.config.ns path
  have hstore := hreads.mapError fun _ hcause => EngineError.OfQuery.store hcause
  refine hstore.map fun lists hlists => ?_
  rw [← hlists.1]
  exact length_flatten_le hlists.2

/-- **The identifiers** are fewer than any number of sixty digits. -/
theorem meets_idents {path : Bytes} (hpath : path.length ≤ identLength) :
    Meets (e.idents s path) (fun ids => ids.length < 10 ^ 60) EngineError.OfQuery := by
  have hnode := meets_node h hpath
  rw [idents]
  split
  · next hread => exact meets_error (hnode.error _ hread)
  · exact meets_ok (by decide)
  · next r _ =>
      dsimp only
      have hnodes : ((path, r) :: e.view.loaded.strictlyUnder path).length ≤ UInt64.size := by
        have hunder : (e.view.loaded.strictlyUnder path).length ≤ e.view.loaded.size :=
          Nat.le_trans (List.length_filter_le _ _) (length_under_le _ path)
        rw [List.length_cons]
        exact Nat.lt_of_le_of_lt hunder h.loaded
      generalize (path, r) :: e.view.loaded.strictlyUnder path = nodes at hnodes
      refine (meets_storedIdents h (e.frontier nodes)).map fun stored hstored => ?_
      have hmemory := List.length_filterMap_le (fun node : Bytes × Record => node.2.key) nodes
      have hfrontier := e.length_frontier_le nodes
      have hentries := h.store.entries
      have hpaths := Nat.le_trans hfrontier (Nat.mul_le_mul_right 256 hnodes)
      have hscans := Nat.le_trans hstored (Nat.mul_le_mul hpaths (Nat.le_of_lt hentries))
      rw [Ident.sort, List.length_mergeSort, List.length_append]
      exact Nat.lt_of_le_of_lt (Nat.add_le_add (Nat.le_trans hmemory hnodes) hscans) (by decide)

end Queries
end Engine
end MerkleSync
