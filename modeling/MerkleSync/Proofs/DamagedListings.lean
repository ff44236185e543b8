import MerkleSync.Proofs.DamagedMutations

/-!
# Listings over a damaged store

A listing goes to the node at its path, and on the way each record is compared with
what its parent has of it.  Below that node nothing is compared: the identifiers are
those of all leaf records that the store has below a child of the node.  So a leaf
record that is gone is not missed, and one that stands at the path of another
identifier is taken for what it holds.

The engine was just opened here, so the root alone is in memory.  The store holds
anything.

**Results.**
* `leafIdents_eq_ok_iff`, `storedIdents_eq_ok_iff`: which leaf records a scan reads.
* `node_of_opened`: a node that is found is one that is stored.
* `listed_of_opened`: the leaves of a listing.
* `listing_reads_leaf_records`: the listing, over any store.
* `contains_altered_none`: a record that is gone is an error on the way to a leaf.
* `listing_loses_identifier`: it is none in a listing.
-/

namespace MerkleSync

/-- The leaf record of `id` is stored at `path`. -/
def Store.KeepsLeaf (s : Store) (ns : UInt8) (path : Bytes) (id : Ident) : Prop :=
  ∃ value, s.entries[nodeKey ns path]? = some value ∧ Record.decode value = .ok (Record.leaf id)

/-- What is stored for leaves at and below `path` are leaf records. -/
def Store.LeavesReadable (s : Store) (ns : UInt8) (path : Bytes) : Prop :=
  ∀ q value, path <+: q → q.length = identLength → s.entries[nodeKey ns q]? = some value →
    ∃ id, Record.decode value = .ok (Record.leaf id)

/-- The identifiers in the records stored at some paths, with the paths. -/
def Store.leafRecords (s : Store) (ns : UInt8) (paths : List Bytes) : List (Bytes × Ident) :=
  paths.filterMap fun path => ((s.decoded ns path).bind (·.key)).map fun id => (path, id)

/-! ## Reading leaves -/

section Scanning

variable {s : Store} {ns : UInt8}

theorem distinct_leafRecords {paths : List Bytes} (h : paths.Nodup) :
    ((s.leafRecords ns paths).map (·.1)).Nodup := by
  have hpath : ∀ {path q : Bytes}, ((((s.decoded ns path).bind (·.key)).map fun id =>
      (path, id)).map (·.1)) = some q → path = q := by
    intro path q hsome
    obtain ⟨node, hnode, rfl⟩ := Option.map_eq_some_iff.mp hsome
    obtain ⟨id, _, rfl⟩ := Option.map_eq_some_iff.mp hnode
    rfl
  rw [Store.leafRecords, List.map_filterMap]
  exact h.filterMap fun path other q hpath' hother =>
    (hpath hpath').trans (hpath hother).symm

/-- Where there is a leaf record, its identifier is the one that is taken. -/
theorem keepsLeaf_iff {q : Bytes} (hlen : q.length = identLength) (h : s.LeavesReadable ns q)
    {id : Ident} : (s.decoded ns q).bind (·.key) = some id ↔ s.KeepsLeaf ns q id := by
  rw [Store.decoded, Store.KeepsLeaf]
  constructor
  · intro hsome
    obtain ⟨r, hr, hkey⟩ := Option.bind_eq_some_iff.mp hsome
    obtain ⟨value, hget, hvalue⟩ := Option.bind_eq_some_iff.mp hr
    obtain ⟨other, hleaf⟩ := h q value List.prefix_rfl hlen hget
    rw [hleaf] at hvalue
    obtain rfl := Option.some.inj hvalue
    obtain rfl := Option.some.inj hkey
    exact ⟨value, hget, hleaf⟩
  · rintro ⟨value, hget, hleaf⟩
    rw [hget, Option.bind_some, hleaf]
    rfl

theorem mem_leafRecords {paths : List Bytes} {q : Bytes} {id : Ident} :
    (q, id) ∈ s.leafRecords ns paths ↔ q ∈ paths ∧ (s.decoded ns q).bind (·.key) = some id := by
  rw [Store.leafRecords, List.mem_filterMap]
  constructor
  · rintro ⟨path, hpath, hsome⟩
    obtain ⟨other, hkey, heq⟩ := Option.map_eq_some_iff.mp hsome
    obtain ⟨rfl, rfl⟩ := Prod.mk.inj heq
    exact ⟨hpath, hkey⟩
  · rintro ⟨hpath, hkey⟩
    exact ⟨q, hpath, Option.map_eq_some_iff.mpr ⟨id, hkey, rfl⟩⟩

/-- The entries of leaves at and below a path. -/
def Store.leafEntries (s : Store) (ns : UInt8) (path : Bytes) : List (Bytes × Bytes) :=
  (s.entries.under (nodeKey ns path)).filter fun entry => entry.1.length == identLength + 1

theorem mem_leafEntries {path : Bytes} {entry : Bytes × Bytes} :
    entry ∈ s.leafEntries ns path ↔ ∃ q value, path <+: q ∧ q.length = identLength ∧
      entry = (nodeKey ns q, value) ∧ s.entries[nodeKey ns q]? = some value := by
  rw [Store.leafEntries, List.mem_filter, mem_under_nodeKey]
  constructor
  · rintro ⟨⟨q, value, hpre, rfl, hget⟩, hlen⟩
    exact ⟨q, value, hpre, Nat.succ.inj (beq_iff_eq.mp hlen), rfl, hget⟩
  · rintro ⟨q, value, hpre, hlen, rfl, hget⟩
    exact ⟨⟨q, value, hpre, rfl, hget⟩, beq_iff_eq.mpr (congrArg Nat.succ hlen)⟩

theorem shapeFault_leaf (id : Ident) : (Record.leaf id).shapeFault identLength = none := by
  simp [Record.shapeFault, Record.leaf, ByteMap.isEmpty, ByteMap.empty]

/-- **The entries of leaves are read** if and only if all of them are leaf records. -/
theorem readNodes_leafEntries_iff {path : Bytes} {nodes : List (Bytes × Record)} :
    Store.readNodes (s.leafEntries ns path) = .ok nodes ↔ s.LeavesReadable ns path ∧
      nodes = (s.leafEntries ns path).map fun entry =>
        (entry.1.drop 1, (s.decoded ns (entry.1.drop 1)).getD Record.empty) := by
  by_cases h : s.LeavesReadable ns path
  · have hread : Store.readNodes (s.leafEntries ns path) =
        .ok ((s.leafEntries ns path).map fun entry =>
          (entry.1.drop 1, (s.decoded ns (entry.1.drop 1)).getD Record.empty)) := by
      refine mapM_eq_map_of_ok fun entry hmem => ?_
      obtain ⟨q, value, hpre, hlen, rfl, hget⟩ := mem_leafEntries.mp hmem
      obtain ⟨id, hleaf⟩ := h q value hpre hlen hget
      have hdecoded : (s.decoded ns q).getD Record.empty = Record.leaf id := by
        rw [Store.decoded, hget, Option.bind_some, hleaf]
        rfl
      refine readNode_eq_ok_iff.mpr ⟨rfl, ?_, ?_⟩
      · exact hleaf.trans (congrArg Except.ok hdecoded.symm)
      · exact hdecoded.symm ▸ hlen.symm ▸ shapeFault_leaf id
    rw [hread, and_iff_right h, Except.ok.injEq]
    exact eq_comm
  · refine iff_of_false (fun hok => h fun q value hpre hlen hget => ?_) fun hok => h hok.1
    have hnodes : (s.leafEntries ns path).map Store.readNode = nodes.map Except.ok :=
      mapM_eq_ok_iff.mp hok
    have hmem : Store.readNode (nodeKey ns q, value) ∈ nodes.map Except.ok :=
      hnodes ▸ List.mem_map_of_mem (mem_leafEntries.mpr ⟨q, value, hpre, hlen, rfl, hget⟩)
    obtain ⟨node, _, hnode⟩ := List.mem_map.mp hmem
    obtain ⟨_, hvalue, hshape⟩ := readNode_eq_ok_iff.mp hnode.symm
    obtain ⟨id, hleaf⟩ := leaf_of_shapeFault (hlen ▸ hshape)
    exact ⟨id, hleaf ▸ hvalue⟩

/-- **A scan for leaves** gives the identifiers of all leaf records below a path, or
fails. -/
theorem leafIdents_eq_ok_iff (hreads : s.readsFail = false) {path : Bytes} {ids : List Ident} :
    s.leafIdents ns path = .ok ids ↔
      s.LeavesReadable ns path ∧ ids = (s.leafRecords ns (leafPaths s ns path)).map (·.2) := by
  have hscan : s.leafIdents ns path = (Store.readNodes (s.leafEntries ns path)).map fun nodes =>
      nodes.filterMap fun node => node.2.key := by
    rw [Store.leafIdents, Store.scan, hreads]
    rfl
  have hkeys : (s.leafRecords ns (leafPaths s ns path)).map (·.2) =
      ((s.leafEntries ns path).map fun entry =>
        (entry.1.drop 1, (s.decoded ns (entry.1.drop 1)).getD Record.empty)).filterMap
          fun node => node.2.key := by
    rw [Store.leafRecords, leafPaths, List.filterMap_map, List.map_filterMap, List.filterMap_map]
    refine List.filterMap_congr fun entry _ => ?_
    dsimp only [Function.comp_apply]
    cases s.decoded ns (entry.1.drop 1) with
    | none => rfl
    | some r => cases hkey : r.key <;> simp [hkey]
  rw [hscan, hkeys]
  cases hread : Store.readNodes (s.leafEntries ns path) with
  | error cause =>
      refine iff_of_false (by simp [Except.map]) fun h => ?_
      rw [readNodes_leafEntries_iff.mpr ⟨h.1, rfl⟩] at hread
      cases hread
  | ok nodes =>
      obtain ⟨hreadable, rfl⟩ := readNodes_leafEntries_iff.mp hread
      rw [and_iff_right hreadable]
      exact (Except.ok.injEq _ _).to_iff.trans eq_comm

/-- **The scans of a listing**, below several paths. -/
theorem storedIdents_eq_ok_iff {e : Engine} (hreads : s.readsFail = false) {paths : List Bytes}
    {ids : List Ident} :
    e.storedIdents s paths = .ok ids ↔
      (∀ path ∈ paths, s.LeavesReadable e.config.ns path) ∧
        ids = (s.leafRecords e.config.ns (paths.flatMap (leafPaths s e.config.ns))).map (·.2) := by
  by_cases h : ∀ path ∈ paths, s.LeavesReadable e.config.ns path
  · have hread : paths.mapM (s.leafIdents e.config.ns) = .ok (paths.map fun path =>
        (s.leafRecords e.config.ns (leafPaths s e.config.ns path)).map (·.2)) :=
      mapM_eq_map_of_ok fun path hpath => (leafIdents_eq_ok_iff hreads).mpr ⟨h path hpath, rfl⟩
    have hflat : (s.leafRecords e.config.ns (paths.flatMap (leafPaths s e.config.ns))).map (·.2) =
        (paths.map fun path =>
          (s.leafRecords e.config.ns (leafPaths s e.config.ns path)).map (·.2)).flatten := by
      rw [Store.leafRecords, List.filterMap_flatMap, List.map_flatMap, List.flatMap_def]
      rfl
    rw [Engine.storedIdents, hread, and_iff_right h, hflat]
    exact (Except.ok.injEq _ _).to_iff.trans eq_comm
  · refine iff_of_false (fun hok => h fun path hpath => ?_) fun hok => h hok.1
    rw [Engine.storedIdents] at hok
    cases hrun : paths.mapM (s.leafIdents e.config.ns) with
    | error cause =>
        rw [hrun] at hok
        cases hok
    | ok lists =>
        have hmem : s.leafIdents e.config.ns path ∈ lists.map Except.ok :=
          mapM_eq_ok_iff.mp hrun ▸ List.mem_map_of_mem hpath
        obtain ⟨found, _, hfound⟩ := List.mem_map.mp hmem
        exact ((leafIdents_eq_ok_iff hreads).mp hfound.symm).1

end Scanning

/-! ## An engine that was just opened -/

section Opened

variable {config : EngineConfig} {s : Store} {e : Engine} {path : Bytes} {r : Record}

/-- What opening leaves: the root that is stored, alone. -/
structure Engine.Opened (e : Engine) (config : EngineConfig) (s : Store) : Prop where
  config_eq : e.config = config
  loaded : e.view.loaded = ∅
  reads : s.readsFail = false
  root : s.loadNode config.ns [] = .ok (some e.view.root) ∨ e.view.root = Record.empty

theorem opened_of_openOn (h : Engine.openOn config s = .ok e) : e.Opened config s := by
  have hreads : s.readsFail = false := by
    by_contra hfail
    rw [Bool.not_eq_false] at hfail
    simp [Engine.openOn, Engine.reload, Store.loadNode, Store.get?, hfail] at h
  rw [Engine.openOn, Engine.reload] at h
  cases hload : s.loadNode (Engine.new config).config.ns [] with
  | error cause =>
      rw [hload] at h
      cases h
  | ok root =>
      rw [hload] at h
      obtain rfl := Except.ok.inj h
      refine ⟨rfl, rfl, hreads, ?_⟩
      cases root with
      | none => exact Or.inr rfl
      | some r => exact Or.inl hload

theorem Engine.Opened.get?_eq_none (h : e.Opened config s) (hpath : path ≠ []) :
    e.view.get? path = none := by
  rw [View.get?_of_ne_nil e.view hpath, h.loaded]
  exact Std.TreeMap.getElem?_emptyc

theorem loadNode_of_loadChild {ns : UInt8} {summary : Summary}
    (h : Engine.loadChild ns s path summary = .ok r) : s.loadNode ns path = .ok (some r) := by
  rw [Engine.loadChild] at h
  cases hload : s.loadNode ns path with
  | error cause =>
      rw [hload] at h
      cases h
  | ok found =>
      rw [hload] at h
      cases found with
      | none => cases h
      | some r' =>
          dsimp only at h
          split at h
          · rw [Except.ok.inj h]
          · cases h

/-- A node that is found below another one is stored. -/
theorem descend_of_opened (h : e.Opened config s) {r' : Record} :
    ∀ (rest path : Bytes) (r : Record), e.descend s path r rest = .ok (some r') →
      rest = [] ∧ r' = r ∨ s.loadNode config.ns (path ++ rest) = .ok (some r')
  | [], _, _, hfound => Or.inl ⟨rfl, (Option.some.inj (Except.ok.inj hfound)).symm⟩
  | b :: rest, path, r, hfound => by
      rw [Engine.descend, Engine.child] at hfound
      cases hlisted : r.children.get? b with
      | none =>
          rw [hlisted] at hfound
          cases hfound
      | some summary =>
          rw [hlisted, h.get?_eq_none (by simp), h.config_eq] at hfound
          dsimp only at hfound
          cases hload : Engine.loadChild config.ns s (path ++ [b]) summary with
          | error cause =>
              rw [hload] at hfound
              cases hfound
          | ok next =>
              rw [hload] at hfound
              right
              rw [List.append_cons]
              rcases descend_of_opened h rest (path ++ [b]) next hfound with ⟨rfl, rfl⟩ | hstored
              · rw [List.append_nil]
                exact loadNode_of_loadChild hload
              · exact hstored

/-- **A node that is found** is stored, or is the root of no records. -/
theorem node_of_opened (h : e.Opened config s) (hnode : e.node s path = .ok (some r)) :
    s.loadNode config.ns path = .ok (some r) ∨ path = [] ∧ r = Record.empty := by
  rcases descend_of_opened h path [] e.view.root hnode with ⟨rfl, rfl⟩ | hstored
  · exact h.root.imp_right fun hempty => ⟨rfl, hempty⟩
  · exact Or.inl hstored

/-- What a node that is found is: a leaf at the depth of leaves, and above it a node
without an identifier. -/
theorem shape_of_opened (h : e.Opened config s) (hnode : e.node s path = .ok (some r)) :
    path.length < identLength ∧ r.key = none ∨
      path.length = identLength ∧ ∃ id, r = Record.leaf id ∧ s.KeepsLeaf config.ns path id := by
  rcases node_of_opened h hnode with hload | ⟨rfl, rfl⟩
  · obtain ⟨_, value, hget, hvalue, hshape⟩ := loadNode_eq_some_iff.mp hload
    rcases Nat.lt_or_eq_of_le (le_of_shapeFault hshape) with hlt | hlen
    · exact Or.inl ⟨hlt, (inner_of_shapeFault hlt hshape).1⟩
    · obtain ⟨id, rfl⟩ := leaf_of_shapeFault (hlen ▸ hshape)
      exact Or.inr ⟨hlen, id, rfl, value, hget, hvalue⟩
  · exact Or.inl ⟨by decide, rfl⟩

theorem strictlyUnder_empty (path : Bytes) :
    Table.strictlyUnder (∅ : Table Record) path = [] := by
  refine List.eq_nil_iff_forall_not_mem.mpr fun entry hentry => ?_
  have hget := (Table.mem_strictlyUnder.mp hentry).2.2
  rw [Std.TreeMap.getElem?_emptyc] at hget
  cases hget

/-- The listing below a node that was found: its identifier, and those of the leaf
records below its children. -/
theorem idents_of_node (h : e.Opened config s) (hnode : e.node s path = .ok (some r)) :
    e.idents s path = (e.storedIdents s (e.frontier [(path, r)])).map fun stored =>
      Ident.sort (r.key.toList ++ stored) := by
  have hkey : [(path, r)].filterMap (fun node => node.2.key) = r.key.toList := by
    cases hkey : r.key <;> simp [hkey]
  rw [Engine.idents, hnode]
  dsimp only
  rw [h.loaded, strictlyUnder_empty, hkey]

theorem mem_frontier_of_opened (h : e.Opened config s) {c : Bytes} :
    c ∈ e.frontier [(path, r)] ↔ ∃ b, r.children.contains b = true ∧ c = path ++ [b] := by
  simp only [Engine.frontier, List.mem_mergeSort, List.flatMap_singleton, List.mem_filterMap]
  constructor
  · rintro ⟨⟨b, summary⟩, hchild, hc⟩
    rw [h.get?_eq_none (by simp)] at hc
    exact ⟨b, ByteMap.contains_iff.mpr ⟨summary, ByteMap.get?_eq_some_iff.mpr hchild⟩,
      (Option.some.inj hc).symm⟩
  · rintro ⟨b, hcontains, rfl⟩
    obtain ⟨summary, hget⟩ := ByteMap.contains_iff.mp hcontains
    refine ⟨(b, summary), ByteMap.get?_eq_some_iff.mp hget, ?_⟩
    rw [h.get?_eq_none (by simp)]
    rfl

/-- The leaves below different children are different. -/
theorem nodup_leafPaths_frontier (h : e.Opened config s) (path : Bytes) (r : Record) :
    ((e.frontier [(path, r)]).flatMap (leafPaths s config.ns)).Nodup := by
  refine List.nodup_flatMap.mpr ⟨fun c _ => nodup_leafPaths s config.ns c, ?_⟩
  have hdistinct : (e.frontier [(path, r)]).Nodup := nodup_frontier e (List.nodup_singleton path)
  refine hdistinct.imp_of_mem fun hc hc' hne q hq hq' => hne ?_
  obtain ⟨b, _, rfl⟩ := (mem_frontier_of_opened h).mp hc
  obtain ⟨b', _, rfl⟩ := (mem_frontier_of_opened h).mp hc'
  have hlen : (path ++ [b]).length = (path ++ [b']).length := by simp
  rcases List.prefix_or_prefix_of_prefix (mem_leafPaths_iff.mp hq).1 (mem_leafPaths_iff.mp hq').1
    with hpre | hpre
  · exact hpre.eq_of_length hlen
  · exact (hpre.eq_of_length hlen.symm).symm

end Opened

/-! ## What is listed -/

/-- The places where a listing looks for leaves: that of the described node itself, and
all below a child. -/
def NodeInfo.Covers (info : NodeInfo) (q : Bytes) : Prop :=
  q.length = identLength ∧
    (q = info.path ∨ ∃ b, info.children.contains b = true ∧ info.path ++ [b] <+: q)

/-- The leaf records that are stored where a listing looks for them, each once. -/
structure NodeInfo.Finds (info : NodeInfo) (s : Store) (ns : UInt8)
    (leaves : List (Bytes × Ident)) : Prop where
  distinct : (leaves.map (·.1)).Nodup
  mem : ∀ q id, (q, id) ∈ leaves ↔ info.Covers q ∧ s.KeepsLeaf ns q id

/-- What the listing at the path of a described node comes to: it succeeds if all records
at the places that it covers are those of leaves, and gives what it finds. -/
structure NodeInfo.Listed (info : NodeInfo) (e : Engine) (s : Store) (ns : UInt8) (path : Bytes) :
    Prop where
  ends : (∃ values, e.idents s path = .ok values) ↔ ∀ q value, info.Covers q →
    s.entries[nodeKey ns q]? = some value → ∃ id, Record.decode value = .ok (Record.leaf id)
  lists : ∀ values, e.idents s path = .ok values →
    ∃ leaves, info.Finds s ns leaves ∧ values = Ident.sort (leaves.map (·.2))

section Listing

variable {config : EngineConfig} {s : Store} {e : Engine} {path : Bytes} {info : NodeInfo}

/-- The listing of a leaf. -/
theorem idents_of_leaf (h : e.Opened config s) {id : Ident}
    (hnode : e.node s path = .ok (some (Record.leaf id))) : e.idents s path = .ok [id] := by
  have hnil : e.frontier [(path, Record.leaf id)] = [] :=
    List.eq_nil_iff_forall_not_mem.mpr fun c hc => by
      obtain ⟨b, hcontains, _⟩ := (mem_frontier_of_opened h).mp hc
      cases hcontains
  rw [idents_of_node h hnode, hnil]
  exact congrArg Except.ok (List.mergeSort_singleton id)

/-- The listing of an inner node. -/
theorem idents_of_inner (h : e.Opened config s) {r : Record}
    (hnode : e.node s path = .ok (some r)) (hkey : r.key = none) {values : List Ident} :
    e.idents s path = .ok values ↔
      (∀ c ∈ e.frontier [(path, r)], s.LeavesReadable config.ns c) ∧
        values = Ident.sort ((s.leafRecords config.ns
          ((e.frontier [(path, r)]).flatMap (leafPaths s config.ns))).map (·.2)) := by
  rw [idents_of_node h hnode, hkey, ← h.config_eq]
  cases hstored : e.storedIdents s (e.frontier [(path, r)]) with
  | error cause =>
      refine iff_of_false (by simp [Except.map]) fun hok => ?_
      rw [(storedIdents_eq_ok_iff h.reads).mpr ⟨hok.1, rfl⟩] at hstored
      cases hstored
  | ok stored =>
      obtain ⟨hreadable, rfl⟩ := (storedIdents_eq_ok_iff h.reads).mp hstored
      rw [and_iff_right hreadable]
      exact (Except.ok.injEq _ _).to_iff.trans eq_comm

/-- An inner node covers what is below its children. -/
theorem covers_inner_iff (h : e.Opened config s) {r : Record} (hlen : path.length < identLength)
    {q : Bytes} :
    NodeInfo.Covers ⟨path, r.itemCount, r.digest, r.children⟩ q ↔
      q.length = identLength ∧ ∃ c ∈ e.frontier [(path, r)], c <+: q := by
  refine and_congr_right fun hfull => ?_
  have hne : q ≠ path := by
    rintro rfl
    omega
  simp only [mem_frontier_of_opened h, hne, false_or]
  constructor
  · rintro ⟨b, hcontains, hpre⟩
    exact ⟨_, ⟨b, hcontains, rfl⟩, hpre⟩
  · rintro ⟨_, ⟨b, hcontains, rfl⟩, hpre⟩
    exact ⟨b, hcontains, hpre⟩

/-- The leaves that are found below the children of an inner node. -/
theorem finds_of_inner (h : e.Opened config s) {r : Record} (hlen : path.length < identLength)
    (hall : ∀ c ∈ e.frontier [(path, r)], s.LeavesReadable config.ns c) :
    NodeInfo.Finds ⟨path, r.itemCount, r.digest, r.children⟩ s config.ns
      (s.leafRecords config.ns
        ((e.frontier [(path, r)]).flatMap (leafPaths s config.ns))) where
  distinct := distinct_leafRecords (nodup_leafPaths_frontier h path r)
  mem q id := by
    have hkeeps : ∀ c ∈ e.frontier [(path, r)], c <+: q → q.length = identLength →
        ((s.decoded config.ns q).bind (·.key) = some id ↔ s.KeepsLeaf config.ns q id) :=
      fun c hc hpre hfull => keepsLeaf_iff hfull fun q' value hlow =>
        hall c hc q' value (hpre.trans hlow)
    simp only [mem_leafRecords, List.mem_flatMap, mem_leafPaths_iff, covers_inner_iff h hlen]
    constructor
    · rintro ⟨⟨c, hc, hpre, hfull, _⟩, hkey⟩
      exact ⟨⟨hfull, c, hc, hpre⟩, (hkeeps c hc hpre hfull).mp hkey⟩
    · rintro ⟨⟨hfull, c, hc, hpre⟩, hleaf⟩
      have hvalue := hleaf.imp fun _ => And.left
      exact ⟨⟨c, hc, hpre, hfull, hvalue⟩, (hkeeps c hc hpre hfull).mpr hleaf⟩

theorem listed_of_inner (h : e.Opened config s) {r : Record}
    (hnode : e.node s path = .ok (some r)) (hlen : path.length < identLength)
    (hkey : r.key = none) :
    NodeInfo.Listed ⟨path, r.itemCount, r.digest, r.children⟩ e s config.ns path where
  ends := by
    have hreadable : (∃ values, e.idents s path = .ok values) ↔
        ∀ c ∈ e.frontier [(path, r)], s.LeavesReadable config.ns c := by
      constructor
      · rintro ⟨values, hvalues⟩
        exact ((idents_of_inner h hnode hkey).mp hvalues).1
      · exact fun hall => ⟨_, (idents_of_inner h hnode hkey).mpr ⟨hall, rfl⟩⟩
    simp only [hreadable, covers_inner_iff h hlen]
    constructor
    · rintro hall q value ⟨hfull, c, hc, hpre⟩ hget
      exact hall c hc q value hpre hfull hget
    · intro hall c hc q value hpre hfull hget
      exact hall q value ⟨hfull, c, hc, hpre⟩ hget
  lists values hvalues := by
    obtain ⟨hall, hsort⟩ := (idents_of_inner h hnode hkey).mp hvalues
    exact ⟨_, finds_of_inner h hlen hall, hsort⟩

theorem listed_of_leaf (h : e.Opened config s) {id : Ident}
    (hnode : e.node s path = .ok (some (Record.leaf id))) (hlen : path.length = identLength)
    (hkeeps : s.KeepsLeaf config.ns path id) :
    NodeInfo.Listed ⟨path, 1, id.digest, ByteMap.empty⟩ e s config.ns path := by
  -- the leaf is the only one
  have honly : ∀ q, NodeInfo.Covers ⟨path, 1, id.digest, ByteMap.empty⟩ q → q = path := by
    rintro q ⟨_, heq | ⟨b, hcontains, _⟩⟩
    · exact heq
    · cases hcontains
  have hidents := idents_of_leaf h hnode
  obtain ⟨value, hget, hvalue⟩ := hkeeps
  refine ⟨iff_of_true ⟨_, hidents⟩ fun q value' hq hget' => ⟨id, ?_⟩, fun values hvalues => ?_⟩
  · obtain rfl := honly q hq
    rw [hget] at hget'
    exact Option.some.inj hget' ▸ hvalue
  · rw [hidents] at hvalues
    obtain rfl := Except.ok.inj hvalues
    refine ⟨[(path, id)], ⟨List.nodup_singleton path, fun q other => ?_⟩,
      (List.mergeSort_singleton id).symm⟩
    rw [List.mem_singleton, Prod.mk.injEq]
    constructor
    · rintro ⟨rfl, rfl⟩
      exact ⟨⟨hlen, Or.inl rfl⟩, value, hget, hvalue⟩
    · rintro ⟨hq, value', hget', hvalue'⟩
      obtain rfl := honly q hq
      rw [hget] at hget'
      rw [← Option.some.inj hget', hvalue] at hvalue'
      exact ⟨rfl, (Option.some.inj (congrArg Record.key (Except.ok.inj hvalue'))).symm⟩

theorem node_of_nodeInfo (hinfo : e.nodeInfo s path = .ok (some info)) :
    ∃ r, e.node s path = .ok (some r) ∧ info = ⟨path, r.itemCount, r.digest, r.children⟩ := by
  rw [Engine.nodeInfo] at hinfo
  cases hnode : e.node s path with
  | error cause =>
      rw [hnode] at hinfo
      cases hinfo
  | ok found =>
      rw [hnode] at hinfo
      cases found with
      | none => cases hinfo
      | some r => exact ⟨r, rfl, (Option.some.inj (Except.ok.inj hinfo)).symm⟩

/-- **The leaves of a listing.** -/
theorem listed_of_opened (h : e.Opened config s) (hinfo : e.nodeInfo s path = .ok (some info)) :
    info.path = path ∧ info.Listed e s config.ns path := by
  obtain ⟨r, hnode, rfl⟩ := node_of_nodeInfo hinfo
  rcases shape_of_opened h hnode with ⟨hlen, hkey⟩ | ⟨hlen, id, rfl, hkeeps⟩
  · exact ⟨rfl, listed_of_inner h hnode hlen hkey⟩
  · exact ⟨rfl, listed_of_leaf h hnode hlen hkeeps⟩

end Listing

/-! ## One damaged record -/

section Damage

variable {config : EngineConfig} {held : Finset Ident} {s : Store} {path : Bytes}
  {value : Option Bytes}

/-- Nodes whose records are not damaged are found. -/
theorem child_altered (h : s.Holds config.ns held) {q : Bytes} {b : UInt8}
    (hocc : Occurs held (q ++ [b])) (hne : q ++ [b] ≠ path) :
    (Engine.fresh config held).child (s.altered config.ns path value) q (canonical held q) b =
      .ok (some (canonical held (q ++ [b]))) := by
  have hnew : (Engine.fresh config held).view.get? (q ++ [b]) = none := by
    rw [View.get?_of_ne_nil _ (by simp)]
    exact Std.TreeMap.getElem?_emptyc
  have hload : Engine.loadChild (Engine.fresh config held).config.ns
      (s.altered config.ns path value) (q ++ [b]) (canonical held (q ++ [b])).summary =
        .ok (canonical held (q ++ [b])) :=
    (Engine.loadChild_altered hne _).trans (loadChild_of_holds h hocc)
  rw [Engine.child, get?_canonical_children, if_pos hocc]
  dsimp only
  rw [hnew, hload]
  rfl

/-- A node that is listed and has no record is an error. -/
theorem child_altered_none (h : s.Holds config.ns held) {q : Bytes} {b : UInt8}
    (hocc : Occurs held (q ++ [b])) :
    (Engine.fresh config held).child (s.altered config.ns (q ++ [b]) none) q (canonical held q) b =
      .error (.missingNode (Bytes.toHex (q ++ [b]))) := by
  have hnew : (Engine.fresh config held).view.get? (q ++ [b]) = none := by
    rw [View.get?_of_ne_nil _ (by simp)]
    exact Std.TreeMap.getElem?_emptyc
  have hload : Engine.loadChild (Engine.fresh config held).config.ns
      (s.altered config.ns (q ++ [b]) none) (q ++ [b]) (canonical held (q ++ [b])).summary =
        .error (.missingNode (Bytes.toHex (q ++ [b]))) :=
    Engine.loadChild_altered_none h.reads _
  rw [Engine.child, get?_canonical_children, if_pos hocc]
  dsimp only
  rw [hnew, hload]
  rfl

theorem descend_altered_none (h : s.Holds config.ns held) (hocc : Occurs held path) :
    ∀ rest q : Bytes, q.length < path.length → path <+: q ++ rest →
      (Engine.fresh config held).descend (s.altered config.ns path none) q (canonical held q) rest =
        .error (.missingNode path.toHex)
  | [], q, hlt, hpre => by
      have hle := hpre.length_le
      rw [List.append_nil] at hle
      omega
  | b :: rest, q, hlt, hpre => by
      have hlen : (q ++ [b]).length = q.length + 1 := List.length_append
      rw [List.append_cons] at hpre
      have hnext : q ++ [b] <+: path :=
        List.prefix_of_prefix_length_le (List.prefix_append _ rest) hpre (by omega)
      rw [Engine.descend]
      by_cases heq : q ++ [b] = path
      · subst heq
        rw [child_altered_none h hocc]
      · rw [child_altered h (hocc.of_isPrefix hnext) heq]
        refine descend_altered_none h hocc rest (q ++ [b]) ?_ hpre
        exact Nat.lt_of_le_of_ne hnext.length_le fun hsame => heq (hnext.eq_of_length hsame)

/-- **A missing record on the way to an identifier** is an error. -/
theorem contains_altered_none (h : s.Holds config.ns held) (hne : path ≠ []) {id : Ident}
    (hid : id ∈ held) (hpre : path <+: id.bytes) :
    (Engine.fresh config held).contains (s.altered config.ns path none) id =
      .error (.missingNode path.toHex) := by
  have hnode : (Engine.fresh config held).node (s.altered config.ns path none) id.bytes =
      .error (.missingNode path.toHex) :=
    descend_altered_none h ⟨id, hid, hpre⟩ id.bytes [] (List.length_pos_iff.mpr hne) hpre
  rw [Engine.contains, hnode]
  rfl

/-- Where one identifier was inserted, its leaf is the only place with a leaf record. -/
theorem leaf_altered {ns : UInt8} {id : Ident} (h : s.Holds ns {id}) {q value' : Bytes}
    (hlen : q.length = identLength)
    (hget : (s.altered ns id.bytes value).entries[nodeKey ns q]? = some value') :
    q = id.bytes ∧ value = some value' := by
  rw [Store.getElem?_altered] at hget
  by_cases hq : q = id.bytes
  · rw [if_pos hq] at hget
    exact ⟨hq, hget⟩
  · rw [if_neg hq, h.records] at hget
    split at hget
    · next hocc =>
        obtain ⟨other, hother, rfl⟩ := hocc.exists_mem hlen.ge
        exact absurd (congrArg Ident.bytes (Finset.mem_singleton.mp hother)) hq
    · cases hget

end Damage

/-- **A listing reads leaf records.**  The store is arbitrary and the engine was just
opened on it.  Where the description of a node fails, the listing fails with the same
error, and where there is no node it is empty.  Otherwise it succeeds if and only if
everything that is stored for leaves below the children of the node, or for the node
itself if it is a leaf, is a leaf record.  The listing then has one identifier for each
of these records, the one that the record holds, in ascending order.  Whether a leaf
that is listed by its parent has a record is not asked, nor whether the path of a
record is that of its identifier. -/
theorem listing_reads_leaf_records {config : EngineConfig} {s : Store} {e : Engine}
    (h : Engine.openOn config s = .ok e) (path : Bytes) :
    (∀ cause, e.nodeInfo s path = .error cause → e.idents s path = .error cause) ∧
      (e.nodeInfo s path = .ok none → e.idents s path = .ok []) ∧
      ∀ info, e.nodeInfo s path = .ok (some info) →
        ((∃ values, e.idents s path = .ok values) ↔ ∀ q value, info.Covers q →
          s.entries[nodeKey config.ns q]? = some value →
            ∃ id, Record.decode value = .ok (Record.leaf id)) ∧
        ∀ values, e.idents s path = .ok values → ∃ leaves : List (Bytes × Ident),
          (leaves.map (·.1)).Nodup ∧
          (∀ q id, (q, id) ∈ leaves ↔ info.Covers q ∧ s.KeepsLeaf config.ns q id) ∧
          values = Ident.sort (leaves.map (·.2)) := by
  have hopened := opened_of_openOn h
  refine ⟨fun cause hcause => ?_, fun hnone => ?_, fun info hinfo => ?_⟩
  · rw [Engine.nodeInfo] at hcause
    rw [Engine.idents]
    cases hnode : e.node s path with
    | error cause' =>
        rw [hnode] at hcause
        exact congrArg Except.error (Except.error.inj hcause)
    | ok found =>
        rw [hnode] at hcause
        cases hcause
  · rw [Engine.nodeInfo] at hnone
    rw [Engine.idents]
    cases hnode : e.node s path with
    | error cause =>
        rw [hnode] at hnone
        cases hnone
    | ok found =>
        rw [hnode] at hnone
        cases found with
        | none => rfl
        | some r => cases hnone
  · obtain ⟨_, hsucceeds, hlists⟩ := listed_of_opened hopened hinfo
    refine ⟨hsucceeds, fun values hvalues => ?_⟩
    obtain ⟨leaves, hfinds, hsort⟩ := hlists values hvalues
    exact ⟨leaves, hfinds.distinct, hfinds.mem, hsort⟩

/-- One identifier was inserted and the record of its leaf is gone.  The trie counts one
identifier, asking for it is an error, and a listing gives none. -/
theorem listing_loses_identifier :
    let before := ((System.blank {}).run (reliably [.insert (constantIdent 0)])).2.store
    let s := before.altered 8 (constantIdent 0).bytes none
    ∃ e info, Engine.openOn {} s = .ok e ∧
      e.nodeInfo s [] = .ok (some info) ∧ info.itemCount = 1 ∧ e.idents s [] = .ok [] ∧
      e.contains s (constantIdent 0) = .error (.missingNode (constantIdent 0).toHex) := by
  intro before s
  have hholds : before.Holds 8 {constantIdent 0} :=
    (System.reliably_coherent (coherent_of_opened (openedBlank_blank {})).1
      [.insert (constantIdent 0)]).store
  have hopen : Engine.openOn {} s = .ok (Engine.fresh {} {constantIdent 0}) :=
    Engine.openOn_altered hholds (by decide)
  have hgone : ∀ q value, q.length = identLength → s.entries[nodeKey 8 q]? ≠ some value :=
    fun q value hlen hget => Option.some_ne_none value (leaf_altered hholds hlen hget).2.symm
  have hinfo : (Engine.fresh {} {constantIdent 0}).nodeInfo s [] = .ok (some
      ⟨[], (canonical {constantIdent 0} []).itemCount, (canonical {constantIdent 0} []).digest,
        (canonical {constantIdent 0} []).children⟩) := rfl
  obtain ⟨_, hsucceeds, hlists⟩ := listed_of_opened (opened_of_openOn hopen) hinfo
  obtain ⟨values, hvalues⟩ :=
    hsucceeds.mpr fun q value hcovers hget => absurd hget (hgone q value hcovers.1)
  obtain ⟨leaves, hfinds, rfl⟩ := hlists values hvalues
  have hnil : leaves = [] := List.eq_nil_iff_forall_not_mem.mpr fun leaf hleaf => by
    obtain ⟨hcovers, value, hget, _⟩ := (hfinds.mem leaf.1 leaf.2).mp hleaf
    exact hgone leaf.1 value hcovers.1 hget
  have hnone : Ident.sort (leaves.map (·.2)) = [] := by
    rw [hnil]
    exact List.mergeSort_nil
  rw [hnone] at hvalues
  refine ⟨_, _, hopen, hinfo, ?_, hvalues, ?_⟩
  · dsimp only
    rw [canonical_itemCount, under_nil, Finset.card_singleton]
    rfl
  · exact contains_altered_none hholds (by decide) (Finset.mem_singleton_self _) List.prefix_rfl

/-- One identifier was inserted, and at its leaf there is now the record of another one.
Under the path of the first, the other one is listed. -/
theorem listing_reads_leaf_records_misplaced :
    let before := ((System.blank {}).run (reliably [.insert (constantIdent 0)])).2.store
    let s := before.altered 8 (constantIdent 0).bytes (some (Record.leaf (constantIdent 1)).encode)
    ∃ e, Engine.openOn {} s = .ok e ∧ e.idents s [0] = .ok [constantIdent 1] ∧
      ¬[0] <+: (constantIdent 1).bytes := by
  intro before s
  have hholds : before.Holds 8 {constantIdent 0} :=
    (System.reliably_coherent (coherent_of_opened (openedBlank_blank {})).1
      [.insert (constantIdent 0)]).store
  have hocc : ∀ path, path <+: (constantIdent 0).bytes → Occurs {constantIdent 0} path :=
    fun path hpre => ⟨constantIdent 0, Finset.mem_singleton_self _, hpre⟩
  have hopen : Engine.openOn {} s = .ok (Engine.fresh {} {constantIdent 0}) :=
    Engine.openOn_altered hholds (by decide)
  have hinfo : (Engine.fresh {} {constantIdent 0}).nodeInfo s [0] = .ok (some
      ⟨[0], (canonical {constantIdent 0} [0]).itemCount, (canonical {constantIdent 0} [0]).digest,
        (canonical {constantIdent 0} [0]).children⟩) := by
    have hchild : (Engine.fresh {} {constantIdent 0}).child s []
        (canonical {constantIdent 0} []) 0 = .ok (some (canonical {constantIdent 0} [0])) :=
      child_altered hholds (hocc [0] (List.prefix_append [0] _)) (by decide)
    have hnode : (Engine.fresh {} {constantIdent 0}).node s [0] =
        .ok (some (canonical {constantIdent 0} [0])) := by
      change Engine.descend _ s [] (canonical {constantIdent 0} []) [0] = _
      rw [Engine.descend, hchild]
      rfl
    rw [Engine.nodeInfo, hnode]
    rfl
  have hstored : ∀ q value, q.length = identLength → s.entries[nodeKey 8 q]? = some value →
      q = (constantIdent 0).bytes ∧ value = (Record.leaf (constantIdent 1)).encode :=
    fun q value hlen hget => (leaf_altered hholds hlen hget).imp_right fun hsame =>
      (Option.some.inj hsame).symm
  have hkept : s.entries[nodeKey 8 (constantIdent 0).bytes]? =
      some (Record.leaf (constantIdent 1)).encode :=
    Store.getElem?_altered.trans (if_pos rfl)
  obtain ⟨_, _, hfound⟩ := listing_reads_leaf_records hopen [0]
  obtain ⟨hsucceeds, hlists⟩ := hfound _ hinfo
  obtain ⟨values, hvalues⟩ := hsucceeds.mpr fun q value hcovers hget => by
    rw [(hstored q value hcovers.1 hget).2]
    exact ⟨_, Record.decode_encode _⟩
  obtain ⟨leaves, hdistinct, hmem, rfl⟩ := hlists values hvalues
  have hcovers : NodeInfo.Covers ⟨[0], (canonical {constantIdent 0} [0]).itemCount,
      (canonical {constantIdent 0} [0]).digest, (canonical {constantIdent 0} [0]).children⟩
        (constantIdent 0).bytes := by
    refine ⟨Ident.length_eq _, Or.inr ⟨0, ?_, List.prefix_append [0, 0] _⟩⟩
    rw [contains_canonical_children]
    exact decide_eq_true (hocc [0, 0] (List.prefix_append [0, 0] _))
  have honly : leaves = [((constantIdent 0).bytes, constantIdent 1)] := by
    refine List.perm_singleton.mp ((List.perm_ext_iff_of_nodup (List.Nodup.of_map _ hdistinct)
      (List.nodup_singleton _)).mpr fun leaf => ?_)
    rw [List.mem_singleton, hmem leaf.1 leaf.2]
    constructor
    · rintro ⟨hplace, value, hget, hvalue⟩
      obtain ⟨hpath, rfl⟩ := hstored leaf.1 value hplace.1 hget
      rw [Record.decode_encode] at hvalue
      have hid := Option.some.inj (congrArg Record.key (Except.ok.inj hvalue))
      exact Prod.ext hpath hid.symm
    · rintro rfl
      exact ⟨hcovers, _, hkept, Record.decode_encode _⟩
  have hone : Ident.sort (leaves.map (·.2)) = [constantIdent 1] := by
    rw [honly]
    exact List.mergeSort_singleton _
  rw [hone] at hvalues
  exact ⟨_, hopen, hvalues, by decide⟩

end MerkleSync
