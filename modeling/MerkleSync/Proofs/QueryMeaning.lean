import Mathlib.Data.List.Nodup
import MerkleSync.Engine.Query
import MerkleSync.Proofs.Coherence
import MerkleSync.Proofs.IdentOrder
import MerkleSync.Proofs.KeyRange

/-!
# What queries answer

An engine whose store holds and whose view shows a set answers every query as
the set alone determines, whatever is in memory.

**Results.**
* `node_of_coherent`, `contains_of_coherent`, `nodeInfo_of_coherent`: single
  nodes.
* `snapshot_of_coherent`, `divergence_of_coherent`: the trie along a path.
* `idents_of_coherent`: the members that start with a path, ascending.
-/

namespace MerkleSync

/-- The node at `path` in the trie of a set; the root is always there. -/
def nodeOf (held : Finset Ident) (path : Bytes) : Option Record :=
  if path = [] ∨ Occurs held path then some (canonical held path) else none

/-- The description of the node at `path` in the trie of a set. -/
def infoOf (held : Finset Ident) (path : Bytes) : Option NodeInfo :=
  (nodeOf held path).map fun r => ⟨path, r.itemCount, r.digest, r.children⟩

/-- The snapshot of the trie of a set from the node at `path` on. -/
def snapshotAlong (held : Finset Ident) : (path : Bytes) → (rest : Bytes) → Snapshot
  | path, [] => ⟨path, [], (canonical held path).itemCount⟩
  | path, b :: rest =>
    if Occurs held (path ++ [b]) then
      { snapshotAlong held (path ++ [b]) rest with
        siblings := (canonical held path).digestExcept b ::
          (snapshotAlong held (path ++ [b]) rest).siblings }
    else ⟨path ++ [b], [(canonical held path).digestExcept b], (canonical held path).itemCount⟩

/-- The beginning of `path` outside of which a peer with the given snapshot
digests agrees with the trie of a set. -/
def divergenceOf (held : Finset Ident) (path : Bytes) (theirs : List Digest) : Bytes :=
  if theirs.isEmpty then [] else agreement path (snapshotAlong held [] path).siblings theirs

/-- The members of a set that start with `path`, ascending. -/
noncomputable def identsOf (held : Finset Ident) (path : Bytes) : List Ident :=
  Ident.sort (under held path).toList

theorem mem_identsOf {held : Finset Ident} {path : Bytes} {id : Ident} :
    id ∈ identsOf held path ↔ id ∈ held ∧ path <+: id.bytes := by
  rw [identsOf, Ident.mem_sort, Finset.mem_toList, mem_under]

theorem ascending_identsOf (held : Finset Ident) (path : Bytes) :
    Ascending (identsOf held path) :=
  Ident.ascending_sort (Finset.nodup_toList _)

theorem nodeOf_eq_none {held : Finset Ident} {path : Bytes} (hpath : path ≠ [])
    (hocc : ¬Occurs held path) : nodeOf held path = none := by
  rw [nodeOf, if_neg (not_or.mpr ⟨hpath, hocc⟩)]

theorem infoOf_eq_some {held : Finset Ident} {path : Bytes} {info : NodeInfo}
    (h : infoOf held path = some info) :
    (path = [] ∨ Occurs held path) ∧ info.digest = (canonical held path).digest ∧
      info.children = (canonical held path).children := by
  obtain ⟨r, hnode, rfl⟩ := Option.map_eq_some_iff.mp h
  rw [nodeOf] at hnode
  split at hnode
  · next hocc =>
      obtain rfl := Option.some.inj hnode
      exact ⟨hocc, rfl, rfl⟩
  · cases hnode

theorem infoOf_eq_none {held : Finset Ident} {path : Bytes} (h : infoOf held path = none) :
    ¬Occurs held path := by
  intro hocc
  rw [infoOf, nodeOf, if_pos (Or.inr hocc)] at h
  cases h

namespace Engine

variable {e : Engine} {s : Store} {held : Finset Ident}

section Nodes

theorem child_of_coherent (h : e.Coherent s held) (path : Bytes) (b : UInt8) :
    e.child s path (canonical held path) b =
      .ok (if Occurs held (path ++ [b]) then some (canonical held (path ++ [b])) else none) := by
  rw [child, get?_canonical_children]
  by_cases hocc : Occurs held (path ++ [b])
  · rw [if_pos hocc, if_pos hocc]
    cases hget : e.view.get? (path ++ [b]) with
    | some r => simp only [h.view.eq_canonical hget]
    | none =>
        simp only [loadChild_of_holds h.store hocc]
        rfl
  · rw [if_neg hocc, if_neg hocc]

theorem descend_of_coherent (h : e.Coherent s held) :
    ∀ (rest path : Bytes), path = [] ∨ Occurs held path →
      e.descend s path (canonical held path) rest = .ok (nodeOf held (path ++ rest))
  | [], path, hpath => by rw [descend, List.append_nil, nodeOf, if_pos hpath]
  | b :: rest, path, hpath => by
      have hsplit : path ++ b :: rest = (path ++ [b]) ++ rest := by simp
      rw [descend, child_of_coherent h]
      by_cases hocc : Occurs held (path ++ [b])
      · simp only [if_pos hocc]
        rw [descend_of_coherent h rest (path ++ [b]) (Or.inr hocc), hsplit]
      · have hnot : ¬Occurs held (path ++ b :: rest) := fun hlong =>
          hocc (hlong.of_isPrefix (hsplit ▸ List.prefix_append (path ++ [b]) rest))
        simp only [if_neg hocc]
        rw [nodeOf_eq_none (by simp) hnot]

/-- **A node that is looked up** is the one of the trie. -/
theorem node_of_coherent (h : e.Coherent s held) (path : Bytes) :
    e.node s path = .ok (nodeOf held path) := by
  rw [node, h.view.root_eq]
  exact descend_of_coherent h path [] (Or.inl rfl)

/-- **Membership** is that of the set. -/
theorem contains_of_coherent (h : e.Coherent s held) (id : Ident) :
    e.contains s id = .ok (decide (id ∈ held)) := by
  have hne : id.bytes ≠ [] := by
    intro hnil
    have hlen := id.length_eq
    rw [hnil] at hlen
    cases hlen
  rw [contains, node_of_coherent h]
  by_cases hocc : Occurs held id.bytes
  · rw [nodeOf, if_pos (Or.inr hocc)]
    by_cases hid : id ∈ held
    · simp [Except.map, canonical_key, hid]
    · simp [Except.map, canonical_key, hid]
  · have hid : id ∉ held := fun hid => hocc (occurs_of_mem hid)
    rw [nodeOf_eq_none hne hocc]
    simp [Except.map, hid]

theorem nodeInfo_of_coherent (h : e.Coherent s held) (path : Bytes) :
    e.nodeInfo s path = .ok (infoOf held path) := by
  rw [nodeInfo, node_of_coherent h]
  rfl

end Nodes

section Snapshots

theorem snapshotFrom_of_coherent (h : e.Coherent s held) :
    ∀ (rest path : Bytes),
      e.snapshotFrom s path (canonical held path) rest = .ok (snapshotAlong held path rest)
  | [], path => rfl
  | b :: rest, path => by
      rw [snapshotFrom, child_of_coherent h, snapshotAlong]
      by_cases hocc : Occurs held (path ++ [b])
      · simp only [if_pos hocc]
        rw [snapshotFrom_of_coherent h rest (path ++ [b])]
        rfl
      · simp only [if_neg hocc]

/-- **Snapshots** are those of the set's trie. -/
theorem snapshot_of_coherent (h : e.Coherent s held) (path : Bytes) :
    e.snapshot s path = .ok (snapshotAlong held [] path) := by
  rw [snapshot, h.view.root_eq]
  exact snapshotFrom_of_coherent h path []

theorem divergence_of_coherent (h : e.Coherent s held) (path : Bytes) (theirs : List Digest) :
    e.divergence s path theirs = .ok (divergenceOf held path theirs) := by
  rw [divergence, divergenceOf]
  split
  · rfl
  · rw [snapshot_of_coherent h]
    rfl

end Snapshots
end Engine

section Listing

variable {held : Finset Ident}

/-- The members that are the leaves at some paths. -/
def leavesAt (held : Finset Ident) (paths : List Bytes) : List Ident :=
  paths.filterMap fun path => (canonical held path).key

theorem mem_leavesAt {paths : List Bytes} {id : Ident} :
    id ∈ leavesAt held paths ↔ id ∈ held ∧ id.bytes ∈ paths := by
  simp only [leavesAt, List.mem_filterMap, canonical_key_eq_some_iff]
  constructor
  · rintro ⟨path, hpath, hid, rfl⟩
    exact ⟨hid, hpath⟩
  · rintro ⟨hid, hpath⟩
    exact ⟨id.bytes, hpath, hid, rfl⟩

theorem nodup_leavesAt {paths : List Bytes} (h : paths.Nodup) : (leavesAt held paths).Nodup := by
  refine h.filterMap fun path other id hpath hother => ?_
  have hleft := (canonical_key_eq_some_iff.mp hpath).2
  have hright := (canonical_key_eq_some_iff.mp hother).2
  exact hleft.symm.trans hright

theorem mapM_eq_map_of_ok {α β ε : Type} {f : α → Except ε β} {g : α → β} :
    ∀ {l : List α}, (∀ a ∈ l, f a = .ok (g a)) → l.mapM f = .ok (l.map g)
  | [], _ => rfl
  | a :: rest, h => by
      have ih := mapM_eq_map_of_ok fun b hb => h b (List.mem_cons_of_mem a hb)
      rw [List.mapM_cons, h a List.mem_cons_self, ih]
      rfl

variable {s : Store} {ns : UInt8}

/-- The entries under a node's key are those of paths at and below the node. -/
theorem mem_under_nodeKey {path : Bytes} {entry : Bytes × Bytes} :
    entry ∈ s.entries.under (nodeKey ns path) ↔
      ∃ q value, path <+: q ∧ entry = (nodeKey ns q, value) ∧
        s.entries[nodeKey ns q]? = some value := by
  constructor
  · intro hentry
    obtain ⟨⟨rest, hrest⟩, hget⟩ := Table.mem_under.mp hentry
    have hkey : entry.1 = nodeKey ns (path ++ rest) := hrest.symm
    exact ⟨path ++ rest, entry.2, List.prefix_append path rest, Prod.ext hkey rfl, hkey ▸ hget⟩
  · rintro ⟨q, value, hpre, rfl, hget⟩
    exact Table.mem_under.mpr ⟨List.cons_prefix_cons.mpr ⟨rfl, hpre⟩, hget⟩

/-- Each entry under a node's key is the stored form of a node below it. -/
theorem Store.Holds.entry (h : s.Holds ns held) {path : Bytes} {entry : Bytes × Bytes}
    (hentry : entry ∈ s.entries.under (nodeKey ns path)) :
    ∃ q, path <+: q ∧ Occurs held q ∧ entry = (nodeKey ns q, (canonical held q).encode) := by
  obtain ⟨q, value, hpre, rfl, hget⟩ := mem_under_nodeKey.mp hentry
  rw [h.records] at hget
  split at hget
  · next hocc => exact ⟨q, hpre, hocc, Prod.ext rfl (Option.some.inj hget).symm⟩
  · cases hget

/-- **Entries are read** as the nodes of the trie. -/
theorem readNodes_of_holds (h : s.Holds ns held) (path : Bytes) {entries : List (Bytes × Bytes)}
    (hentries : ∀ entry ∈ entries, entry ∈ s.entries.under (nodeKey ns path)) :
    Store.readNodes entries = .ok (entries.map fun entry =>
      (entry.1.drop 1, canonical held (entry.1.drop 1))) := by
  refine mapM_eq_map_of_ok fun entry hentry => ?_
  obtain ⟨q, _, hocc, rfl⟩ := h.entry (hentries entry hentry)
  have hread := readRecord_canonical hocc (nodeKey ns q)
  exact congrArg (Except.map fun r => (q, r)) hread

/-- The paths of the leaves that a scan at `path` reads. -/
def leafPaths (s : Store) (ns : UInt8) (path : Bytes) : List Bytes :=
  ((s.entries.under (nodeKey ns path)).filter fun entry =>
    entry.1.length == identLength + 1).map fun entry => entry.1.drop 1

theorem leafIdents_of_holds (h : s.Holds ns held) (path : Bytes) :
    s.leafIdents ns path = .ok (leavesAt held (leafPaths s ns path)) := by
  have hscanned : ∀ entry ∈ (s.entries.under (nodeKey ns path)).filter (fun entry =>
      entry.1.length == identLength + 1), entry ∈ s.entries.under (nodeKey ns path) :=
    fun entry hentry => (List.mem_filter.mp hentry).1
  have hread := readNodes_of_holds h path hscanned
  rw [Store.leafIdents, Store.scan, h.reads]
  simp only [Bool.false_eq_true, if_false, hread, Except.map, leafPaths, leavesAt,
    List.filterMap_map]
  rfl

theorem mem_leafPaths_iff {path q : Bytes} : q ∈ leafPaths s ns path ↔
    path <+: q ∧ q.length = identLength ∧ ∃ value, s.entries[nodeKey ns q]? = some value := by
  simp only [leafPaths, List.mem_map, List.mem_filter, mem_under_nodeKey]
  constructor
  · rintro ⟨entry, ⟨⟨q', value, hpre, rfl, hget⟩, hlen⟩, rfl⟩
    exact ⟨hpre, Nat.succ.inj (beq_iff_eq.mp hlen), value, hget⟩
  · rintro ⟨hpre, hlen, value, hget⟩
    refine ⟨(nodeKey ns q, value), ⟨⟨q, value, hpre, rfl, hget⟩, ?_⟩, rfl⟩
    exact beq_iff_eq.mpr (congrArg Nat.succ hlen)

theorem mem_leafPaths (h : s.Holds ns held) {path : Bytes} {id : Ident} (hid : id ∈ held) :
    id.bytes ∈ leafPaths s ns path ↔ path <+: id.bytes := by
  rw [mem_leafPaths_iff, h.records, if_pos (occurs_of_mem hid)]
  exact and_iff_left ⟨id.length_eq, _, rfl⟩

theorem nodup_leafPaths (s : Store) (ns : UInt8) (path : Bytes) :
    (leafPaths s ns path).Nodup := by
  have hascending := (Table.ascending_under s.entries (nodeKey ns path)).filter fun entry =>
    entry.1.length == identLength + 1
  refine List.pairwise_map.mpr (hascending.imp_of_mem ?_)
  intro entry other hentry hother hlt heq
  obtain ⟨q, _, _, rfl, _⟩ := mem_under_nodeKey.mp (List.mem_filter.mp hentry).1
  obtain ⟨q', _, _, rfl, _⟩ := mem_under_nodeKey.mp (List.mem_filter.mp hother).1
  have hq : q = q' := heq
  rw [hq, Std.ReflOrd.compare_self] at hlt
  cases hlt

end Listing

section Frontier

variable {e : Engine} {held : Finset Ident} {path : Bytes}

/-- The nodes in memory at and below `path`, given the node there. -/
def knownNodes (e : Engine) (held : Finset Ident) (path : Bytes) : List (Bytes × Record) :=
  (path, canonical held path) :: e.view.loaded.strictlyUnder path

/-- A known node is the trie's, and all but the first are in memory. -/
theorem mem_knownNodes (hv : e.view.Shows held) {node : Bytes × Record}
    (hnode : node ∈ knownNodes e held path) :
    path <+: node.1 ∧ node.2 = canonical held node.1 ∧
      (node.1 = path ∨ (e.view.get? node.1).isSome) := by
  rcases List.mem_cons.mp hnode with rfl | hunder
  · exact ⟨List.prefix_rfl, rfl, Or.inl rfl⟩
  · obtain ⟨hpre, hne, hget⟩ := Table.mem_strictlyUnder.mp hunder
    have hnil : node.1 ≠ [] := by
      intro hnil
      rw [hnil, List.prefix_nil] at hpre
      exact hne (hnil.trans hpre.symm)
    rw [← View.get?_of_ne_nil e.view hnil] at hget
    exact ⟨hpre, hv.eq_canonical hget, Or.inr (by rw [hget]; rfl)⟩

theorem mem_knownPaths (hv : e.view.Shows held) {q : Bytes} :
    q ∈ (knownNodes e held path).map (·.1) ↔
      path <+: q ∧ (q = path ∨ (e.view.get? q).isSome) := by
  constructor
  · intro hq
    obtain ⟨node, hnode, rfl⟩ := List.mem_map.mp hq
    obtain ⟨hpre, _, hsome⟩ := mem_knownNodes hv hnode
    exact ⟨hpre, hsome⟩
  · rintro ⟨hpre, hsome⟩
    by_cases hq : q = path
    · exact hq ▸ List.mem_cons_self
    · obtain ⟨r, hget⟩ := Option.isSome_iff_exists.mp (hsome.resolve_left hq)
      have hnil : q ≠ [] := by
        rintro rfl
        exact hq (List.prefix_nil.mp hpre).symm
      rw [View.get?_of_ne_nil e.view hnil] at hget
      have hunder := Table.mem_strictlyUnder.mpr ⟨hpre, hq, hget⟩
      exact List.mem_cons_of_mem _ (List.mem_map_of_mem (f := Prod.fst) hunder)

theorem nodup_knownPaths : ((knownNodes e held path).map (·.1)).Nodup := by
  have hascending := (Table.ascending_under e.view.loaded path).filter fun entry => entry.1 != path
  refine List.nodup_cons.mpr ⟨fun hmem => ?_, List.pairwise_map.mpr (hascending.imp ?_)⟩
  · obtain ⟨entry, hentry, heq⟩ := List.mem_map.mp hmem
    exact (Table.mem_strictlyUnder.mp hentry).2.1 heq
  · intro entry other hlt heq
    rw [heq, Std.ReflOrd.compare_self] at hlt
    cases hlt

/-- **The frontier**: the children of known nodes that are not in memory. -/
theorem mem_frontier (hv : e.view.Shows held) {c : Bytes} :
    c ∈ e.frontier (knownNodes e held path) ↔
      ∃ q b, q ∈ (knownNodes e held path).map (·.1) ∧ c = q ++ [b] ∧ Occurs held c ∧
        e.view.get? c = none := by
  simp only [Engine.frontier, List.mem_mergeSort, List.mem_flatMap, List.mem_filterMap]
  constructor
  · rintro ⟨node, hnode, ⟨b, summary⟩, hchild, hc⟩
    rw [← ByteMap.get?_eq_some_iff, (mem_knownNodes hv hnode).2.1, get?_canonical_children] at hchild
    split at hchild
    · next hocc =>
        split at hc
        · cases hc
        · next hsome =>
            obtain rfl := Option.some.inj hc
            exact ⟨node.1, b, List.mem_map_of_mem (f := Prod.fst) hnode, rfl, hocc,
              Option.not_isSome_iff_eq_none.mp hsome⟩
    · cases hchild
  · rintro ⟨q, b, hq, rfl, hocc, hnone⟩
    obtain ⟨node, hnode, rfl⟩ := List.mem_map.mp hq
    refine ⟨node, hnode, (b, (canonical held (node.1 ++ [b])).summary), ?_, ?_⟩
    · rw [← ByteMap.get?_eq_some_iff, (mem_knownNodes hv hnode).2.1, get?_canonical_children,
        if_pos hocc]
    · simp [hnone]

theorem nodup_frontier (e : Engine) {nodes : List (Bytes × Record)}
    (h : (nodes.map (·.1)).Nodup) : (e.frontier nodes).Nodup := by
  have hpath : ∀ {q c : Bytes} {b : UInt8},
      (if (e.view.get? (q ++ [b])).isSome then none else some (q ++ [b])) = some c →
        q ++ [b] = c := by
    intro q c b hc
    split at hc
    · cases hc
    · exact Option.some.inj hc
  refine (List.mergeSort_perm _ _).nodup_iff.mpr (List.nodup_flatMap.mpr ⟨?_, ?_⟩)
  · intro node _
    refine List.pairwise_filterMap.mpr (node.2.children.ascending.imp fun hlt => ?_)
    intro c hc c' hc' heq
    rw [← hpath hc, ← hpath hc'] at heq
    have hb := (List.append_inj' heq rfl).2
    rw [List.singleton_inj.mp hb] at hlt
    exact UInt8.lt_irrefl _ hlt
  · refine (List.pairwise_map.mp h).imp fun hne => ?_
    intro c hc hc'
    obtain ⟨_, _, hchild⟩ := List.mem_filterMap.mp hc
    obtain ⟨_, _, hchild'⟩ := List.mem_filterMap.mp hc'
    exact hne (List.append_inj' ((hpath hchild).trans (hpath hchild').symm) rfl).1

/-- A path of the frontier is longer than `path`, and nothing below it is in
memory. -/
theorem frontier_below (hv : e.view.Shows held) {c q : Bytes}
    (hc : c ∈ e.frontier (knownNodes e held path)) (hpre : c <+: q) :
    q ∉ (knownNodes e held path).map (·.1) := by
  intro hq
  obtain ⟨start, b, hstart, rfl, _, hnone⟩ := (mem_frontier hv).mp hc
  rcases ((mem_knownPaths hv).mp hq).2 with rfl | hsome
  · have hlong := hpre.length_le
    have hshort := ((mem_knownPaths hv).mp hstart).1.length_le
    rw [List.length_append, List.length_singleton] at hlong
    omega
  · have hmem := hv.isSome_of_isPrefix hpre hsome
    rw [hnone] at hmem
    cases hmem

/-- No path of the frontier begins another one. -/
theorem frontier_incomparable (hv : e.view.Shows held) {c c' : Bytes}
    (hc : c ∈ e.frontier (knownNodes e held path))
    (hc' : c' ∈ e.frontier (knownNodes e held path)) (hpre : c <+: c') : c = c' := by
  obtain ⟨q, b, hq, rfl, _, _⟩ := (mem_frontier hv).mp hc'
  rcases List.prefix_concat_iff.mp hpre with heq | hshort
  · exact heq
  · exact absurd hq (frontier_below hv hc hshort)

/-- **Every member is met**: at a known leaf or below the frontier. -/
theorem known_or_frontier (hv : e.view.Shows held) {id : Ident} (hid : id ∈ held) (q : Bytes) :
    q <+: id.bytes → q ∈ (knownNodes e held path).map (·.1) →
      id.bytes ∈ (knownNodes e held path).map (·.1) ∨
        ∃ c ∈ e.frontier (knownNodes e held path), c <+: id.bytes := by
  induction q using path_induction with
  | leaf q hlen =>
      intro hpre hq
      have hfull : q = id.bytes := hpre.eq_of_length_le (id.length_eq.le.trans hlen)
      exact Or.inl (hfull ▸ hq)
  | node q hlen ih =>
      intro hpre hq
      obtain ⟨b, hb⟩ := exists_next hpre hlen
      cases hget : e.view.get? (q ++ [b]) with
      | some r =>
          have hlow := ((mem_knownPaths hv).mp hq).1
          refine ih b hb ((mem_knownPaths hv).mpr ⟨hlow.trans (List.prefix_append q [b]), ?_⟩)
          exact Or.inr (by rw [hget]; rfl)
      | none =>
          have hocc : Occurs held (q ++ [b]) := ⟨id, hid, hb⟩
          exact Or.inr ⟨q ++ [b], (mem_frontier hv).mpr ⟨q, b, hq, rfl, hocc, hget⟩, hb⟩

end Frontier

namespace Engine

variable {e : Engine} {s : Store} {held : Finset Ident}

theorem storedIdents_of_holds (h : s.Holds e.config.ns held) (paths : List Bytes) :
    e.storedIdents s paths =
      .ok (paths.flatMap fun path => leavesAt held (leafPaths s e.config.ns path)) := by
  have hread := mapM_eq_map_of_ok (l := paths) fun path _ => leafIdents_of_holds h path
  rw [storedIdents, hread, List.flatMap_def]
  rfl

/-- What a listing puts together: the known leaves, and those in the store below
the frontier. -/
def listing (e : Engine) (s : Store) (held : Finset Ident) (path : Bytes) : List Ident :=
  leavesAt held ((knownNodes e held path).map (·.1)) ++
    (e.frontier (knownNodes e held path)).flatMap fun c =>
      leavesAt held (leafPaths s e.config.ns c)

theorem nodup_listing (h : e.Coherent s held) (path : Bytes) :
    (listing e s held path).Nodup := by
  refine List.nodup_append.mpr ⟨nodup_leavesAt nodup_knownPaths, ?_, ?_⟩
  · refine List.nodup_flatMap.mpr ⟨fun c _ => nodup_leavesAt (nodup_leafPaths s _ c), ?_⟩
    refine (nodup_frontier e nodup_knownPaths).imp_of_mem fun hc hc' hne id hleft hright => hne ?_
    obtain ⟨hid, hleaf⟩ := mem_leavesAt.mp hleft
    have hleaf' := (mem_leavesAt.mp hright).2
    rw [mem_leafPaths h.store hid] at hleaf hleaf'
    -- two paths of the frontier that begin one member are comparable
    rcases List.prefix_or_prefix_of_prefix hleaf hleaf' with hpre | hpre
    · exact frontier_incomparable h.view hc hc' hpre
    · exact (frontier_incomparable h.view hc' hc hpre).symm
  · intro id hknown other hother heq
    subst heq
    obtain ⟨c, hc, hleaf⟩ := List.mem_flatMap.mp hother
    obtain ⟨hid, hleaf⟩ := mem_leavesAt.mp hleaf
    rw [mem_leafPaths h.store hid] at hleaf
    exact frontier_below h.view hc hleaf (mem_leavesAt.mp hknown).2

theorem mem_listing (h : e.Coherent s held) {path : Bytes} {id : Ident} :
    id ∈ listing e s held path ↔ id ∈ held ∧ path <+: id.bytes := by
  rw [listing, List.mem_append, List.mem_flatMap, mem_leavesAt]
  constructor
  · rintro (⟨hid, hknown⟩ | ⟨c, hc, hleaf⟩)
    · exact ⟨hid, ((mem_knownPaths h.view).mp hknown).1⟩
    · obtain ⟨hid, hleaf⟩ := mem_leavesAt.mp hleaf
      rw [mem_leafPaths h.store hid] at hleaf
      obtain ⟨q, b, hq, rfl, _, _⟩ := (mem_frontier h.view).mp hc
      have hlow := ((mem_knownPaths h.view).mp hq).1
      exact ⟨hid, (hlow.trans (List.prefix_append q [b])).trans hleaf⟩
  · rintro ⟨hid, hpre⟩
    rcases known_or_frontier h.view hid path hpre List.mem_cons_self with hknown | ⟨c, hc, hbelow⟩
    · exact Or.inl ⟨hid, hknown⟩
    · exact Or.inr ⟨c, hc, mem_leavesAt.mpr ⟨hid, (mem_leafPaths h.store hid).mpr hbelow⟩⟩

/-- **Listing** gives the members that start with `path`, ascending. -/
theorem idents_of_coherent (h : e.Coherent s held) (path : Bytes) :
    e.idents s path = .ok (identsOf held path) := by
  rw [idents, node_of_coherent h, nodeOf]
  by_cases hocc : path = [] ∨ Occurs held path
  · have hkeys : (knownNodes e held path).filterMap (fun node => node.2.key) =
        leavesAt held ((knownNodes e held path).map (·.1)) := by
      rw [leavesAt, List.filterMap_map]
      refine List.filterMap_congr fun node hnode => ?_
      rw [(mem_knownNodes h.view hnode).2.1]
      rfl
    have hlisted : Ident.sort (listing e s held path) = identsOf held path :=
      Ascending.ext (Ident.ascending_sort (nodup_listing h path)) (ascending_identsOf held path)
        fun id => by rw [Ident.mem_sort, mem_listing h, mem_identsOf]
    have hstored := storedIdents_of_holds h.store (e.frontier (knownNodes e held path))
    rw [if_pos hocc, ← hlisted, listing, ← hkeys]
    change (e.storedIdents s (e.frontier (knownNodes e held path))).map _ = _
    rw [hstored]
    rfl
  · have hnone : under held path = ∅ :=
      Finset.not_nonempty_iff_eq_empty.mp (mt occurs_iff.mpr (not_or.mp hocc).2)
    rw [if_neg hocc, identsOf, hnone, Finset.toList_empty]
    simp [Ident.sort]

end Engine
end MerkleSync
