import MerkleSync.Proofs.Coherence
import MerkleSync.Proofs.OrderedStore

/-!
# What a mutation does

Inserting or deleting an identifier changes the trie of the set along its path
only.  The records that a mutation computes are those of the changed set's
trie, all other records stay what they were, and so a batch that is committed
takes the store and the view from one set to the other.  A batch that is
refused leaves both with the set they had.

**Results.**
* `insertion_of_shows`, `deletion_of_shows`: the computed records are those of
  the changed set along the path.
* `getElem?_apply_congr`, `getElem?_apply_of_ne`: what a batch makes of an entry.
* `holds_apply`, `shows_applyChange`: they take the store and the view to it.
* `mutate_cases`: what a mutation may leave of any store.
* `mutate_none`, `mutate_committed`, `mutate_refused`: the three outcomes of a
  mutation of a coherent engine.
-/

namespace MerkleSync

/-- The two sets have the same members, except perhaps `id`. -/
def AgreeExcept (id : Ident) (held held' : Finset Ident) : Prop :=
  ∀ other, other ≠ id → (other ∈ held' ↔ other ∈ held)

theorem agreeExcept_insert (id : Ident) (held : Finset Ident) :
    AgreeExcept id held (insert id held) := by
  intro other hne
  simp [hne]

theorem agreeExcept_erase (id : Ident) (held : Finset Ident) :
    AgreeExcept id held (held.erase id) := by
  intro other hne
  simp [hne]

/-- The records of the trie along a path, from the node at `path` on. -/
def changeAlong (held : Finset Ident) : (path : Bytes) → (rest : Bytes) → Change
  | path, [] => [(path, canonical held path)]
  | path, b :: rest => (path, canonical held path) :: changeAlong held (path ++ [b]) rest

section Along

variable {id : Ident} {held held' : Finset Ident}

/-- Off the path of `id` the tries of the two sets are the same. -/
theorem AgreeExcept.canonical_eq (h : AgreeExcept id held held') {path : Bytes}
    (hpath : ¬path <+: id.bytes) : canonical held' path = canonical held path :=
  canonical_congr path fun other hother => h other fun heq => hpath (heq ▸ hother)

theorem AgreeExcept.occurs_iff (h : AgreeExcept id held held') {path : Bytes}
    (hpath : ¬path <+: id.bytes) : Occurs held' path ↔ Occurs held path :=
  exists_congr fun other =>
    and_congr_left fun hother => h other fun heq => hpath (heq ▸ hother)

/-- The children of a node on the path change in one place. -/
theorem AgreeExcept.ofChildren_eq (h : AgreeExcept id held held') {path : Bytes} {b : UInt8}
    (hpath : path ++ [b] <+: id.bytes) :
    Record.ofChildren
        (if (canonical held' (path ++ [b])).isEmpty then (canonical held path).children.erase b
          else (canonical held path).children.insert b (canonical held' (path ++ [b])).summary) =
      canonical held' path := by
  have hlen : path.length < identLength := by
    have hle := hpath.length_le
    rw [List.length_append, List.length_singleton, id.length_eq] at hle
    omega
  have hother : ∀ c, c ≠ b → ¬path ++ [c] <+: id.bytes :=
    fun c hc hpre => hc (next_unique hpre hpath)
  rw [canonical_of_lt held' hlen]
  refine congrArg Record.ofChildren (ByteMap.ext_get? fun c => ?_)
  rw [get?_canonicalChildren]
  by_cases hc : c = b
  · subst hc
    split
    · next hempty => rw [ByteMap.get?_erase, if_pos rfl, if_neg (canonical_isEmpty_iff.mp hempty)]
    · next hne =>
        have hocc : Occurs held' (path ++ [c]) :=
          Decidable.of_not_not fun hnot => hne (canonical_isEmpty_iff.mpr hnot)
        rw [ByteMap.get?_insert, if_pos rfl, if_pos hocc]
  · have hkeep : (canonical held path).children.get? c =
        if Occurs held' (path ++ [c]) then some (canonical held' (path ++ [c])).summary else none := by
      rw [get?_canonical_children, h.canonical_eq (hother c hc)]
      exact if_congr (h.occurs_iff (hother c hc)).symm rfl rfl
    split
    · rw [ByteMap.get?_erase, if_neg hc, hkeep]
    · rw [ByteMap.get?_insert, if_neg hc, hkeep]

theorem mem_changeAlong {node : Bytes × Record} :
    ∀ {rest path : Bytes}, node ∈ changeAlong held path rest ↔
      (path <+: node.1 ∧ node.1 <+: path ++ rest) ∧ node.2 = canonical held node.1
  | [], path => by
      rw [changeAlong, List.mem_singleton, List.append_nil]
      constructor
      · rintro rfl
        exact ⟨⟨List.prefix_rfl, List.prefix_rfl⟩, rfl⟩
      · rintro ⟨⟨hlow, hhigh⟩, hrecord⟩
        have heq : node.1 = path := hhigh.eq_of_length_le hlow.length_le
        exact Prod.ext heq (heq ▸ hrecord)
  | b :: rest, path => by
      have hsplit : path ++ b :: rest = (path ++ [b]) ++ rest := by simp
      rw [changeAlong, List.mem_cons, mem_changeAlong, hsplit]
      constructor
      · rintro (rfl | ⟨⟨hlow, hhigh⟩, hrecord⟩)
        · exact ⟨⟨List.prefix_rfl, by simp⟩, rfl⟩
        · exact ⟨⟨(List.prefix_append path [b]).trans hlow, hhigh⟩, hrecord⟩
      · rintro ⟨⟨⟨more, hmore⟩, hhigh⟩, hrecord⟩
        cases more with
        | nil =>
            left
            rw [List.append_nil] at hmore
            exact Prod.ext hmore.symm (hmore ▸ hrecord)
        | cons c more =>
            right
            rw [← hmore, List.append_assoc, List.prefix_append_right_inj, List.singleton_append,
              List.cons_prefix_cons] at hhigh
            exact ⟨⟨⟨more, by rw [← hmore, ← hhigh.1]; simp⟩,
              by rw [← hmore, hhigh.1]; simpa using hhigh.2⟩, hrecord⟩

end Along

namespace View

variable {v : View} {id : Ident} {held : Finset Ident}

/-- All nodes on the path of `id` that occur are in memory. -/
def Covers (v : View) (id : Ident) (held : Finset Ident) : Prop :=
  ∀ q, q <+: id.bytes → Occurs held q → (v.get? q).isSome

/-- The child that a mutation goes on with is the trie's, or one that holds
nothing. -/
theorem childForChange_of_shows (hv : v.Shows held) (hcov : v.Covers id held)
    {path : Bytes} {b : UInt8} (hpath : path ++ [b] <+: id.bytes) :
    v.childForChange path (canonical held path) b = .ok (canonical held (path ++ [b])) := by
  rw [childForChange, contains_canonical_children]
  by_cases hocc : Occurs held (path ++ [b])
  · obtain ⟨r, hget⟩ := Option.isSome_iff_exists.mp (hcov _ hpath hocc)
    simp only [decide_eq_true hocc, if_true, hget]
    rw [hv.eq_canonical hget]
  · rw [canonical_of_not_occurs hocc]
    simp [hocc]

/-- **Insertion** gives the records of the enlarged set along the path. -/
theorem insertion_of_shows (hv : v.Shows held) (hcov : v.Covers id held) :
    ∀ (rest path : Bytes), path ++ rest = id.bytes →
      v.insertion id path (canonical held path) rest =
        .ok (if id ∈ held then none
          else some (canonical (insert id held) path, changeAlong (insert id held) path rest))
  | [], path, hsplit => by
      rw [List.append_nil] at hsplit
      subst hsplit
      rw [insertion, canonical_key, canonical_of_mem (Finset.mem_insert_self id held)]
      by_cases hid : id ∈ held
      · simp [hid]
      · simp [hid, changeAlong, canonical_of_mem]
  | b :: rest, path, hsplit => by
      have hnext : (path ++ [b]) ++ rest = id.bytes := by simpa using hsplit
      have hpath : path ++ [b] <+: id.bytes := ⟨rest, hnext⟩
      rw [insertion, childForChange_of_shows hv hcov hpath]
      simp only [insertion_of_shows hv hcov rest (path ++ [b]) hnext]
      by_cases hid : id ∈ held
      · simp [hid]
      · have hocc : Occurs (insert id held) (path ++ [b]) :=
          ⟨id, Finset.mem_insert_self id held, hpath⟩
        have hchange := (agreeExcept_insert id held).ofChildren_eq hpath
        rw [if_neg (fun hempty => canonical_isEmpty_iff.mp hempty hocc)] at hchange
        simp only [hid, if_false, hchange, changeAlong]

/-- **Deletion** gives the records of the reduced set along the path. -/
theorem deletion_of_shows (hv : v.Shows held) (hcov : v.Covers id held) :
    ∀ (rest path : Bytes), path ++ rest = id.bytes →
      v.deletion id path (canonical held path) rest =
        .ok (if id ∈ held then
            some (canonical (held.erase id) path, changeAlong (held.erase id) path rest)
          else none)
  | [], path, hsplit => by
      rw [List.append_nil] at hsplit
      subst hsplit
      have hocc : ¬Occurs (held.erase id) id.bytes := by
        intro hocc
        obtain ⟨other, hother, heq⟩ := hocc.exists_mem id.length_eq.ge
        exact (Finset.mem_erase.mp hother).1 (Ident.ext heq)
      rw [deletion, canonical_key, changeAlong, canonical_of_not_occurs hocc]
      by_cases hid : id ∈ held
      · simp [hid]
      · simp [hid]
  | b :: rest, path, hsplit => by
      have hnext : (path ++ [b]) ++ rest = id.bytes := by simpa using hsplit
      have hpath : path ++ [b] <+: id.bytes := ⟨rest, hnext⟩
      rw [deletion, contains_canonical_children]
      by_cases hocc : Occurs held (path ++ [b])
      · simp only [decide_eq_true hocc, childForChange_of_shows hv hcov hpath,
          deletion_of_shows hv hcov rest (path ++ [b]) hnext]
        by_cases hid : id ∈ held
        · have hchange := (agreeExcept_erase id held).ofChildren_eq hpath
          simp [hid, hchange, changeAlong]
        · simp [hid]
      · have hid : id ∉ held := fun hid => hocc ⟨id, hid, hpath⟩
        simp [hocc, hid]

end View

section Batches

/-- **What a batch makes of an entry** depends on that entry only. -/
theorem Batch.getElem?_apply_congr (batch : Batch) {t t' : Table Bytes} {key : Bytes}
    (h : t'[key]? = t[key]?) : (batch.apply t')[key]? = (batch.apply t)[key]? := by
  rw [Batch.getElem?_apply, Batch.getElem?_apply, h]

theorem Write.getElem?_apply_of_ne (w : Write) (t : Table Bytes) {key : Bytes} (h : w.key ≠ key) :
    (Write.apply t w)[key]? = t[key]? := by
  rw [Write.getElem?_apply, if_neg h]

/-- **A batch changes only the entries** that it is about. -/
theorem Batch.getElem?_apply_of_ne {batch : Batch} (t : Table Bytes) {key : Bytes}
    (h : ∀ w ∈ batch, w.key ≠ key) : (batch.apply t)[key]? = t[key]? := by
  rw [Batch.getElem?_apply, valueAfter, lastWrite?_eq_none_iff.mpr h]
  rfl

theorem nodeWrite_key (ns : UInt8) (path : Bytes) (r : Record) :
    (nodeWrite ns path r).key = nodeKey ns path := by
  unfold nodeWrite
  split
  · rfl
  · rfl

/-- The change that stores a node of a trie. -/
theorem nodeWrite_canonical (ns : UInt8) (held : Finset Ident) (path : Bytes) :
    nodeWrite ns path (canonical held path) =
      if Occurs held path then .put (nodeKey ns path) (canonical held path).encode
      else .delete (nodeKey ns path) := by
  unfold nodeWrite
  by_cases hocc : Occurs held path
  · rw [if_pos hocc, if_neg fun hempty => canonical_isEmpty_iff.mp hempty hocc]
  · rw [if_neg hocc, if_pos (canonical_isEmpty_iff.mpr hocc)]

end Batches

section Effect

variable {ns : UInt8} {id : Ident} {held held' : Finset Ident}

theorem ite_ite_or {α : Type} (p q : Prop) [Decidable p] [Decidable q] (a b : α) :
    (if p then a else if q then a else b) = if q ∨ p then a else b := by
  by_cases hp : p
  · rw [if_pos hp, if_pos (Or.inr hp)]
  · rw [if_neg hp]
    exact if_congr (by simp [hp]) rfl rfl

/-- The table of a store after the records of the trie of `held'` were written
at some paths. -/
theorem getElem?_foldl_nodeWrite {change : Change}
    (hrecords : ∀ node ∈ change, node.2 = canonical held' node.1)
    (entries : Table Bytes) (path : Bytes) :
    (Batch.apply (change.map fun node => nodeWrite ns node.1 node.2) entries)[nodeKey ns path]? =
      if path ∈ change.map (·.1) then
        (if Occurs held' path then some (canonical held' path).encode else none)
      else entries[nodeKey ns path]? := by
  induction change generalizing entries with
  | nil => simp [Batch.apply]
  | cons node change ih =>
      have hnode : node.2 = canonical held' node.1 := hrecords node List.mem_cons_self
      have hrest := ih fun other hother => hrecords other (List.mem_cons_of_mem node hother)
      have hstep : (Write.apply entries (nodeWrite ns node.1 node.2))[nodeKey ns path]? =
          if path = node.1 then
            (if Occurs held' path then some (canonical held' path).encode else none)
          else entries[nodeKey ns path]? := by
        by_cases hpath : path = node.1
        · subst hpath
          rw [if_pos rfl, hnode, nodeWrite_canonical]
          by_cases hocc : Occurs held' node.1
          · rw [if_pos hocc, if_pos hocc]
            exact Std.TreeMap.getElem?_insert_self
          · rw [if_neg hocc, if_neg hocc]
            exact Std.TreeMap.getElem?_erase_self
        · rw [if_neg hpath]
          refine Write.getElem?_apply_of_ne _ entries fun hkey => hpath ?_
          rw [nodeWrite_key] at hkey
          exact (List.cons.inj hkey).2.symm
      have hbatch := hrest (Write.apply entries (nodeWrite ns node.1 node.2))
      rw [hstep] at hbatch
      simp only [Batch.apply, List.map_cons, List.foldl_cons, List.mem_cons] at hbatch ⊢
      rw [hbatch]
      exact ite_ite_or _ _ _ _

/-- The paths of a change from the root are the beginnings of the identifier. -/
theorem mem_map_changeAlong {path : Bytes} :
    path ∈ (changeAlong held [] id.bytes).map (·.1) ↔ path <+: id.bytes := by
  rw [List.mem_map]
  constructor
  · rintro ⟨node, hnode, rfl⟩
    exact (mem_changeAlong.mp hnode).1.2
  · intro hpath
    exact ⟨(path, canonical held path), mem_changeAlong.mpr ⟨⟨List.nil_prefix, hpath⟩, rfl⟩, rfl⟩

/-- **A committed change takes the store to the changed set.** -/
theorem Store.Holds.apply {s s' : Store} (hs : s.Holds ns held) (hdiff : AgreeExcept id held held')
    (hreads : s'.readsFail = false)
    (hentries : s'.entries = ((changeAlong held' [] id.bytes).batch ns).apply s.entries) :
    s'.Holds ns held' := by
  refine ⟨hreads, fun path => ?_⟩
  have hrecords : ∀ node ∈ (changeAlong held' [] id.bytes).reverse,
      node.2 = canonical held' node.1 := fun node hnode =>
    (mem_changeAlong.mp (List.mem_reverse.mp hnode)).2
  rw [hentries, Change.batch, getElem?_foldl_nodeWrite hrecords, List.map_reverse]
  simp only [List.mem_reverse, mem_map_changeAlong]
  by_cases hpath : path <+: id.bytes
  · rw [if_pos hpath]
  · rw [if_neg hpath, hs.records, hdiff.canonical_eq hpath]
    exact if_congr (hdiff.occurs_iff hpath).symm rfl rfl

theorem View.get?_applyChange {change : Change}
    (hrecords : ∀ node ∈ change, node.2 = canonical held' node.1) (v : View) (path : Bytes) :
    (v.applyChange change).get? path =
      if path ∈ change.map (·.1) then
        (if path = [] ∨ Occurs held' path then some (canonical held' path) else none)
      else v.get? path := by
  induction change generalizing v with
  | nil => simp [View.applyChange]
  | cons node change ih =>
      have hnode : node.2 = canonical held' node.1 := hrecords node List.mem_cons_self
      have hrest := ih (fun other hother => hrecords other (List.mem_cons_of_mem node hother))
        (v.set node.1 node.2)
      have hempty : node.2.isEmpty = false ↔ Occurs held' node.1 := by
        rw [hnode, Bool.eq_false_iff, ne_eq, canonical_isEmpty_iff, Decidable.not_not]
      have hset : (v.set node.1 node.2).get? path =
          if path = node.1 then
            (if path = [] ∨ Occurs held' path then some (canonical held' path) else none)
          else v.get? path := by
        rw [View.get?_set]
        by_cases hpath : path = node.1
        · subst hpath
          rw [if_pos rfl, if_pos rfl, ← hnode]
          exact if_congr (or_congr_right hempty) rfl rfl
        · rw [if_neg hpath, if_neg hpath]
      rw [hset] at hrest
      simp only [View.applyChange, List.map_cons, List.foldl_cons, List.mem_cons] at hrest ⊢
      rw [hrest]
      exact ite_ite_or _ _ _ _

/-- **The view that took a change over shows the changed set.** -/
theorem View.Shows.applyChange {v : View} (hv : v.Shows held) (hdiff : AgreeExcept id held held') :
    (v.applyChange (changeAlong held' [] id.bytes)).Shows held' := by
  have hrecords : ∀ node ∈ changeAlong held' [] id.bytes, node.2 = canonical held' node.1 :=
    fun node hnode => (mem_changeAlong.mp hnode).2
  have hget : ∀ path, (v.applyChange (changeAlong held' [] id.bytes)).get? path =
      if path <+: id.bytes then
        (if path = [] ∨ Occurs held' path then some (canonical held' path) else none)
      else v.get? path := by
    intro path
    rw [View.get?_applyChange hrecords]
    simp only [mem_map_changeAlong]
  constructor
  · intro path r hsome
    rw [hget] at hsome
    by_cases hpath : path <+: id.bytes
    · rw [if_pos hpath] at hsome
      split at hsome
      · next hocc => exact ⟨hocc, (Option.some.inj hsome).symm⟩
      · cases hsome
    · rw [if_neg hpath] at hsome
      obtain ⟨hocc, hr⟩ := hv.node path r hsome
      rw [← hdiff.occurs_iff hpath, ← hdiff.canonical_eq hpath] at *
      exact ⟨hocc, hr⟩
  · intro path b hsome
    rw [hget] at hsome ⊢
    by_cases hpath : path <+: id.bytes
    · have hocc : path = [] ∨ Occurs held' path := by
        right
        by_cases hnext : path ++ [b] <+: id.bytes
        · rw [if_pos hnext] at hsome
          split at hsome
          · next hocc => exact (hocc.resolve_left (by simp)).of_isPrefix (List.prefix_append path [b])
          · cases hsome
        · rw [if_neg hnext] at hsome
          obtain ⟨r, hget⟩ := Option.isSome_iff_exists.mp hsome
          have hocc := (hv.node _ r hget).1.resolve_left (by simp)
          exact ((hdiff.occurs_iff hnext).mpr hocc).of_isPrefix (List.prefix_append path [b])
      rw [if_pos hpath, if_pos hocc]
      rfl
    · have hnext : ¬path ++ [b] <+: id.bytes := fun hpre =>
        hpath ((List.prefix_append path [b]).trans hpre)
      rw [if_neg hnext] at hsome
      rw [if_neg hpath]
      exact hv.closed path b hsome

end Effect

/-- The store after a batch was committed to it. -/
def Store.committed (s : Store) (batch : Batch) : Store :=
  { s with entries := batch.apply s.entries, commits := s.commits + 1 }

theorem Store.commit_eq_ok (s : Store) {batch : Batch} (h : s.commitsFail = false) :
    s.commit batch = .ok (s.committed batch) := by
  rw [commit, if_neg (by simp [h])]
  rfl

theorem Store.commit_eq_error (s : Store) {batch : Batch} (h : s.commitsFail = true) :
    s.commit batch = .error (commitFailure batch) := by
  rw [commit, if_pos h]

/-- The batch of a mutation of `id` that leads to the set `held`. -/
def mutationBatch (ns : UInt8) (id : Ident) (held : Finset Ident) : Batch :=
  (changeAlong held [] id.bytes).batch ns

namespace Engine

variable {e : Engine} {s : Store} {id : Ident} {held held' : Finset Ident}
  {compute : View → Except EngineError (Option (Record × Change))}

/-- A mutation starts by bringing the whole path into memory. -/
theorem mutate_eq (h : e.Coherent s held)
    (compute : View → Except EngineError (Option (Record × Change))) (id : Ident) :
    ∃ v : View, v.Shows held ∧ v.Covers id held ∧
      (compute v = .ok none → e.mutate compute s id = ⟨.ok false, { e with view := v }, s⟩) ∧
      ∀ r change, compute v = .ok (some (r, change)) →
        e.mutate compute s id = persist { e with view := v } s change := by
  obtain ⟨v, hrun, hshows, _, hcover⟩ :=
    materialize_of_shows h.store id.bytes [] e.view h.view rfl
  rw [← h.view.root_eq] at hrun
  refine ⟨v, hshows, fun q hq => hcover q List.nil_prefix hq, fun hnone => ?_,
    fun r change hsome => ?_⟩
  · simp only [mutate, hrun, hnone]
  · simp only [mutate, hrun, hsome]

/-- **A mutation that finds nothing to do** leaves the store alone. -/
theorem mutate_none (h : e.Coherent s held)
    (hcompute : ∀ v : View, v.Shows held → v.Covers id held → compute v = .ok none) :
    ∃ e', e.mutate compute s id = ⟨.ok false, e', s⟩ ∧ e'.Coherent s held ∧
      e'.config = e.config := by
  obtain ⟨v, hshows, hcover, hidle, _⟩ := mutate_eq h compute id
  exact ⟨{ e with view := v }, hidle (hcompute v hshows hcover), ⟨h.store, hshows⟩, rfl⟩

/-- Counting a mutation keeps the view or goes back to the root. -/
theorem countMutation_cases (e : Engine) :
    e.countMutation.config = e.config ∧
      (e.countMutation.view = e.view ∨ e.countMutation.view = e.view.unloaded) := by
  unfold countMutation
  cases e.config.unloadThreshold with
  | none => exact ⟨rfl, Or.inl rfl⟩
  | some threshold =>
      dsimp only
      split
      · exact ⟨rfl, Or.inr rfl⟩
      · exact ⟨rfl, Or.inl rfl⟩

/-- **How a mutation goes**, whatever engine and store hold: it leaves the store alone, or
commits a change. -/
theorem mutate_cases (compute : View → Except EngineError (Option (Record × Change)))
    (e : Engine) (s : Store) (id : Ident) :
    ∃ e', e'.config = e.config ∧
      ((∃ result, e.mutate compute s id = ⟨result, e', s⟩) ∨
        ∃ change : Change,
          e.mutate compute s id = ⟨.ok true, e', s.committed (change.batch e.config.ns)⟩) := by
  rw [mutate]
  obtain ⟨loaded, v⟩ := materialize e.config.ns s [] e.view.root id.bytes e.view
  cases loaded with
  | error cause => exact ⟨{ e with view := v }, rfl, Or.inl ⟨_, rfl⟩⟩
  | ok _ =>
      dsimp only
      rcases compute v with cause | _ | ⟨_, change⟩
      · exact ⟨{ e with view := v.unloaded }, rfl, Or.inl ⟨_, rfl⟩⟩
      · exact ⟨{ e with view := v }, rfl, Or.inl ⟨_, rfl⟩⟩
      · dsimp only
        rw [persist]
        cases hcommit : s.commitsFail with
        | false =>
            rw [s.commit_eq_ok hcommit]
            exact ⟨countMutation { e with view := v.applyChange change },
              (countMutation_cases _).1, Or.inr ⟨change, rfl⟩⟩
        | true =>
            rw [s.commit_eq_error hcommit]
            exact ⟨{ e with view := v.unloaded }, rfl, Or.inl ⟨_, rfl⟩⟩

theorem shows_countMutation (h : e.view.Shows held) : e.countMutation.view.Shows held := by
  rcases (countMutation_cases e).2 with hview | hview
  · exact hview ▸ h
  · exact hview ▸ h.unloaded

/-- **A mutation whose batch is committed** leads to the changed set. -/
theorem mutate_committed (h : e.Coherent s held) (hdiff : AgreeExcept id held held')
    (hcompute : ∀ v : View, v.Shows held → v.Covers id held →
      compute v = .ok (some (canonical held' [], changeAlong held' [] id.bytes)))
    (hcommit : s.commitsFail = false) :
    ∃ e', e.mutate compute s id =
        ⟨.ok true, e', s.committed (mutationBatch e.config.ns id held')⟩ ∧
      e'.Coherent (s.committed (mutationBatch e.config.ns id held')) held' ∧
      e'.config = e.config := by
  obtain ⟨v, hshows, hcover, _, hchange⟩ := mutate_eq h compute id
  have hrun := hchange _ _ (hcompute v hshows hcover)
  refine ⟨countMutation
    { e with view := v.applyChange (changeAlong held' [] id.bytes) }, ?_, ⟨?_, ?_⟩, ?_⟩
  · rw [hrun]
    simp only [persist, s.commit_eq_ok hcommit]
    rfl
  · rw [(countMutation_cases _).1]
    exact h.store.apply hdiff h.store.reads rfl
  · exact shows_countMutation (hshows.applyChange hdiff)
  · rw [(countMutation_cases _).1]

/-- **A mutation whose batch is refused** leaves everything as it was. -/
theorem mutate_refused (h : e.Coherent s held)
    (hcompute : ∀ v : View, v.Shows held → v.Covers id held →
      compute v = .ok (some (canonical held' [], changeAlong held' [] id.bytes)))
    (hcommit : s.commitsFail = true) :
    ∃ e', e.mutate compute s id =
        ⟨.error (.storage (Store.commitFailure (mutationBatch e.config.ns id held'))), e', s⟩ ∧
      e'.Coherent s held ∧ e'.config = e.config := by
  obtain ⟨v, hshows, hcover, _, hchange⟩ := mutate_eq h compute id
  have hrun := hchange _ _ (hcompute v hshows hcover)
  refine ⟨{ e with view := v.unloaded }, ?_, ⟨h.store, hshows.unloaded⟩, rfl⟩
  rw [hrun]
  simp only [persist, s.commit_eq_error hcommit]
  rfl

end Engine

namespace View

variable {v : View} {id : Ident} {held : Finset Ident}

theorem insertion_compute {v : View} (hv : v.Shows held) (hcov : v.Covers id held) :
    v.insertion id [] v.root id.bytes =
      .ok (if id ∈ held then none
        else some (canonical (insert id held) [], changeAlong (insert id held) [] id.bytes)) := by
  rw [hv.root_eq]
  exact insertion_of_shows hv hcov id.bytes [] rfl

theorem deletion_compute {v : View} (hv : v.Shows held) (hcov : v.Covers id held) :
    v.deletion id [] v.root id.bytes =
      .ok (if id ∈ held then
          some (canonical (held.erase id) [], changeAlong (held.erase id) [] id.bytes)
        else none) := by
  rw [hv.root_eq]
  exact deletion_of_shows hv hcov id.bytes [] rfl

end View
end MerkleSync
