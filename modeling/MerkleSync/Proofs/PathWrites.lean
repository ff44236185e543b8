import MerkleSync.Proofs.History

/-!
# What a mutation commits

A mutation that changes the set makes one commit.  Its batch has one change for each
beginning of the identifier, from the leaf up to the root: where members of the new set
are left the record of the new trie is put, and where none are the record is deleted.

**Approach.**  What a mutation commits cannot be read off the store that it leaves: other
batches may lead to the same store.  So the mutations are also given with the commit as a
parameter, with any effects.  With the commit of the store they are the mutations of the
engine (`insertVia_commit`, `deleteVia_commit`); with one that writes a journal they show
what is committed.

**Results.**
* `mutationBatch_eq_pathWrites`: the batch of a mutation, change by change.
* `insertVia_once`, `deleteVia_once`: whatever a commit does, a mutation that changes the set
  is one commit of this batch.
* `mutations_commit_their_path`: the statement after any history.
-/

namespace MerkleSync

/-- The changes that store the trie of `held` along the path of `id`: for each beginning
of the identifier, the longest first, the record of its node or its deletion. -/
def pathWrites (ns : UInt8) (id : Ident) (held : Finset Ident) : Batch :=
  (List.range (identLength + 1)).reverse.map fun depth =>
    if Occurs held (id.bytes.take depth) then
      .put (nodeKey ns (id.bytes.take depth)) (canonical held (id.bytes.take depth)).encode
    else .delete (nodeKey ns (id.bytes.take depth))

section Batch

variable {ns : UInt8} {id : Ident} {held : Finset Ident}

theorem changeAlong_eq_map (held : Finset Ident) (rest path : Bytes) :
    changeAlong held path rest = (List.range (rest.length + 1)).map fun depth =>
      (path ++ rest.take depth, canonical held (path ++ rest.take depth)) := by
  induction rest generalizing path with
  | nil => simp [changeAlong]
  | cons b rest ih =>
      rw [changeAlong, List.length_cons, List.range_succ_eq_map, List.map_cons, List.map_map,
        List.take_zero, List.append_nil, ih]
      refine congrArg _ (List.map_congr_left fun depth _ => ?_)
      rw [Function.comp, List.take_succ_cons, List.append_assoc, List.singleton_append]

/-- **The batch of a mutation**, change by change. -/
theorem mutationBatch_eq_pathWrites (ns : UInt8) (id : Ident) (held : Finset Ident) :
    mutationBatch ns id held = pathWrites ns id held := by
  rw [mutationBatch, Change.batch, changeAlong_eq_map, ← List.map_reverse, List.map_map,
    id.length_eq, pathWrites]
  exact List.map_congr_left fun depth _ => nodeWrite_canonical ns held (id.bytes.take depth)

theorem length_pathWrites (ns : UInt8) (id : Ident) (held : Finset Ident) :
    (pathWrites ns id held).length = 31 := by
  rw [pathWrites, List.length_map, List.length_reverse, List.length_range]
  rfl

theorem mem_pathWrites {w : Write} (h : w ∈ pathWrites ns id held) :
    ∃ path, path <+: id.bytes ∧
      w = if Occurs held path then .put (nodeKey ns path) (canonical held path).encode
        else .delete (nodeKey ns path) := by
  obtain ⟨depth, _, rfl⟩ := List.mem_map.mp h
  exact ⟨id.bytes.take depth, List.take_prefix _ _, rfl⟩

/-- Every change is about a node on the path. -/
theorem key_of_mem_pathWrites {w : Write} (h : w ∈ pathWrites ns id held) :
    ∃ path, path <+: id.bytes ∧ w.key = nodeKey ns path := by
  obtain ⟨path, hpath, rfl⟩ := mem_pathWrites h
  refine ⟨path, hpath, ?_⟩
  split
  · rfl
  · rfl

theorem delete_mem_pathWrites {key : Bytes} (h : .delete key ∈ pathWrites ns id held) :
    ∃ path, path <+: id.bytes ∧ ¬Occurs held path ∧ key = nodeKey ns path := by
  obtain ⟨path, hpath, hw⟩ := mem_pathWrites h
  split at hw
  · cases hw
  · next hnot => exact ⟨path, hpath, hnot, Write.delete.inj hw⟩

end Batch

/-- A mutation with its commit as a parameter: a function that stands for the one of the
store, with any effects. -/
abbrev Committing :=
  {m : Type → Type} → [Monad m] → (Store → Batch → m (Except StoreError Store)) →
    m (Outcome Bool)

/-- Whatever the effects of its commit are, the mutation makes one, of `batch` on the store
`s`, and then only looks at the answer. -/
def Committing.Once (via : Committing) (s : Store) (batch : Batch) : Prop :=
  ∃ settled : Except StoreError Store → Outcome Bool,
    ∀ {m : Type → Type} [Monad m] (commit : Store → Batch → m (Except StoreError Store)),
      via commit = settled <$> commit s batch

/-- The commit of the store, with the batch written to a journal. -/
def journaled (s : Store) (batch : Batch) : StateM (List Batch) (Except StoreError Store) :=
  fun journal => (s.commit batch, journal ++ [batch])

/-- **In the journal** of a mutation that makes one commit stands its batch. -/
theorem Committing.Once.run_journaled {via : Committing} {s : Store} {batch : Batch}
    (h : Once via s batch) (journal : List Batch) :
    (via journaled).run journal = (via (m := Id) Store.commit, journal ++ [batch]) := by
  obtain ⟨settled, hvia⟩ := h
  have hplain : via (m := Id) Store.commit = settled (s.commit batch) := hvia (m := Id) Store.commit
  have hjournal : via journaled = settled <$> journaled s batch := hvia journaled
  rw [hplain, hjournal]
  rfl

namespace Engine

section Commits

variable {m : Type → Type} [Monad m] (commit : Store → Batch → m (Except StoreError Store))

/-- What `persist` makes of the answer to its commit. -/
def settle (e : Engine) (s : Store) (change : Change) : Except StoreError Store → Outcome Bool
  | .error cause => ⟨.error (.ofStore cause), { e with view := e.view.unloaded }, s⟩
  | .ok s => ⟨.ok true, countMutation { e with view := e.view.applyChange change }, s⟩

/-- A mutation with its commit as a parameter. -/
def mutateVia (compute : View → Except EngineError (Option (Record × Change))) (e : Engine)
    (s : Store) (id : Ident) : m (Outcome Bool) :=
  let (loaded, view) := materialize e.config.ns s [] e.view.root id.bytes e.view
  let e := { e with view := view }
  match loaded with
  | .error cause => pure ⟨.error cause, e, s⟩
  | .ok () =>
    match compute view with
    | .error cause => pure ⟨.error cause, { e with view := view.unloaded }, s⟩
    | .ok none => pure ⟨.ok false, e, s⟩
    | .ok (some (_, change)) => e.settle s change <$> commit s (change.batch e.config.ns)

/-- An insertion with its commit as a parameter. -/
def insertVia (e : Engine) (s : Store) (id : Ident) : m (Outcome Bool) :=
  e.mutateVia commit (fun v => v.insertion id [] v.root id.bytes) s id

/-- A deletion with its commit as a parameter. -/
def deleteVia (e : Engine) (s : Store) (id : Ident) : m (Outcome Bool) :=
  e.mutateVia commit (fun v => v.deletion id [] v.root id.bytes) s id

end Commits

section Coherent

variable {e : Engine} {s : Store} {id : Ident} {held held' : Finset Ident}
  {compute : View → Except EngineError (Option (Record × Change))}

/-- With the commit of the store this is the mutation of the engine. -/
theorem mutateVia_commit (compute : View → Except EngineError (Option (Record × Change)))
    (e : Engine) (s : Store) (id : Ident) :
    e.mutateVia (m := Id) Store.commit compute s id = e.mutate compute s id := by
  rw [mutateVia, mutate]
  obtain ⟨loaded, v⟩ := materialize e.config.ns s [] e.view.root id.bytes e.view
  cases loaded with
  | error cause => rfl
  | ok _ =>
      dsimp only
      rcases compute v with cause | _ | ⟨_, change⟩
      · rfl
      · rfl
      · dsimp only
        rw [persist]
        show settle _ s change (s.commit _) = _
        cases s.commit (change.batch e.config.ns) with
        | error cause => rfl
        | ok s => rfl

theorem insertVia_commit (e : Engine) (s : Store) (id : Ident) :
    e.insertVia (m := Id) Store.commit s id = e.insert s id :=
  mutateVia_commit _ e s id

theorem deleteVia_commit (e : Engine) (s : Store) (id : Ident) :
    e.deleteVia (m := Id) Store.commit s id = e.delete s id :=
  mutateVia_commit _ e s id

/-- **One commit.**  A mutation that changes the set commits the batch of its path, once. -/
theorem mutateVia_once (h : e.Coherent s held)
    (hcompute : ∀ v : View, v.Shows held → v.Covers id held →
      compute v = .ok (some (canonical held' [], changeAlong held' [] id.bytes))) :
    Committing.Once (fun commit => e.mutateVia commit compute s id) s
      (pathWrites e.config.ns id held') := by
  obtain ⟨v, hrun, hshows, _, hcover⟩ :=
    materialize_of_shows h.store id.bytes [] e.view h.view rfl
  rw [← h.view.root_eq] at hrun
  have hchange := hcompute v hshows fun q hq => hcover q List.nil_prefix hq
  refine ⟨settle { e with view := v } s (changeAlong held' [] id.bytes), fun commit => ?_⟩
  rw [← mutationBatch_eq_pathWrites]
  simp only [mutateVia, hrun, hchange]
  rfl

theorem insertVia_once (h : e.Coherent s held) (hid : id ∉ held) :
    Committing.Once (fun commit => e.insertVia commit s id) s
      (pathWrites e.config.ns id (Insert.insert id held)) :=
  mutateVia_once h fun v hv hcov => by rw [View.insertion_compute hv hcov, if_neg hid]

theorem deleteVia_once (h : e.Coherent s held) (hid : id ∈ held) :
    Committing.Once (fun commit => e.deleteVia commit s id) s
      (pathWrites e.config.ns id (held.erase id)) :=
  mutateVia_once h fun v hv hcov => by rw [View.deletion_compute hv hcov, if_pos hid]

end Coherent
end Engine

/-- A mutation of `id` on the store `s` that leads to the set `held` commits its path:
it succeeds with a single commit, that of the changes along the path, which touches no
other key and deletes nothing that was not there.  The mutation is given by its outcome,
and by its form with the commit as a parameter. -/
structure CommitsPath (ns : UInt8) (id : Ident) (held : Finset Ident) (s : Store)
    (outcome : Outcome Bool) (via : Committing) : Prop where
  changes : outcome.result = .ok true
  runs : via (m := Id) Store.commit = outcome
  once : ∀ journal, (via journaled).run journal = (outcome, journal ++ [pathWrites ns id held])
  committed : outcome.store = s.committed (pathWrites ns id held)
  length : (pathWrites ns id held).length = 31
  others : ∀ key, (∀ path, path <+: id.bytes → key ≠ nodeKey ns path) →
    outcome.store.entries[key]? = s.entries[key]?
  existed : ∀ key, .delete key ∈ pathWrites ns id held → (s.entries[key]?).isSome

section Histories

variable {e : Engine} {s : Store} {id : Ident} {held held' : Finset Ident}

/-- Entries off the path stay what they are. -/
theorem getElem?_committed_pathWrites (s : Store) {ns : UInt8} {key : Bytes}
    (h : ∀ path, path <+: id.bytes → key ≠ nodeKey ns path) :
    (s.committed (pathWrites ns id held)).entries[key]? = s.entries[key]? := by
  refine Batch.getElem?_apply_of_ne s.entries fun w hw heq => ?_
  obtain ⟨path, hpath, hkey⟩ := key_of_mem_pathWrites hw
  exact h path hpath (heq.symm.trans hkey)

/-- **A mutation that changes the set** and is not refused commits its path. -/
theorem CommitsPath.of_ends {outcome : Outcome Bool} {via : Committing}
    (h : e.Coherent s held) (hcommit : s.commitsFail = false)
    (hends : Engine.Ends e s id held held' outcome) (hnew : held' ≠ held)
    (hruns : via (m := Id) Store.commit = outcome)
    (honce : via.Once s (pathWrites e.config.ns id held'))
    (hleft : ∀ path, path <+: id.bytes → ¬Occurs held' path → Occurs held path) :
    CommitsPath e.config.ns id held' s outcome via := by
  obtain ⟨hresult, hstore⟩ : outcome.result = .ok true ∧
      outcome.store = s.committed (pathWrites e.config.ns id held') := by
    cases hends with
    | idle hsame => exact absurd hsame hnew
    | made => exact ⟨rfl, congrArg s.committed (mutationBatch_eq_pathWrites _ _ _)⟩
    | refused _ hrefused =>
        rw [hcommit] at hrefused
        cases hrefused
  refine ⟨hresult, hruns, fun journal => ?_, hstore, length_pathWrites _ _ _, fun key hkey => ?_,
    fun key hdelete => ?_⟩
  · rw [honce.run_journaled, hruns]
  · rw [hstore, getElem?_committed_pathWrites s hkey]
  · obtain ⟨path, hpath, hnot, rfl⟩ := delete_mem_pathWrites hdelete
    rw [h.store.records, if_pos (hleft path hpath hnot)]
    rfl

/-- **Each mutation commits exactly its path.**  After any history of an engine opened on a
namespace without records, `held` being the set that it leaves, the insertion of an
identifier that is not held and the deletion of one that is make one commit of thirty-one
changes: for each beginning of the identifier, from its leaf up to the root, the record of
the new trie if members of the new set are left there, and a deletion of a record that
existed if not. -/
theorem mutations_commit_their_path {config : EngineConfig} {sys : System}
    (h : OpenedBlank config sys) (steps : List Step) (id : Ident) :
    let last := (sys.run steps).2
    let held := setLeft ∅ (sys.run steps).1
    let s := last.store.refusing false
    (id ∉ held → CommitsPath config.ns id (insert id held) s (last.engine.insert s id)
      fun commit => last.engine.insertVia commit s id) ∧
      (id ∈ held → CommitsPath config.ns id (held.erase id) s (last.engine.delete s id)
        fun commit => last.engine.deleteVia commit s id) := by
  intro last held s
  obtain ⟨hlast, hns⟩ := run_of_opened h steps
  have hready : last.engine.Coherent s held := Engine.Coherent.refusing hlast false
  rw [← hns]
  constructor
  · intro hid
    refine .of_ends hready rfl (Engine.insert_ends hready id) (Finset.insert_ne_self.mpr hid)
      (Engine.insertVia_commit _ s id) (Engine.insertVia_once hready hid) ?_
    exact fun path hpath hnot => absurd ⟨id, Finset.mem_insert_self id held, hpath⟩ hnot
  · intro hid
    refine .of_ends hready rfl (Engine.delete_ends hready id) (Finset.erase_ne_self.mpr hid)
      (Engine.deleteVia_commit _ s id) (Engine.deleteVia_once hready hid) ?_
    exact fun path hpath _ => ⟨id, hid, hpath⟩

end Histories

/-- Beside the identifier of zeros, that of sevens shares only the root: its deletion puts
the root's record and deletes the thirty others. -/
theorem mutations_commit_their_path_two_identifiers :
    let zeros := constantIdent 0
    let sevens := constantIdent 7
    let last := ((System.blank {}).run (reliably [.insert zeros, .insert sevens])).2
    let s := last.store.refusing false
    OpenedBlank {} (System.blank {}) ∧
      CommitsPath 8 sevens {zeros} s (last.engine.delete s sevens)
        (fun commit => last.engine.deleteVia commit s sevens) ∧
      (pathWrites 8 sevens {zeros}).countP (fun w => w matches .delete _) = 30 := by
  intro zeros sevens last s
  have hheld : setLeft ∅ ((System.blank {}).run (reliably [.insert zeros, .insert sevens])).1 =
      {zeros, sevens} := by
    rw [System.setLeft_reliably (coherent_of_opened (openedBlank_blank {})).1]
    decide
  obtain ⟨_, hdelete⟩ := mutations_commit_their_path (openedBlank_blank {})
    (reliably [.insert zeros, .insert sevens]) sevens
  rw [hheld] at hdelete
  have hleft : ({zeros, sevens} : Finset Ident).erase sevens = {zeros} := by decide
  rw [hleft] at hdelete
  exact ⟨openedBlank_blank {}, hdelete (by decide), by decide⟩

end MerkleSync
