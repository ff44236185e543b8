import MerkleSync.Proofs.History

/-!
# What an engine sees of its store

An engine looks at its store only through the keys of its namespace.  On two stores
with the same entries under these keys it gives the same answers, goes over to the
same state, and leaves stores of which the same is true.  Nothing is assumed of the
engine or of what is stored: records may be damaged, reads may fail, and the engine
may show what the store does not hold.

**Results.**
* `Table.under_congr`: what is read off a range depends on the keys in it only.
* `ask_eq`, `reload_eq`: queries and openings on two such stores.
* `mutate_sameIn`, `perform_sameIn`: changes, and all calls.
-/

namespace MerkleSync

/-- **What is read off a range** depends on the keys in it only. -/
theorem Table.under_congr {α : Type} {t t' : Table α} {start : Bytes}
    (h : ∀ key, start <+: key → t'[key]? = t[key]?) : t'.under start = t.under start := by
  have hirrefl : ∀ a : Bytes, ¬compare a a = .lt := by
    intro a
    rw [Std.ReflOrd.compare_self]
    decide
  have hnodup : ∀ t : Table α, (t.under start).Nodup := fun t =>
    (ascending_under t start).imp fun {a b} hlt heq => by
      subst heq
      exact hirrefl a.1 hlt
  have hmem : ∀ entry, entry ∈ t'.under start ↔ entry ∈ t.under start := by
    rintro ⟨key, value⟩
    rw [mem_under, mem_under]
    exact and_congr_right fun hpre => by rw [h key hpre]
  have hperm := (List.perm_ext_iff_of_nodup (hnodup t') (hnodup t)).mpr hmem
  refine hperm.eq_of_pairwise ?_ (ascending_under t' start) (ascending_under t start)
  intro a b _ _ hab hba
  exact absurd (Std.TransCmp.lt_trans hab hba) (hirrefl a.1)

/-- Reads of the namespace `ns` give the same on two stores. -/
structure Store.SameIn (ns : UInt8) (s s' : Store) : Prop where
  reads : s'.readsFail = s.readsFail
  entries : ∀ path, s'.entries[nodeKey ns path]? = s.entries[nodeKey ns path]?

namespace Store.SameIn

variable {ns : UInt8} {s s' : Store}

theorem refusing (h : SameIn ns s s') (refuses : Bool) :
    SameIn ns (s.refusing refuses) (s'.refusing refuses) :=
  ⟨h.reads, h.entries⟩

theorem committed (h : SameIn ns s s') (batch : Batch) :
    SameIn ns (s.committed batch) (s'.committed batch) :=
  ⟨h.reads, fun path => batch.getElem?_apply_congr (h.entries path)⟩

/-! ### Records -/

theorem get?_eq (h : SameIn ns s s') (path : Bytes) :
    s'.get? (nodeKey ns path) = s.get? (nodeKey ns path) := by
  rw [Store.get?, Store.get?, h.reads, h.entries]

/-- Every key in the range of a path has the namespace in front. -/
theorem scan_eq (h : SameIn ns s s') (path : Bytes) :
    s'.scan (nodeKey ns path) = s.scan (nodeKey ns path) := by
  have hunder : s'.entries.under (nodeKey ns path) = s.entries.under (nodeKey ns path) := by
    refine Table.under_congr fun key hpre => ?_
    obtain ⟨rest, rfl⟩ := hpre
    exact h.entries (path ++ rest)
  rw [Store.scan, Store.scan, h.reads, hunder]

theorem loadNode_eq (h : SameIn ns s s') : s'.loadNode ns = s.loadNode ns := by
  funext path
  rw [loadNode, loadNode, h.get?_eq]

theorem scanNodes_eq (h : SameIn ns s s') : s'.scanNodes ns = s.scanNodes ns := by
  funext path
  rw [scanNodes, scanNodes, h.scan_eq]

theorem leafIdents_eq (h : SameIn ns s s') : s'.leafIdents ns = s.leafIdents ns := by
  funext path
  rw [leafIdents, leafIdents, h.scan_eq]

theorem countNodes_eq (h : SameIn ns s s') : s'.countNodes ns = s.countNodes ns := by
  have hscan : s'.scan [ns] = s.scan [ns] := h.scan_eq []
  rw [countNodes, countNodes, hscan]

theorem loadChild_eq (h : SameIn ns s s') : Engine.loadChild ns s' = Engine.loadChild ns s := by
  funext path summary
  rw [Engine.loadChild, Engine.loadChild, h.loadNode_eq]

theorem materialize_eq (h : SameIn ns s s') (rest : Bytes) :
    ∀ (path : Bytes) (r : Record) (v : View),
      Engine.materialize ns s' path r rest v = Engine.materialize ns s path r rest v := by
  induction rest with
  | nil => exact fun _ _ _ => rfl
  | cons b rest ih =>
      intro path r v
      simp only [Engine.materialize, h.loadChild_eq, ih]

/-! ### Queries -/

section Queries

variable {e : Engine} (h : SameIn e.config.ns s s')

include h

theorem child_eq : e.child s' = e.child s := by
  funext path r b
  simp only [Engine.child, h.loadChild_eq]

theorem descend_eq (rest : Bytes) :
    ∀ (path : Bytes) (r : Record), e.descend s' path r rest = e.descend s path r rest := by
  induction rest with
  | nil => exact fun _ _ => rfl
  | cons b rest ih =>
      intro path r
      simp only [Engine.descend, h.child_eq, ih]

theorem node_eq : e.node s' = e.node s := by
  funext path
  exact h.descend_eq path [] e.view.root

theorem storedIdents_eq : e.storedIdents s' = e.storedIdents s := by
  funext paths
  rw [Engine.storedIdents, Engine.storedIdents, h.leafIdents_eq]

theorem snapshotFrom_eq (rest : Bytes) :
    ∀ (path : Bytes) (r : Record),
      e.snapshotFrom s' path r rest = e.snapshotFrom s path r rest := by
  induction rest with
  | nil => exact fun _ _ => rfl
  | cons b rest ih =>
      intro path r
      simp only [Engine.snapshotFrom, h.child_eq, ih]

theorem snapshot_eq : e.snapshot s' = e.snapshot s := by
  funext path
  exact h.snapshotFrom_eq path [] e.view.root

/-- **Every query** is answered alike. -/
theorem ask_eq (query : Query) : e.ask s' query = e.ask s query := by
  cases query with
  | contains id => rw [Engine.ask, Engine.ask, Engine.contains, Engine.contains, h.node_eq]
  | rootDigest => rfl
  | itemCount => rfl
  | info path => rw [Engine.ask, Engine.ask, Engine.nodeInfo, Engine.nodeInfo, h.node_eq]
  | idents path =>
      rw [Engine.ask, Engine.ask, Engine.idents, Engine.idents, h.node_eq, h.storedIdents_eq]
  | snapshot path => rw [Engine.ask, Engine.ask, h.snapshot_eq]
  | divergence path theirs =>
      rw [Engine.ask, Engine.ask, Engine.divergence, Engine.divergence, h.snapshot_eq]
  | stored =>
      rw [Engine.ask, Engine.ask, Engine.storedCount, Engine.storedCount, h.countNodes_eq]
  | verify => rw [Engine.ask, Engine.ask, Engine.verify, Engine.verify, h.scanNodes_eq]

/-- Reading the store anew gives the same engine. -/
theorem reload_eq : e.reload s' = e.reload s := by
  rw [Engine.reload, Engine.reload, h.loadNode_eq]

end Queries
end Store.SameIn

/-- Two outcomes that cannot be told apart by looking at the namespace `ns`. -/
structure Outcome.SameIn {α : Type} (ns : UInt8) (one other : Outcome α) : Prop where
  result : other.result = one.result
  engine : other.engine = one.engine
  store : one.store.SameIn ns other.store

section Calls

variable {s s' : Store}

theorem Engine.persist_sameIn {e : Engine} (h : s.SameIn e.config.ns s')
    (hcommits : s'.commitsFail = s.commitsFail) (change : Change) :
    (e.persist s change).SameIn e.config.ns (e.persist s' change) := by
  cases hcommit : s.commitsFail with
  | false =>
      rw [persist, persist, s.commit_eq_ok hcommit, s'.commit_eq_ok (hcommits.trans hcommit)]
      exact ⟨rfl, rfl, h.committed _⟩
  | true =>
      rw [persist, persist, s.commit_eq_error hcommit, s'.commit_eq_error (hcommits.trans hcommit)]
      exact ⟨rfl, rfl, h⟩

/-- **A change** on two stores that are the same in the namespace. -/
theorem Engine.mutate_sameIn {e : Engine} (h : s.SameIn e.config.ns s')
    (hcommits : s'.commitsFail = s.commitsFail)
    (compute : View → Except EngineError (Option (Record × Change))) (id : Ident) :
    (e.mutate compute s id).SameIn e.config.ns (e.mutate compute s' id) := by
  rw [mutate, mutate, h.materialize_eq]
  obtain ⟨loaded, v⟩ := materialize e.config.ns s [] e.view.root id.bytes e.view
  cases loaded with
  | error cause => exact ⟨rfl, rfl, h⟩
  | ok _ =>
      dsimp only
      rcases compute v with cause | _ | ⟨_, change⟩
      · exact ⟨rfl, rfl, h⟩
      · exact ⟨rfl, rfl, h⟩
      · exact persist_sameIn (e := { e with view := v }) h hcommits change

/-- Two systems with one engine, on stores that are the same in its namespace. -/
structure System.SameIn (ns : UInt8) (one other : System) : Prop where
  engine : other.engine = one.engine
  store : one.store.SameIn ns other.store

theorem System.opened_sameIn {ns : UInt8} {one other : System} (h : one.SameIn ns other)
    (refuses : Bool) (result : Except EngineError Engine) :
    (other.opened (other.store.refusing refuses) result).1 =
        (one.opened (one.store.refusing refuses) result).1 ∧
      (one.opened (one.store.refusing refuses) result).2.SameIn ns
        (other.opened (other.store.refusing refuses) result).2 := by
  cases result with
  | error cause => exact ⟨rfl, h.engine, h.store.refusing refuses⟩
  | ok e => exact ⟨rfl, rfl, h.store.refusing refuses⟩

/-- **Every call** is answered alike, and leads to systems of which the same is true. -/
theorem System.perform_sameIn {one other : System} (h : one.SameIn one.engine.config.ns other)
    (step : Step) :
    (other.perform step).1 = (one.perform step).1 ∧
      (one.perform step).2.SameIn one.engine.config.ns (other.perform step).2 := by
  have hs := h.store.refusing step.refuses
  obtain ⟨e, s⟩ := one
  obtain ⟨e', s'⟩ := other
  obtain rfl : e' = e := h.engine
  obtain ⟨call, refuses⟩ := step
  cases call with
  | insert id =>
      have hsame := Engine.mutate_sameIn hs rfl (fun v => v.insertion id [] v.root id.bytes) id
      exact ⟨congrArg Answer.changed hsame.result, hsame.engine, hsame.store⟩
  | delete id =>
      have hsame := Engine.mutate_sameIn hs rfl (fun v => v.deletion id [] v.root id.bytes) id
      exact ⟨congrArg Answer.changed hsame.result, hsame.engine, hsame.store⟩
  | unload path => exact ⟨rfl, rfl, hs⟩
  | loaded => exact ⟨rfl, rfl, hs⟩
  | reload =>
      rw [perform, perform]
      dsimp only
      rw [hs.reload_eq]
      exact opened_sameIn h refuses _
  | reopen threshold =>
      have hopen := hs.reload_eq (e := Engine.new ⟨e'.config.ns, threshold⟩)
      rw [perform, perform]
      dsimp only
      rw [Engine.openOn, Engine.openOn, hopen]
      exact opened_sameIn h refuses _
  | ask query => exact ⟨hs.ask_eq query, rfl, hs⟩

end Calls
end MerkleSync
