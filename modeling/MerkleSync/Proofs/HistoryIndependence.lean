import MerkleSync.Proofs.History

/-!
# Histories leave no trace

Whatever was done with an engine, and whichever commits were refused, its store
and its view are those of the trie of the identifiers that are left.  So two
histories that leave the same identifiers leave the same records.

**Results.**
* `history_independence`: store and view after any history.
-/

namespace MerkleSync

/-- **History independence.**  After any history of an engine that was opened on
a namespace without records, let `held` be what its successful changes left.
The namespace holds the stored form of the canonical record of every path that
occurs, and no other entry; each node in memory is the canonical one of its
path, as are the summaries of its children.  Any other history that leaves the
same set, in whatever namespace and store, leaves the same bytes and the same
root. -/
theorem history_independence {config : EngineConfig} {sys : System} (h : OpenedBlank config sys)
    (steps : List Step) :
    let held := setLeft ∅ (sys.run steps).1
    let last := (sys.run steps).2
    (∀ path, last.store.entries[nodeKey config.ns path]? =
        if Occurs held path then some (canonical held path).encode else none) ∧
      (∀ path r, last.engine.view.get? path = some r →
        (path = [] ∨ Occurs held path) ∧ r = canonical held path ∧
          ∀ b, r.children.get? b =
            if Occurs held (path ++ [b]) then some (canonical held (path ++ [b])).summary
            else none) ∧
      (∀ id ∈ held, canonical held id.bytes = Record.leaf id) ∧
      (∀ path, path.length < identLength →
        canonical held path = Record.ofChildren (canonicalChildren held path)) ∧
      ∀ (config' : EngineConfig) (sys' : System) (steps' : List Step), OpenedBlank config' sys' →
        setLeft ∅ (sys'.run steps').1 = held →
          (∀ path, (sys'.run steps').2.store.entries[nodeKey config'.ns path]? =
              last.store.entries[nodeKey config.ns path]?) ∧
            (sys'.run steps').2.engine.view.root = last.engine.view.root := by
  intro held last
  obtain ⟨hlast, hns⟩ := run_of_opened h steps
  have hrecords : ∀ path, last.store.entries[nodeKey config.ns path]? =
      if Occurs held path then some (canonical held path).encode else none := by
    intro path
    rw [← hns]
    exact hlast.store.records path
  refine ⟨hrecords, ?_, fun id hid => canonical_of_mem hid,
    fun path hlen => canonical_of_lt held hlen, ?_⟩
  · intro path r hget
    obtain ⟨hocc, hr⟩ := hlast.view.node path r hget
    refine ⟨hocc, hr, fun b => ?_⟩
    rw [hr]
    exact get?_canonical_children held path b
  · intro config' sys' steps' h' hsame
    obtain ⟨hlast', hns'⟩ := run_of_opened h' steps'
    rw [hsame] at hlast'
    constructor
    · intro path
      rw [hrecords, ← hns']
      exact hlast'.store.records path
    · exact hlast'.view.root_eq.trans hlast.view.root_eq.symm

/-- Two identifiers inserted in either order, into two namespaces.  Both are held in either
one, each with its record, and there is no record on a path that begins neither. -/
theorem history_independence_two_orders :
    let one := System.blank {}
    let other := System.blank { ns := 255, unloadThreshold := some 0 }
    let calls := [Call.insert (constantIdent 0), Call.insert (constantIdent 7)]
    let last := (one.run (reliably calls)).2
    let last' := (other.run (reliably calls.reverse)).2
    OpenedBlank {} one ∧ OpenedBlank { ns := 255, unloadThreshold := some 0 } other ∧
      setLeft ∅ (one.run (reliably calls)).1 = {constantIdent 0, constantIdent 7} ∧
      setLeft ∅ (other.run (reliably calls.reverse)).1 = {constantIdent 0, constantIdent 7} ∧
      (∀ id ∈ ({constantIdent 0, constantIdent 7} : Finset Ident),
        last.store.entries[nodeKey 8 id.bytes]? = some (Record.leaf id).encode) ∧
      last.store.entries[nodeKey 8 [1]]? = none ∧
      (∀ path, last'.store.entries[nodeKey 255 path]? = last.store.entries[nodeKey 8 path]?) ∧
      last'.engine.view.root = last.engine.view.root := by
  intro one other calls last last'
  have hone : OpenedBlank {} one := openedBlank_blank {}
  have hother : OpenedBlank { ns := 255, unloadThreshold := some 0 } other := openedBlank_blank _
  have hheld : setLeft ∅ (one.run (reliably calls)).1 = {constantIdent 0, constantIdent 7} := by
    rw [System.setLeft_reliably (coherent_of_opened hone).1]
    decide
  have hheld' : setLeft ∅ (other.run (reliably calls.reverse)).1 =
      {constantIdent 0, constantIdent 7} := by
    rw [System.setLeft_reliably (coherent_of_opened hother).1]
    decide
  obtain ⟨hrecords, _, hleaves, _, hsame⟩ := history_independence hone (reliably calls)
  obtain ⟨hentries, hroot⟩ := hsame _ other (reliably calls.reverse) hother (hheld'.trans hheld.symm)
  rw [hheld] at hrecords hleaves
  refine ⟨hone, hother, hheld, hheld', fun id hid => ?_, ?_, hentries, hroot⟩
  · have hocc : Occurs {constantIdent 0, constantIdent 7} id.bytes := ⟨id, hid, List.prefix_rfl⟩
    rw [← hleaves id hid]
    exact (hrecords id.bytes).trans (if_pos hocc)
  · have hoff : ¬Occurs {constantIdent 0, constantIdent 7} [1] := by
      rintro ⟨id, hid, hstart⟩
      have hnone : ∀ id ∈ ({constantIdent 0, constantIdent 7} : Finset Ident),
          ¬[1] <+: id.bytes := by
        decide
      exact hnone id hid hstart
    exact (hrecords [1]).trans (if_neg hoff)

end MerkleSync
