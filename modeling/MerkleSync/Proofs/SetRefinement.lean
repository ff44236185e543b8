import MerkleSync.Proofs.History
import MerkleSync.Proofs.IntegrityMeaning
import MerkleSync.Proofs.QueryMeaning

/-!
# An engine is a finite set

On a store that commits everything, an engine behaves as the finite set that
its insertions and deletions build up: no call fails, and every answer is the
one that the set gives.

**Results.**
* `perform_answers`: no call of a coherent system fails.
* `refines_finite_set`: all answers, after any sequence of calls.
-/

namespace MerkleSync

namespace System

variable {sys : System} {held : Finset Ident}

/-- No query of a coherent system fails. -/
theorem ask_answers {e : Engine} {s : Store} (h : e.Coherent s held) (query : Query) :
    (e.ask s query).failed = false := by
  cases query with
  | contains id =>
      rw [Engine.ask, Engine.contains_of_coherent h]
      rfl
  | rootDigest => rfl
  | itemCount => rfl
  | info path =>
      rw [Engine.ask, Engine.nodeInfo_of_coherent h]
      rfl
  | idents path =>
      rw [Engine.ask, Engine.idents_of_coherent h]
      rfl
  | snapshot path =>
      rw [Engine.ask, Engine.snapshot_of_coherent h]
      rfl
  | divergence path theirs =>
      rw [Engine.ask, Engine.divergence_of_coherent h]
      rfl
  | stored =>
      rw [Engine.ask, Engine.storedCount, Store.countNodes, Store.scan, h.store.reads]
      rfl
  | verify =>
      obtain ⟨report, hreport⟩ := Engine.verify_of_coherent h
      rw [Engine.ask, hreport]
      rfl

/-- **No call fails** while commits are accepted. -/
theorem perform_answers (h : sys.Coherent held) (call : Call) :
    (sys.perform ⟨call, false⟩).1.failed = false := by
  cases call with
  | insert id =>
      rw [perform_insert h]
      rfl
  | delete id =>
      rw [perform_delete h]
      rfl
  | unload path => rfl
  | loaded => rfl
  | reload =>
      obtain ⟨e, hrun, _, _⟩ := perform_reload h false
      rw [hrun]
      rfl
  | reopen threshold =>
      obtain ⟨e, hrun, _, _⟩ := perform_reopen h threshold false
      rw [hrun]
      rfl
  | ask query => exact ask_answers (Engine.Coherent.refusing h false) query

theorem run_answers (h : sys.Coherent held) (calls : List Call) :
    ∀ event ∈ (sys.run (reliably calls)).1, event.answer.failed = false := by
  induction calls generalizing sys held with
  | nil => exact fun event hevent => absurd hevent List.not_mem_nil
  | cons call rest ih =>
      intro event hevent
      rcases List.mem_cons.mp hevent with rfl | hlater
      · exact perform_answers h call
      · exact ih (perform_coherent h ⟨call, false⟩).1 event hlater

end System

/-- The digest of the members of a set that start with `path`. -/
def subsetDigest (held : Finset Ident) (path : Bytes) : Digest :=
  (canonical (under held path) path).digest

theorem canonical_under (held : Finset Ident) (path : Bytes) :
    canonical (under held path) path = canonical held path :=
  canonical_congr path fun id hid => by simp [mem_under, hid]

/-- The summary of a node is the digest and the number of the members below it. -/
theorem summary_canonical (held : Finset Ident) (path : Bytes) :
    (canonical held path).summary =
      ⟨subsetDigest held path, UInt64.ofNat (under held path).card⟩ := by
  rw [subsetDigest, canonical_under, ← canonical_itemCount]
  rfl

/-- **Refinement of a finite set.**  An engine is opened on a namespace without
records, and makes any calls on a store that commits everything; `held` is the
set that the insertions and deletions among them build up.  None of the calls
fails, no further call does, and each further call answers as the set says.
Counts are exact while the set has fewer than `2 ^ 64` members. -/
theorem refines_finite_set {config : EngineConfig} {sys : System} (h : OpenedBlank config sys)
    (calls : List Call) :
    let held := setAfter ∅ calls
    let last := (sys.run (reliably calls)).2
    let answer := fun call => (last.perform ⟨call, false⟩).1
    (∀ event ∈ (sys.run (reliably calls)).1, event.answer.failed = false) ∧
      (∀ call, (answer call).failed = false) ∧
      (∀ id, answer (.insert id) = .changed (.ok (decide (id ∉ held)))) ∧
      (∀ id, answer (.delete id) = .changed (.ok (decide (id ∈ held)))) ∧
      (∀ id, answer (.ask (.contains id)) = .contains (.ok (decide (id ∈ held)))) ∧
      answer (.ask .itemCount) = .itemCount (UInt64.ofNat held.card) ∧
      (held.card < 2 ^ 64 →
        ∀ path, (UInt64.ofNat (under held path).card).toNat = (under held path).card) ∧
      (∀ path, ∃ ids, answer (.ask (.idents path)) = .idents (.ok ids) ∧ Ascending ids ∧
        ∀ id, id ∈ ids ↔ id ∈ held ∧ path <+: id.bytes) ∧
      ∀ path, ∃ info, answer (.ask (.info path)) = .info (.ok info) ∧
        (info.isSome ↔ path = [] ∨ ∃ id ∈ held, path <+: id.bytes) ∧
        ∀ found, info = some found →
          found.path = path ∧
            found.itemCount = UInt64.ofNat (under held path).card ∧
            found.digest = subsetDigest held path ∧
            ∀ b, found.children.get? b =
              if ∃ id ∈ held, path ++ [b] <+: id.bytes then
                some ⟨subsetDigest held (path ++ [b]),
                  UInt64.ofNat (under held (path ++ [b])).card⟩
              else none := by
  intro held last answer
  have hstart := (coherent_of_opened h).1
  have hlast : last.Coherent held := by
    have hrun := (System.run_coherent hstart (reliably calls)).1
    rwa [System.setLeft_reliably hstart] at hrun
  have hready := Engine.Coherent.refusing hlast false
  have hask : ∀ query, answer (.ask query) = last.engine.ask (last.store.refusing false) query :=
    fun query => rfl
  refine ⟨System.run_answers hstart calls, System.perform_answers hlast,
    System.perform_insert hlast, System.perform_delete hlast, ?_, ?_, ?_, ?_, ?_⟩
  · intro id
    rw [hask, Engine.ask, Engine.contains_of_coherent hready]
  · rw [hask, Engine.ask, Engine.itemCount, hready.view.root_eq, canonical_itemCount, under_nil]
  · intro hcard path
    exact UInt64.toNat_ofNat_of_lt' ((Finset.card_filter_le held _).trans_lt hcard)
  · intro path
    refine ⟨identsOf held path, ?_, ascending_identsOf held path, fun id => mem_identsOf⟩
    rw [hask, Engine.ask, Engine.idents_of_coherent hready]
  · intro path
    refine ⟨infoOf held path, ?_, ?_, ?_⟩
    · rw [hask, Engine.ask, Engine.nodeInfo_of_coherent hready]
    · rw [infoOf, Option.isSome_map, nodeOf]
      by_cases hocc : path = [] ∨ Occurs held path
      · rw [if_pos hocc]
        exact iff_of_true rfl hocc
      · rw [if_neg hocc]
        exact iff_of_false (by simp) hocc
    · intro found hfound
      obtain ⟨r, hnode, rfl⟩ := Option.map_eq_some_iff.mp hfound
      have hr : canonical held path = r := by
        rw [nodeOf] at hnode
        split at hnode
        · exact Option.some.inj hnode
        · cases hnode
      subst hr
      refine ⟨rfl, canonical_itemCount held path, ?_, fun b => ?_⟩
      · rw [subsetDigest, canonical_under]
      · rw [← summary_canonical]
        exact get?_canonical_children held path b

/-- Two insertions with an unloading between them, and a deletion. -/
theorem refines_finite_set_after_deletion :
    let calls := [Call.insert (constantIdent 0), .unload [0], .insert (constantIdent 7),
      .delete (constantIdent 0)]
    let last := ((System.blank {}).run (reliably calls)).2
    OpenedBlank {} (System.blank {}) ∧
      (last.perform ⟨.ask (.contains (constantIdent 0)), false⟩).1 = .contains (.ok false) ∧
      (last.perform ⟨.ask (.contains (constantIdent 7)), false⟩).1 = .contains (.ok true) ∧
      (last.perform ⟨.ask .itemCount, false⟩).1 = .itemCount 1 := by
  intro calls last
  have hheld : setAfter ∅ calls = {constantIdent 7} := by decide
  obtain ⟨_, _, _, _, hcontains, hcount, _⟩ :=
    refines_finite_set (openedBlank_blank {}) calls
  rw [hheld] at hcontains hcount
  exact ⟨openedBlank_blank {}, hcontains _, hcontains _, hcount⟩

end MerkleSync
