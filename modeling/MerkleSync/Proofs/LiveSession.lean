import MerkleSync.Proofs.History
import MerkleSync.Proofs.SessionMeaning
import MerkleSync.Proofs.SetBinding

/-!
# Sessions between tries in use

A session holds no lock between two of its reads, so each read may find another
version of its side.  The reads of a session, on either side, are numbered as
they are made; before each one any calls are made to both systems.  A read is
answered by the engine as it is then, and an answer of the peer may also be
late, lost or replaced by an error on its way.

The state of such a session is the list of the reads made so far, the last one
first.

**Results.**
* `System.exists_held`: every version is coherent with a set of its own.
* `look_reaches`, `ask_reaches`: a read gives what the set of its version
  determines, and is added to the list.
-/

namespace MerkleSync

/-- The version of a system that read `k` finds.  The calls `calls k` are made
after the read before it. -/
def System.version (sys : System) (calls : Nat → List Step) : Nat → System
  | 0 => (sys.run (calls 0)).2
  | k + 1 => ((sys.version calls k).run (calls (k + 1))).2

/-- Whether an identifier is stored, as the engine says. -/
def System.Has (sys : System) (id : Ident) : Prop := sys.engine.contains sys.store id = .ok true

def System.Lacks (sys : System) (id : Ident) : Prop := sys.engine.contains sys.store id = .ok false

/-- What happens to an answer of the peer on its way. -/
inductive Delivery where
  | prompt
  | late (delay : Nat)
  | lost
  | failed (cause : SyncError)

namespace Delivery

def reply {α : Type} (answer : Except EngineError α) : Delivery → Reply α
  | prompt => .now (answer.mapError .engine)
  | late delay => .after delay (answer.mapError .engine)
  | lost => .never
  | failed cause => .now (.error cause)

/-- The answer is received by someone who waits up to `limit` milliseconds. -/
def InTime (limit : Nat) : Delivery → Prop
  | prompt => True
  | late delay => 0 < limit ∧ delay ≤ limit
  | lost | failed _ => False

end Delivery

/-- A read by its number, its side and what was asked. -/
inductive Read where
  | near (k : Nat) (query : Query)
  | far (k : Nat) (query : Query)

/-- Both sides of a session by their versions, and the ways of the answers. -/
structure Live where
  near : Nat → System
  far : Nat → System
  delivery : Nat → Delivery

namespace Live

variable (live : Live)

/-- The next read, of the local trie. -/
def look {α : Type} (query : Query) (answer : System → Except EngineError α) :
    StateM (List Read) (Except EngineError α) :=
  modifyGet fun log => (answer (live.near log.length), .near log.length query :: log)

/-- The next read, of the peer. -/
def serve {α : Type} (query : Query) (answer : System → Except EngineError α) :
    StateM (List Read) (Reply α) :=
  modifyGet fun log =>
    ((live.delivery log.length).reply (answer (live.far log.length)), .far log.length query :: log)

def reads : LocalReads (List Read) where
  divergence path theirs :=
    live.look (.divergence path theirs) fun sys => sys.engine.divergence sys.store path theirs
  nodeInfo path := live.look (.info path) fun sys => sys.engine.nodeInfo sys.store path
  contains id := live.look (.contains id) fun sys => sys.engine.contains sys.store id

def peer : Peer (List Read) where
  snapshot path := live.serve (.snapshot path) fun sys => sys.engine.snapshot sys.store path
  nodeInfo path := live.serve (.info path) fun sys => sys.engine.nodeInfo sys.store path
  idents path := live.serve (.idents path) fun sys => sys.engine.idents sys.store path

def session (settings : SyncConfig) : Session (List Read) := ⟨live.reads, live.peer, settings⟩

/-- The peer has the identifier at each of its answers, and the local trie lacks
it at each of its reads. -/
def MissingThroughout (log : List Read) (id : Ident) : Prop :=
  (∀ k query, .near k query ∈ log → (live.near k).Lacks id) ∧
    ∀ k query, .far k query ∈ log → (live.far k).Has id

/-- The peer had the identifier at an earlier read, of identifiers. -/
def Listed (log : List Read) (id : Ident) : Prop :=
  ∃ k path, k < log.length ∧ .far k (.idents path) ∈ log ∧ (live.far k).Has id

/-- The peer had the identifier when it was asked for identifiers, and later the
local trie lacked it when it was asked for this one. -/
def FoundMissing (log : List Read) (id : Ident) : Prop :=
  ∃ k k' path, k < k' ∧ .far k (.idents path) ∈ log ∧ (live.far k).Has id ∧
    .near k' (.contains id) ∈ log ∧ (live.near k').Lacks id

/-- The byte strings that are hashed for the versions that were read. -/
inductive Hashes (log : List Read) (scope : Bytes) : Bytes → Prop
  | near {k : Nat} {query : Query} {data : Bytes} (hread : .near k query ∈ log)
      (hdata : (live.near k).engine.Hashes (live.near k).store scope data) : Hashes log scope data
  | far {k : Nat} {query : Query} {data : Bytes} (hread : .far k query ∈ log)
      (hdata : (live.far k).engine.Hashes (live.far k).store scope data) : Hashes log scope data

section Growth

variable {live} {log log' : List Read} {id : Ident}

theorem MissingThroughout.anti (h : live.MissingThroughout log' id) (hlog : log <:+ log') :
    live.MissingThroughout log id :=
  ⟨fun k query hread => h.1 k query (hlog.subset hread),
    fun k query hread => h.2 k query (hlog.subset hread)⟩

theorem Listed.mono (h : live.Listed log id) (hlog : log <:+ log') : live.Listed log' id := by
  obtain ⟨k, path, hlt, hfetch, hhas⟩ := h
  exact ⟨k, path, hlt.trans_le hlog.length_le, hlog.subset hfetch, hhas⟩

theorem FoundMissing.mono (h : live.FoundMissing log id) (hlog : log <:+ log') :
    live.FoundMissing log' id := by
  obtain ⟨k, k', path, hlt, hfetch, hhas, hcheck, hlacks⟩ := h
  exact ⟨k, k', path, hlt, hlog.subset hfetch, hhas, hlog.subset hcheck, hlacks⟩

theorem Hashes.mono {scope data : Bytes} (h : live.Hashes log scope data) (hlog : log <:+ log') :
    live.Hashes log' scope data := by
  cases h with
  | near hread hdata => exact .near (hlog.subset hread) hdata
  | far hread hdata => exact .far (hlog.subset hread) hdata

end Growth
end Live

section Versions

variable {sys : System} {held : Finset Ident} {id : Ident}

theorem System.Coherent.has_iff (h : sys.Coherent held) : sys.Has id ↔ id ∈ held := by
  rw [Has, Engine.contains_of_coherent h, Except.ok.injEq, decide_eq_true_iff]

theorem System.Coherent.lacks_iff (h : sys.Coherent held) : sys.Lacks id ↔ id ∉ held := by
  rw [Lacks, Engine.contains_of_coherent h, Except.ok.injEq, decide_eq_false_iff_not]

/-- **Each version** is coherent with the set that the calls before it leave. -/
theorem System.exists_held (h : sys.Coherent held) (calls : Nat → List Step) :
    ∃ A : Nat → Finset Ident, ∀ k, (sys.version calls k).Coherent (A k) := by
  refine Classical.skolem.mp fun k => ?_
  induction k with
  | zero => exact ⟨_, (run_coherent h (calls 0)).1⟩
  | succ k ih =>
      obtain ⟨held, hheld⟩ := ih
      exact ⟨_, (run_coherent hheld (calls (k + 1))).1⟩

end Versions

section Reads

variable {live : Live} {fails : Prop} {limit : Nat} {log : List Read} {α : Type} {a : α}
  (query : Query) (answer : System → Except EngineError α)

theorem look_reaches (hanswer : answer (live.near log.length) = .ok a) :
    Reaches fails (Session.look (live.look query answer)) log fun a' log' =>
      a' = a ∧ log' = .near log.length query :: log := by
  have hrun : (ExceptT.run (Session.look (live.look query answer))).run log =
      ((answer (live.near log.length)).mapError .engine, .near log.length query :: log) := rfl
  rw [hanswer] at hrun
  exact reaches_of_run hrun ⟨rfl, rfl⟩

/-- Reading the peer fails only if its answer is not in time. -/
theorem ask_reaches {what : String} (htime : ¬fails → ∀ k, (live.delivery k).InTime limit)
    (hanswer : answer (live.far log.length) = .ok a) :
    Reaches fails (Session.ask limit what (live.serve query answer)) log fun a' log' =>
      a' = a ∧ log' = .far log.length query :: log := by
  have hserve : (live.serve query answer).run log =
      ((live.delivery log.length).reply (answer (live.far log.length)),
        .far log.length query :: log) := rfl
  have hrun := @run_ask _ _ limit what _ _ _ _ hserve
  have hfails : ¬(live.delivery log.length).InTime limit → fails := fun hnot => by
    by_contra hfine
    exact hnot (htime hfine log.length)
  rw [hanswer] at hrun
  cases hway : live.delivery log.length with
  | prompt =>
      rw [hway] at hrun
      exact reaches_of_run hrun ⟨rfl, rfl⟩
  | late delay =>
      rw [hway] at hrun hfails
      by_cases hwait : 0 < limit ∧ delay ≤ limit
      · simp only [Delivery.reply, Reply.within?, if_pos hwait] at hrun
        exact reaches_of_run hrun ⟨rfl, rfl⟩
      · simp only [Delivery.reply, Reply.within?, if_neg hwait] at hrun
        exact reaches_of_error hrun (hfails hwait)
  | lost =>
      rw [hway] at hrun hfails
      exact reaches_of_error hrun (hfails id)
  | failed cause =>
      rw [hway] at hrun hfails
      exact reaches_of_error hrun (hfails id)

end Reads
end MerkleSync
