import MerkleSync.Session
import MerkleSync.Proofs.Divergence

/-!
# What a session computes

Between two tries that do not change, and with answers of the peer that are
right, a session has no choice: its report is a function of the two sets, the
settings and the path.  It is written down here without states and errors.  The
session comes to it whenever it ends with a report; and it does end with one if
no read fails and all answers come in time.

A peer may be a transport or keep a record of what it is asked, so its answers
are only known for the requests that such a session makes, and from states that
the session keeps to.

**Results.**
* `reaches_pure`, `reaches_bind`: computations that may fail for one reason.
* `follows_bind`: computations whose result is known from some states.
* `visit_follows`, `walk_follows`: the steps of a session.
* `run_follows`: a session comes to `reportOf`.
* `run_gives`: with a peer that answers in time it does so from every state.
* `serves_asPeer`: an engine, asked directly, serves as a peer.
-/

namespace MerkleSync

section Sets

variable (A B : Finset Ident)

/-- Those of some identifiers that are not in `A`, in front of `found`. -/
def lackingOf (found ids : List Ident) : List Ident :=
  ids.foldl (fun found id => if id ∈ A then found else id :: found) found

/-- The visit of the node at `path` in the trie of `B` by that of `A`, where up to
`limit` identifiers are fetched outright. -/
noncomputable def visitOf (limit : Nat) (path : Bytes) : Visit :=
  match infoOf B path with
  | none => ⟨(infoOf A path).isSome, [], []⟩
  | some theirs =>
    if (infoOf A path).map (·.digest) = some theirs.digest then ⟨false, [], []⟩
    else if theirs.itemCount.toNat ≤ limit ∨ path.length = identLength then
      ⟨true, lackingOf A [] (identsOf B path), []⟩
    else ⟨true, [], differingChildren path (infoOf A path) theirs⟩

/-- The walk over queued paths with at most `budget` visits. -/
def walkOf (visit : Bytes → Visit) : (budget : Nat) → (queue : List Bytes) → Progress → Progress
  | _, [], p => p
  | 0, _ :: _, p => { p with truncated := true }
  | budget + 1, path :: queue, p =>
    walkOf visit budget (queue ++ (visit path).later) (p.add (visit path))

/-- The path from which the two tries are compared. -/
def startOf (path : Bytes) : Bytes := divergenceOf A path (snapshotAlong B [] path).siblings

/-- How far a session from `A` to `B` gets. -/
noncomputable def progressOf (config : SyncConfig) (path : Bytes) : Progress :=
  walkOf (visitOf A B (min config.identsPerFetch Limit.idents)) config.maxNodes [startOf A B path] {}

/-- The report of a session from `A` to `B`. -/
noncomputable def reportOf (config : SyncConfig) (path : Bytes) : SyncReport where
  path := path
  divergence := startOf A B path
  missing := Ident.dropRepeats (Ident.sort (progressOf A B config path).missing)
  inserted := 0
  visited := (progressOf A B config path).visited
  inSync := !(progressOf A B config path).differs && !(progressOf A B config path).truncated
  truncated := (progressOf A B config path).truncated

end Sets

/-- The requests that a session along `path` may make of a peer that holds `B`,
where up to `limit` identifiers are fetched outright. -/
inductive Asks (B : Finset Ident) (limit : Nat) (path : Bytes) : Request → Prop
  | snapshot : Asks B limit path ⟨.snapshot, path⟩
  | nodeInfo {q : Bytes} (hshort : path.length ≤ identLength → q.length ≤ identLength) :
      Asks B limit path ⟨.nodeInfo, q⟩
  | idents {q : Bytes} {theirs : NodeInfo}
      (hshort : path.length ≤ identLength → q.length ≤ identLength)
      (htheirs : infoOf B q = some theirs)
      (hfew : theirs.itemCount.toNat ≤ limit ∨ q.length = identLength) :
      Asks B limit path ⟨.idents, q⟩

/-- A peer that answers within the limit what an engine answers. -/
structure Peer.Serves {σ : Type} (far : Peer σ) (e : Engine) (s : Store) (limit : Nat) : Prop where
  snapshot : ∀ path st, ∃ reply st', (far.snapshot path).run st = (reply, st') ∧
    reply.within? limit = some ((e.snapshot s path).mapError .engine)
  nodeInfo : ∀ path st, ∃ reply st', (far.nodeInfo path).run st = (reply, st') ∧
    reply.within? limit = some ((e.nodeInfo s path).mapError .engine)
  idents : ∀ path st, ∃ reply st', (far.idents path).run st = (reply, st') ∧
    reply.within? limit = some ((e.idents s path).mapError .engine)

/-- From the state `st` the computation ends as `Q` says, or with an error, and
with an error only if `fails`. -/
structure Reaches {σ α : Type} (fails : Prop) (m : SessionM σ α) (st : σ) (Q : α → σ → Prop) :
    Prop where
  ok : ∀ a st', (ExceptT.run m).run st = (.ok a, st') → Q a st'
  error : ∀ cause st', (ExceptT.run m).run st = (.error cause, st') → fails

section Computations

variable {σ α β : Type} {fails : Prop} {st : σ}

theorem reaches_of_run {m : SessionM σ α} {Q : α → σ → Prop} {a : α} {st' : σ}
    (hrun : (ExceptT.run m).run st = (.ok a, st')) (h : Q a st') : Reaches fails m st Q where
  ok b _ hb := by
    obtain ⟨hresult, rfl⟩ := Prod.mk.inj (hrun.symm.trans hb)
    exact Except.ok.inj hresult ▸ h
  error _ _ hcause := nomatch (Prod.mk.inj (hcause.symm.trans hrun)).1

theorem reaches_of_error {m : SessionM σ α} {Q : α → σ → Prop} {cause : SyncError} {st' : σ}
    (hrun : (ExceptT.run m).run st = (.error cause, st')) (h : fails) : Reaches fails m st Q where
  ok _ _ ha := nomatch (Prod.mk.inj (hrun.symm.trans ha)).1
  error _ _ _ := h

theorem reaches_pure {a : α} {Q : α → σ → Prop} (h : Q a st) :
    Reaches fails (pure a : SessionM σ α) st Q := reaches_of_run rfl h

theorem reaches_bind {m : SessionM σ α} {f : α → SessionM σ β} {R : α → σ → Prop}
    {Q : β → σ → Prop} (hm : Reaches fails m st R)
    (hf : ∀ a st', R a st' → Reaches fails (f a) st' Q) : Reaches fails (m >>= f) st Q := by
  rcases hrun : (ExceptT.run m).run st with ⟨result, mid⟩
  cases result with
  | error cause =>
      have hend : (ExceptT.run (m >>= f)).run st = (.error cause, mid) := by
        rw [ExceptT.run_bind, StateT.run_bind, hrun]
        rfl
      exact reaches_of_error hend (hm.error cause mid hrun)
  | ok a =>
      have hrest : (ExceptT.run (m >>= f)).run st = (ExceptT.run (f a)).run mid := by
        rw [ExceptT.run_bind, StateT.run_bind, hrun]
        rfl
      have hnext := hf a mid (hm.ok a mid hrun)
      exact ⟨fun b last hb => hnext.ok b last (hrest.symm.trans hb),
        fun cause last hcause => hnext.error cause last (hrest.symm.trans hcause)⟩

theorem Reaches.imp {m : SessionM σ α} {Q R : α → σ → Prop} (h : Reaches fails m st Q)
    (himp : ∀ a st', Q a st' → R a st') : Reaches fails m st R where
  ok a st' hrun := himp a st' (h.ok a st' hrun)
  error := h.error

/-- What cannot fail ends. -/
theorem Reaches.exists_ok {m : SessionM σ α} {Q : α → σ → Prop} (h : Reaches False m st Q) :
    ∃ a st', (ExceptT.run m).run st = (.ok a, st') ∧ Q a st' := by
  rcases hrun : (ExceptT.run m).run st with ⟨result, st'⟩
  cases result with
  | error cause => exact (h.error cause st' hrun).elim
  | ok a => exact ⟨a, st', rfl, h.ok a st' hrun⟩

theorem run_ask {limit : Nat} {what : String} {request : StateM σ (Reply α)} {reply : Reply α}
    {st st' : σ} (hrun : request.run st = (reply, st')) :
    (ExceptT.run (Session.ask limit what request)).run st =
      ((reply.within? limit).getD (.error (.timeout ("waiting for peer " ++ what))), st') := by
  rw [Session.ask, ExceptT.run_mk, StateT.run_bind, hrun]
  dsimp only [bind]
  cases reply.within? limit with
  | none => rfl
  | some result => rfl

end Computations

/-- From a state with `inv` the computation returns `a` and ends in such a state
again, or fails, and the latter only if `fails`. -/
def Follows {σ α : Type} (fails : Prop) (inv : σ → Prop) (m : SessionM σ α) (a : α) : Prop :=
  ∀ st, inv st → Reaches fails m st fun a' st' => a' = a ∧ inv st'

section Known

variable {σ α β : Type} {fails : Prop} {inv : σ → Prop}

theorem follows_pure (a : α) : Follows fails inv (pure a : SessionM σ α) a :=
  fun _ hst => reaches_pure ⟨rfl, hst⟩

theorem follows_bind {m : SessionM σ α} {f : α → SessionM σ β} {a : α} {b : β}
    (hm : Follows fails inv m a) (hf : Follows fails inv (f a) b) :
    Follows fails inv (m >>= f) b := by
  intro st hst
  refine reaches_bind (hm st hst) ?_
  rintro _ st' ⟨rfl, hst'⟩
  exact hf st' hst'

/-- A read of the local trie whose answer is known. -/
theorem follows_look {read : StateM σ (Except EngineError α)} {a : α}
    (h : ∀ st, inv st → ∃ result st', read.run st = (result, st') ∧ inv st' ∧
      (result = .ok a ∨ fails ∧ ∃ cause, result = .error cause)) :
    Follows fails inv (Session.look read) a := by
  intro st hst
  obtain ⟨result, st', hread, hkept, hresult⟩ := h st hst
  have hrun : (ExceptT.run (Session.look read)).run st = (result.mapError .engine, st') := by
    rw [Session.look, ExceptT.run_mk, StateT.run_bind, hread]
    rfl
  rcases hresult with rfl | ⟨hfails, cause, rfl⟩
  · exact reaches_of_run hrun ⟨rfl, hkept⟩
  · exact reaches_of_error hrun hfails

/-- A question to the peer whose answer is known. -/
theorem follows_ask {limit : Nat} {what : String} {request : StateM σ (Reply α)} {a : α}
    (h : ∀ st, inv st → ∃ reply st', request.run st = (reply, st') ∧ inv st' ∧
      (reply.within? limit = some (.ok a) ∨
        fails ∧ ∀ a', reply.within? limit ≠ some (.ok a'))) :
    Follows fails inv (Session.ask limit what request) a := by
  intro st hst
  obtain ⟨reply, st', hrequest, hkept, hanswer⟩ := h st hst
  have hrun := @run_ask _ _ limit what _ _ _ _ hrequest
  cases hreply : reply.within? limit with
  | none =>
      rw [hreply] at hrun hanswer
      rcases hanswer with hok | ⟨hfails, _⟩
      · cases hok
      · exact reaches_of_error hrun hfails
  | some result =>
      rw [hreply] at hrun hanswer
      cases result with
      | error cause =>
          rcases hanswer with hok | ⟨hfails, _⟩
          · cases hok
          · exact reaches_of_error hrun hfails
      | ok a' =>
          rcases hanswer with hok | ⟨_, hnone⟩
          · cases hok
            exact reaches_of_run hrun ⟨rfl, hkept⟩
          · exact absurd rfl (hnone a')

end Known

/-- A session of a trie that holds `A` with a peer that holds `B`: from states with
`inv` each read gives what the sets determine, for the requests that a session
along `path` may make, or fails, and the latter only if `fails`. -/
structure Session.Between {σ : Type} (ss : Session σ) (fails : Prop) (inv : σ → Prop)
    (path : Bytes) (A B : Finset Ident) : Prop where
  divergence : ∀ q theirs,
    Follows fails inv (Session.look (ss.near.divergence q theirs)) (divergenceOf A q theirs)
  nearInfo : ∀ q, Follows fails inv (Session.look (ss.near.nodeInfo q)) (infoOf A q)
  contains : ∀ id, Follows fails inv (Session.look (ss.near.contains id)) (decide (id ∈ A))
  snapshot : ∀ q, Asks B ss.fetchLimit path ⟨.snapshot, q⟩ → Follows fails inv
    (Session.ask ss.config.timeout "snapshot" (ss.far.snapshot q)) (snapshotAlong B [] q)
  farInfo : ∀ q, Asks B ss.fetchLimit path ⟨.nodeInfo, q⟩ → Follows fails inv
    (Session.ask ss.config.timeout "metadata" (ss.far.nodeInfo q)) (infoOf B q)
  idents : ∀ q, Asks B ss.fetchLimit path ⟨.idents, q⟩ → Follows fails inv
    (Session.ask ss.config.timeout "sync ids" (ss.far.idents q)) (identsOf B q)

section Sessions

variable {σ : Type} {ss : Session σ} {fails : Prop} {inv : σ → Prop} {path : Bytes}
  {A B : Finset Ident}

theorem lacking_follows (h : ss.Between fails inv path A B) (ids found : List Ident) :
    Follows fails inv (ss.lacking found ids) (lackingOf A found ids) := by
  induction ids generalizing found with
  | nil => exact follows_pure found
  | cons id rest ih =>
      rw [Session.lacking, List.foldlM_cons, lackingOf, List.foldl_cons]
      refine follows_bind ?_ (ih _)
      refine follows_bind (h.contains id) ?_
      by_cases hid : id ∈ A
      · rw [if_pos hid, decide_eq_true hid]
        exact follows_pure found
      · rw [if_neg hid, decide_eq_false hid]
        exact follows_pure (id :: found)

/-- **A visit** comes to what the two sets determine. -/
theorem visit_follows (h : ss.Between fails inv path A B) {q : Bytes}
    (hshort : path.length ≤ identLength → q.length ≤ identLength) :
    Follows fails inv (ss.visit q) (visitOf A B ss.fetchLimit q) := by
  refine follows_bind (h.nearInfo q) ?_
  refine follows_bind (h.farInfo q (.nodeInfo hshort)) ?_
  rw [visitOf]
  cases htheirs : infoOf B q with
  | none => exact follows_pure _
  | some theirs =>
      dsimp only
      by_cases hsame : (infoOf A q).map (·.digest) = some theirs.digest
      · rw [if_pos hsame, if_pos hsame]
        exact follows_pure _
      · rw [if_neg hsame, if_neg hsame]
        by_cases hfew : theirs.itemCount.toNat ≤ ss.fetchLimit ∨ q.length = identLength
        · rw [if_pos hfew, if_pos hfew]
          refine follows_bind (h.idents q (.idents hshort htheirs hfew)) ?_
          exact follows_bind (lacking_follows h _ _) (follows_pure _)
        · rw [if_neg hfew, if_neg hfew]
          exact follows_pure _

/-- The paths that a visit leaves for later are no longer than identifiers. -/
theorem length_le_of_mem_later {limit : Nat} {q later : Bytes} (hshort : q.length ≤ identLength)
    (hlater : later ∈ (visitOf A B limit q).later) : later.length ≤ identLength := by
  rw [visitOf] at hlater
  split at hlater
  · cases hlater
  · split at hlater
    · cases hlater
    · split at hlater
      · cases hlater
      · next hmany =>
          obtain ⟨child, _, rfl⟩ := List.mem_map.mp hlater
          have hlt := Nat.lt_of_le_of_ne hshort (not_or.mp hmany).2
          rw [List.length_append, List.length_singleton]
          exact hlt

/-- **A walk** makes the visits that the two sets determine. -/
theorem walk_follows (h : ss.Between fails inv path A B) (budget : Nat) (queue : List Bytes)
    (p : Progress) (hshort : path.length ≤ identLength → ∀ q ∈ queue, q.length ≤ identLength) :
    Follows fails inv (ss.walk budget queue p)
      (walkOf (visitOf A B ss.fetchLimit) budget queue p) := by
  induction budget generalizing queue p with
  | zero =>
      cases queue with
      | nil => exact follows_pure p
      | cons q rest => exact follows_pure _
  | succ budget ih =>
      cases queue with
      | nil => exact follows_pure p
      | cons q rest =>
          refine follows_bind (visit_follows h fun hlen => hshort hlen q List.mem_cons_self)
            (ih _ _ fun hlen other hother => ?_)
          rcases List.mem_append.mp hother with hrest | hlater
          · exact hshort hlen other (List.mem_cons_of_mem q hrest)
          · exact length_le_of_mem_later (hshort hlen q List.mem_cons_self) hlater

/-- **A session** comes to its report. -/
theorem run_follows (h : ss.Between fails inv path A B) :
    Follows fails inv (ss.run path) (reportOf A B ss.config path) := by
  refine follows_bind (h.snapshot path .snapshot) ?_
  refine follows_bind (h.divergence path _) ?_
  refine follows_bind (walk_follows h ss.config.maxNodes [startOf A B path] {} ?_) (follows_pure _)
  intro hlen q hq
  rw [List.mem_singleton.mp hq]
  exact (divergenceOf_isPrefix A path _).length_le.trans hlen

end Sessions

section Engines

variable {σ α : Type} {e e' : Engine} {s s' : Store} {A B : Finset Ident} {far : Peer σ}
  {config : SyncConfig}

theorem follows_served {limit : Nat} {what : String} {request : StateM σ (Reply α)}
    {result : Except EngineError α} {a : α} (hresult : result = .ok a)
    (h : ∀ st, ∃ reply st', request.run st = (reply, st') ∧
      reply.within? limit = some (result.mapError .engine)) :
    Follows False (fun _ => True) (Session.ask limit what request) a := by
  refine follows_ask fun st _ => ?_
  obtain ⟨reply, st', hrun, hreply⟩ := h st
  rw [hresult] at hreply
  exact ⟨reply, st', hrun, trivial, Or.inl hreply⟩

theorem follows_reads {result : Except EngineError α} {a : α} {fails : Prop} {inv : σ → Prop}
    (h : result = .ok a) :
    Follows fails inv (Session.look (pure result : StateM σ (Except EngineError α))) a :=
  follows_look fun st hst => ⟨result, st, rfl, hst, Or.inl h⟩

/-- A peer that serves lets sessions be between the two sets. -/
theorem between_of_serves (h : e.Coherent s A) (h' : e'.Coherent s' B)
    (hfar : far.Serves e' s' config.timeout) (path : Bytes) :
    (e.session s far config).Between False (fun _ => True) path A B where
  divergence q theirs := follows_reads (Engine.divergence_of_coherent h q theirs)
  nearInfo q := follows_reads (Engine.nodeInfo_of_coherent h q)
  contains id := follows_reads (Engine.contains_of_coherent h id)
  snapshot q _ := follows_served (Engine.snapshot_of_coherent h' q) (hfar.snapshot q)
  farInfo q _ := follows_served (Engine.nodeInfo_of_coherent h' q) (hfar.nodeInfo q)
  idents q _ := follows_served (Engine.idents_of_coherent h' q) (hfar.idents q)

/-- **A session** gives its report from every state. -/
theorem run_gives (h : e.Coherent s A) (h' : e'.Coherent s' B)
    (hfar : far.Serves e' s' config.timeout) (path : Bytes) (st : σ) :
    ∃ st', (ExceptT.run ((e.session s far config).run path)).run st =
      (.ok (reportOf A B config path), st') := by
  have hfollows := run_follows (between_of_serves h h' hfar path) st trivial
  obtain ⟨_, st', hrun, rfl, _⟩ := hfollows.exists_ok
  exact ⟨st', hrun⟩

end Engines

section Peers

variable {σ : Type} (e : Engine) (s : Store) (limit : Nat)

/-- An engine asked directly answers at once. -/
theorem serves_asPeer : Peer.Serves (e.asPeer s : Peer σ) e s limit where
  snapshot _ st := ⟨_, st, rfl, rfl⟩
  nodeInfo _ st := ⟨_, st, rfl, rfl⟩
  idents _ st := ⟨_, st, rfl, rfl⟩

end Peers
end MerkleSync
