import MerkleSync.Proofs.DivergenceCut
import MerkleSync.Proofs.FaultyStore

/-!
# Sessions with any peer

A peer may answer whatever it wants: any snapshot, children that do not exist,
wrong counts and digests, no answer at all.  What it is asked is bounded
nevertheless.  The requests of a session are recorded beside the state of the
peer, and each step of the session is followed together with its record.

Each queued path is a leaf of the tree of all paths that were asked for or are
queued: none of them extends it.  So the children that a peer names for it are
new, whatever their number, and no path comes up twice.

**Results.**
* `logs_bind`: a recorded computation ends as the one that is not recorded.
* `visit_logs`: the requests of one visit.
* `Pending.visited`: the children of a visited path are new.
* `walk_keeps`, `run_keeps`: by induction, what each visit preserves holds of the
  requests of a walk, and of a session.
* `session_bounded_for_any_peer`: the requests of a session, and what it leaves.
-/

namespace MerkleSync

/-- Puts a request in front of those made before it. -/
def noted {σ β : Type} (r : Request) (reply : StateM σ β) : StateM (List Request × σ) β :=
  fun state => ((reply.run state.2).1, (r :: state.1, (reply.run state.2).2))

/-- A peer that also keeps the requests, the last one first. -/
def Peer.recorded {σ : Type} (far : Peer σ) : Peer (List Request × σ) where
  snapshot path := noted ⟨.snapshot, path⟩ (far.snapshot path)
  nodeInfo path := noted ⟨.nodeInfo, path⟩ (far.nodeInfo path)
  idents path := noted ⟨.idents, path⟩ (far.idents path)

/-- The paths that a question was asked about, the last one first. -/
def pathsAsked (question : Question) (log : List Request) : List Bytes :=
  (log.filter fun r => r.question = question).map (·.path)

/-- From the state `st`, and after the requests `log`, both computations end with
the same result and the same state, and the requests made by then are as `Q`
says. -/
def Logs {σ α : Type} (m : SessionM σ α) (recorded : SessionM (List Request × σ) α)
    (log : List Request) (st : σ) (Q : Except SyncError α → List Request → Prop) : Prop :=
  ∃ result log' st', (ExceptT.run m).run st = (result, st') ∧
    (ExceptT.run recorded).run (log, st) = (result, (log', st')) ∧ Q result log'

section Computations

variable {σ α β : Type} {log : List Request} {st : σ}

theorem logs_pure {a : α} {Q : Except SyncError α → List Request → Prop} (h : Q (.ok a) log) :
    Logs (pure a : SessionM σ α) (pure a) log st Q := ⟨.ok a, log, st, rfl, rfl, h⟩

theorem logs_bind {m : SessionM σ α} {m' : SessionM (List Request × σ) α}
    {f : α → SessionM σ β} {f' : α → SessionM (List Request × σ) β}
    {R : Except SyncError α → List Request → Prop} {Q : Except SyncError β → List Request → Prop}
    (hm : Logs m m' log st R)
    (hok : ∀ a log' st', R (.ok a) log' → Logs (f a) (f' a) log' st' Q)
    (herror : ∀ cause log', R (.error cause) log' → Q (.error cause) log') :
    Logs (m >>= f) (m' >>= f') log st Q := by
  obtain ⟨result, mid, st', hrun, hrun', hR⟩ := hm
  cases result with
  | error cause =>
      refine ⟨.error cause, mid, st', ?_, ?_, herror cause mid hR⟩
      · rw [ExceptT.run_bind, StateT.run_bind, hrun]
        rfl
      · rw [ExceptT.run_bind, StateT.run_bind, hrun']
        rfl
  | ok a =>
      obtain ⟨result, log', last, hnext, hnext', hQ⟩ := hok a mid st' hR
      refine ⟨result, log', last, ?_, ?_, hQ⟩
      · rw [ExceptT.run_bind, StateT.run_bind, hrun]
        exact hnext
      · rw [ExceptT.run_bind, StateT.run_bind, hrun']
        exact hnext'

theorem Logs.imp {m : SessionM σ α} {m' : SessionM (List Request × σ) α}
    {R Q : Except SyncError α → List Request → Prop} (h : Logs m m' log st R)
    (himp : ∀ result log', R result log' → Q result log') : Logs m m' log st Q := by
  obtain ⟨result, log', st', hrun, hrun', hR⟩ := h
  exact ⟨result, log', st', hrun, hrun', himp result log' hR⟩

/-- Reading the local trie asks the peer nothing. -/
theorem logs_look (answer : Except EngineError α) :
    Logs (Session.look (pure answer : StateM σ (Except EngineError α)))
      (Session.look (pure answer)) log st fun result log' => AtMost result answer ∧ log' = log :=
  ⟨answer.mapError .engine, log, st, rfl, rfl, (atMost_rfl answer).of_mapError _, rfl⟩

/-- Asking the peer is one request, and its result an answer that came in time. -/
theorem logs_ask (limit : Nat) (what : String) (r : Request) (request : StateM σ (Reply α)) :
    Logs (Session.ask limit what request) (Session.ask limit what (noted r request)) log st
      fun result log' => log' = r :: log ∧
        ∀ a, result = .ok a → (request.run st).1.within? limit = some (.ok a) := by
  rcases hrun : request.run st with ⟨reply, st'⟩
  have hnoted : (noted r request).run (log, st) = (reply, (r :: log, st')) := by
    change ((request.run st).1, (r :: log, (request.run st).2)) = _
    rw [hrun]
  refine ⟨_, _, _, run_ask hrun, run_ask hnoted, rfl, fun a hok => ?_⟩
  cases hreply : reply.within? limit with
  | none =>
      rw [hreply] at hok
      exact nomatch hok
  | some result =>
      rw [hreply] at hok
      exact congrArg some hok

end Computations

section Steps

variable {σ : Type} {e : Engine} {s : Store} {far : Peer σ} {settings : SyncConfig}
  {log : List Request} {st : σ}

/-- The local trie lacks each of the identifiers. -/
def Engine.LacksAll (e : Engine) (s : Store) (ids : List Ident) : Prop :=
  ∀ id ∈ ids, e.contains s id = .ok false

/-- **Checking identifiers** asks nothing and keeps those that are absent. -/
theorem lacking_logs {ids found : List Ident} (hfound : e.LacksAll s found) :
    Logs ((e.session s far settings).lacking found ids)
      ((e.session s far.recorded settings).lacking found ids) log st fun result log' =>
        log' = log ∧ ∀ missing, result = .ok missing → e.LacksAll s missing := by
  induction ids generalizing found st with
  | nil => exact logs_pure ⟨rfl, fun missing hok => Except.ok.inj hok ▸ hfound⟩
  | cons id rest ih =>
      rw [Session.lacking, Session.lacking, List.foldlM_cons, List.foldlM_cons]
      refine logs_bind (R := fun result log' =>
        log' = log ∧ ∀ missing, result = .ok missing → e.LacksAll s missing) ?_ ?_ ?_
      · refine logs_bind (logs_look (e.contains s id)) ?_ ?_
        · rintro held _ _ ⟨hread, rfl⟩
          cases held with
          | true => exact logs_pure ⟨rfl, fun missing hok => Except.ok.inj hok ▸ hfound⟩
          | false =>
              refine logs_pure ⟨rfl, fun missing hok => Except.ok.inj hok ▸ ?_⟩
              exact List.forall_mem_cons.mpr ⟨hread false rfl, hfound⟩
        · rintro cause _ ⟨_, rfl⟩
          exact ⟨rfl, by simp⟩
      · rintro found' _ st' ⟨rfl, hlacks⟩
        exact ih (hlacks found' rfl)
      · rintro cause _ ⟨rfl, _⟩
        exact ⟨rfl, by simp⟩

/-- The requests of a visit at `path` that got an answer, in front of those made
before: the description of the node and maybe the identifiers below it. -/
inductive Visited (path : Bytes) (log : List Request) : List Request → Prop
  | described : Visited path log (⟨.nodeInfo, path⟩ :: log)
  | fetched : Visited path log (⟨.idents, path⟩ :: ⟨.nodeInfo, path⟩ :: log)

/-- The paths are different children of `path`, and there are none below an
identifier. -/
def Branches (path : Bytes) (later : List Bytes) : Prop :=
  ∃ bytes : List UInt8, bytes.Nodup ∧ later = bytes.map (fun b => path ++ [b]) ∧
    (later ≠ [] → path.length ≠ identLength)

theorem branches_nil (path : Bytes) : Branches path [] :=
  ⟨[], List.nodup_nil, rfl, fun h => absurd rfl h⟩

/-- The children that differ are different ones, as a map has each byte once. -/
theorem branches_differingChildren {path : Bytes} (ours : Option NodeInfo) (theirs : NodeInfo)
    (hlen : path.length ≠ identLength) : Branches path (differingChildren path ours theirs) := by
  refine ⟨_, ?_, (List.map_map (g := fun b => path ++ [b]) (f := Prod.fst)).symm, fun _ => hlen⟩
  exact List.pairwise_map.mpr
    ((theirs.children.ascending.filter _).imp fun hlt => UInt8.ne_of_lt hlt)

/-- The requests of a visit at `path`, in front of those made before, and the paths that it
leaves for later.  If there is more to ask for, it is due to an answer with `R`. -/
inductive Warranted (R : NodeInfo → Prop) (limit : Nat) (path : Bytes) (ours : Option NodeInfo)
    (log : List Request) : List Request → List Bytes → Prop
  | described : Warranted R limit path ours log (⟨.nodeInfo, path⟩ :: log) []
  | branched {theirs : NodeInfo} (hanswer : R theirs) (hlen : path.length ≠ identLength) :
      Warranted R limit path ours log (⟨.nodeInfo, path⟩ :: log)
        (differingChildren path ours theirs)
  | fetched {theirs : NodeInfo} (hanswer : R theirs)
      (hdigest : ours.map (·.digest) ≠ some theirs.digest)
      (hfew : theirs.itemCount.toNat ≤ limit ∨ path.length = identLength) :
      Warranted R limit path ours log (⟨.idents, path⟩ :: ⟨.nodeInfo, path⟩ :: log) []

section Warrants

variable {R : NodeInfo → Prop} {limit : Nat} {path : Bytes} {ours : Option NodeInfo}
  {log' : List Request} {later : List Bytes}

theorem Warranted.visited (h : Warranted R limit path ours log log' later) :
    Visited path log log' := by
  cases h with
  | described => exact .described
  | branched => exact .described
  | fetched => exact .fetched

theorem Warranted.branches (h : Warranted R limit path ours log log' later) :
    Branches path later := by
  cases h with
  | described => exact branches_nil path
  | branched _ hlen => exact branches_differingChildren ours _ hlen
  | fetched => exact branches_nil path

end Warrants

/-- **The requests of one visit**, and what it gives. -/
theorem visit_logs {R : NodeInfo → Prop} (path : Bytes)
    (hanswers : ∀ st theirs, ((far.nodeInfo path).run st).1.within? settings.timeout =
      some (.ok (some theirs)) → R theirs) :
    Logs ((e.session s far settings).visit path) ((e.session s far.recorded settings).visit path)
      log st fun result log' =>
        (log' = log ∧ ∃ cause, result = .error cause) ∨
          ∃ ours later, e.nodeInfo s path = .ok ours ∧
            Warranted R (min settings.identsPerFetch Limit.idents) path ours log log' later ∧
            ∀ v, result = .ok v → e.LacksAll s v.missing ∧ v.later = later := by
  refine logs_bind (logs_look (e.nodeInfo s path)) ?_ ?_
  · rintro ours _ st' ⟨hread, rfl⟩
    refine logs_bind (logs_ask _ _ ⟨.nodeInfo, path⟩ (far.nodeInfo path)) ?_ ?_
    · rintro theirs _ _ ⟨rfl, hreply⟩
      cases theirs with
      | none =>
          refine logs_pure (Or.inr ⟨ours, [], hread ours rfl, .described, fun v hok => ?_⟩)
          exact Except.ok.inj hok ▸ ⟨List.forall_mem_nil _, rfl⟩
      | some theirs =>
          have hanswer : R theirs := hanswers st' theirs (hreply _ rfl)
          have hlimit : (e.session s far.recorded settings).fetchLimit =
            (e.session s far settings).fetchLimit := rfl
          dsimp only
          rw [hlimit]
          by_cases hsame : ours.map (·.digest) = some theirs.digest
          · rw [if_pos hsame, if_pos hsame]
            refine logs_pure (Or.inr ⟨ours, [], hread ours rfl, .described, fun v hok => ?_⟩)
            exact Except.ok.inj hok ▸ ⟨List.forall_mem_nil _, rfl⟩
          · rw [if_neg hsame, if_neg hsame]
            by_cases hfew : theirs.itemCount.toNat ≤ (e.session s far settings).fetchLimit ∨
                path.length = identLength
            · rw [if_pos hfew, if_pos hfew]
              refine logs_bind (logs_ask _ _ ⟨.idents, path⟩ (far.idents path)) ?_ ?_
              · rintro ids _ _ ⟨rfl, _⟩
                refine logs_bind (lacking_logs (List.forall_mem_nil _)) ?_ ?_
                · rintro missing _ _ ⟨rfl, hlacks⟩
                  refine logs_pure (Or.inr ⟨ours, [], hread ours rfl,
                    .fetched hanswer hsame hfew, fun v hok => ?_⟩)
                  exact Except.ok.inj hok ▸ ⟨hlacks missing rfl, rfl⟩
                · rintro cause _ ⟨rfl, _⟩
                  exact Or.inr ⟨ours, [], hread ours rfl, .fetched hanswer hsame hfew,
                    nofun⟩
              · rintro cause _ ⟨rfl, _⟩
                exact Or.inr ⟨ours, [], hread ours rfl, .fetched hanswer hsame hfew,
                  nofun⟩
            · rw [if_neg hfew, if_neg hfew]
              refine logs_pure (Or.inr ⟨ours, _, hread ours rfl,
                .branched hanswer (not_or.mp hfew).2, fun v hok => ?_⟩)
              exact Except.ok.inj hok ▸ ⟨List.forall_mem_nil _, rfl⟩
    · rintro cause _ ⟨rfl, _⟩
      exact Or.inr ⟨ours, [], hread ours rfl, .described, nofun⟩
  · rintro cause _ ⟨_, rfl⟩
    exact Or.inl ⟨rfl, cause, rfl⟩

end Steps

/-- What a session has asked by the time of some visits: one snapshot along `path`,
descriptions of different nodes, one for each visit, and identifiers below some
of these nodes, at most once each.  All is below `start`. -/
structure Modest (path start : Bytes) (visits : Nat) (log : List Request) : Prop where
  snapshot : pathsAsked .snapshot log = [path]
  visits : (pathsAsked .nodeInfo log).length = visits
  distinct : (pathsAsked .nodeInfo log).Nodup
  fetches : (pathsAsked .idents log).Sublist (pathsAsked .nodeInfo log)
  below : ∀ r ∈ log, start <+: r.path
  short : path.length ≤ identLength → ∀ r ∈ log, r.path.length ≤ identLength

/-- The queued paths are new, and neither a queued path nor one that was asked for
extends any of them. -/
structure Pending (path start : Bytes) (queue : List Bytes) (log : List Request) : Prop where
  distinct : (queue ++ pathsAsked .nodeInfo log).Nodup
  leaves : ∀ q ∈ queue, ∀ other ∈ queue ++ pathsAsked .nodeInfo log, q <+: other → q = other
  below : ∀ q ∈ queue, start <+: q
  short : path.length ≤ identLength → ∀ q ∈ queue, q.length ≤ identLength

section Records

variable {path start q : Bytes} {queue later : List Bytes} {visits : Nat} {log log' : List Request}

theorem Visited.pathsAsked_nodeInfo (h : Visited q log log') :
    pathsAsked .nodeInfo log' = q :: pathsAsked .nodeInfo log := by
  cases h with
  | described => simp [pathsAsked]
  | fetched => simp [pathsAsked]

theorem Visited.path_eq (h : Visited q log log') {r : Request} (hr : r ∈ log') :
    r.path = q ∨ r ∈ log := by
  cases h with
  | described =>
      rcases List.mem_cons.mp hr with rfl | hold
      · exact Or.inl rfl
      · exact Or.inr hold
  | fetched =>
      rcases List.mem_cons.mp hr with rfl | hr
      · exact Or.inl rfl
      · rcases List.mem_cons.mp hr with rfl | hold
        · exact Or.inl rfl
        · exact Or.inr hold

/-- A visit adds what is left for later to the paths that were asked for or are queued. -/
theorem Visited.perm (h : Visited q log log') (queue later : List Bytes) :
    (queue ++ later ++ pathsAsked .nodeInfo log').Perm
      ((q :: queue ++ pathsAsked .nodeInfo log) ++ later) := by
  rw [h.pathsAsked_nodeInfo, List.cons_append, List.cons_append]
  refine List.perm_middle.trans (.cons q ?_)
  rw [List.append_assoc, List.append_assoc]
  exact .append_left queue List.perm_append_comm

/-- **A visit** of a queued path keeps to the bounds. -/
theorem Modest.visited (h : Modest path start visits log)
    (hpending : Pending path start (q :: queue) log) (hvisit : Visited q log log') :
    Modest path start (visits + 1) log' where
  snapshot := by cases hvisit <;> simpa [pathsAsked] using h.snapshot
  visits := by rw [hvisit.pathsAsked_nodeInfo, List.length_cons, h.visits]
  distinct := by
    have hnew : q ∉ pathsAsked .nodeInfo log := fun hmem =>
      (List.nodup_cons.mp hpending.distinct).1 (List.mem_append_right _ hmem)
    rw [hvisit.pathsAsked_nodeInfo]
    exact List.nodup_cons.mpr ⟨hnew, h.distinct⟩
  fetches := by
    rw [hvisit.pathsAsked_nodeInfo]
    cases hvisit with
    | described => simpa [pathsAsked] using h.fetches.cons q
    | fetched => simpa [pathsAsked] using h.fetches.cons_cons q
  below r hr := by
    rcases hvisit.path_eq hr with rfl | hr
    · exact hpending.below _ List.mem_cons_self
    · exact h.below r hr
  short hlen r hr := by
    rcases hvisit.path_eq hr with rfl | hr
    · exact hpending.short hlen _ List.mem_cons_self
    · exact h.short hlen r hr

/-- Nothing that is queued or was asked for lies strictly below a queued path. -/
theorem Pending.not_below (h : Pending path start (q :: queue) log) (b : UInt8) {other : Bytes}
    (hother : other ∈ q :: queue ++ pathsAsked .nodeInfo log) : ¬q ++ [b] <+: other := by
  intro hpre
  have heq := h.leaves q List.mem_cons_self other hother ((List.prefix_append q [b]).trans hpre)
  have hlen := hpre.length_le
  rw [← heq, List.length_append, List.length_singleton] at hlen
  omega

/-- **The children of a visited path are new**, and leaves of the enlarged tree. -/
theorem Pending.visited (h : Pending path start (q :: queue) log) (hvisit : Visited q log log')
    (hlater : Branches q later) : Pending path start (queue ++ later) log' := by
  obtain ⟨bytes, hbytes, rfl, hinner⟩ := hlater
  have hperm := hvisit.perm queue (bytes.map fun b => q ++ [b])
  constructor
  · rw [hperm.nodup_iff]
    refine List.nodup_append.mpr ⟨h.distinct, hbytes.map fun b c heq => ?_, ?_⟩
    · simpa using heq
    · intro other hother child hchild heq
      obtain ⟨b, _, rfl⟩ := List.mem_map.mp hchild
      exact h.not_below b hother (heq ▸ List.prefix_rfl)
  · intro r hr other hother hpre
    rw [hperm.mem_iff] at hother
    rcases List.mem_append.mp hr with hr | hr
    · rcases List.mem_append.mp hother with hother | hother
      · exact h.leaves r (List.mem_cons_of_mem q hr) other hother hpre
      · obtain ⟨b, _, rfl⟩ := List.mem_map.mp hother
        rcases List.prefix_concat_iff.mp hpre with heq | hshort
        · exact heq
        · have heq := h.leaves r (List.mem_cons_of_mem q hr) q List.mem_cons_self hshort
          exact absurd (List.mem_append_left _ (heq ▸ hr)) (List.nodup_cons.mp h.distinct).1
    · obtain ⟨b, _, rfl⟩ := List.mem_map.mp hr
      rcases List.mem_append.mp hother with hother | hother
      · exact absurd hpre (h.not_below b hother)
      · obtain ⟨c, _, rfl⟩ := List.mem_map.mp hother
        exact hpre.eq_of_length (by simp)
  · intro r hr
    rcases List.mem_append.mp hr with hr | hr
    · exact h.below r (List.mem_cons_of_mem q hr)
    · obtain ⟨b, _, rfl⟩ := List.mem_map.mp hr
      exact (h.below q List.mem_cons_self).trans (List.prefix_append q [b])
  · intro hlen r hr
    rcases List.mem_append.mp hr with hr | hr
    · exact h.short hlen r (List.mem_cons_of_mem q hr)
    · have hle := h.short hlen q List.mem_cons_self
      have hlt := Nat.lt_of_le_of_ne hle (hinner (List.ne_nil_of_mem hr))
      obtain ⟨b, _, rfl⟩ := List.mem_map.mp hr
      rw [List.length_append, List.length_singleton]
      exact hlt

end Records

section Sessions

variable {σ : Type} {e : Engine} {s : Store} {far : Peer σ} {settings : SyncConfig}
  {path start : Bytes} {log : List Request} {st : σ}

section Invariants

variable {R : Bytes → NodeInfo → Prop} {I : Nat → List Bytes → List Request → Prop}
  (hanswers : ∀ q st theirs, ((far.nodeInfo q).run st).1.within? settings.timeout =
    some (.ok (some theirs)) → R q theirs)
  (hvisit : ∀ {visits q queue log ours log' later}, I visits (q :: queue) log →
    e.nodeInfo s q = .ok ours →
      Warranted (R q) (min settings.identsPerFetch Limit.idents) q ours log log' later →
        I (visits + 1) (queue ++ later) log')
include hanswers hvisit

/-- **The requests of a walk**: each visit takes one of the budget, and what it preserves
holds in the end. -/
theorem walk_keeps (budget : Nat) {queue : List Bytes} {p : Progress}
    (hkept : I p.visited queue log) (hlacks : e.LacksAll s p.missing) :
    Logs ((e.session s far settings).walk budget queue p)
      ((e.session s far.recorded settings).walk budget queue p) log st fun result log' =>
        ∃ visits rest, visits ≤ p.visited + budget ∧ I visits rest log' ∧
          ∀ p', result = .ok p' → p'.visited = visits ∧ e.LacksAll s p'.missing := by
  induction budget generalizing queue p log st with
  | zero =>
      cases queue with
      | nil =>
          refine logs_pure ⟨p.visited, _, Nat.le_refl _, hkept, fun p' hok => ?_⟩
          exact Except.ok.inj hok ▸ ⟨rfl, hlacks⟩
      | cons q rest =>
          refine logs_pure ⟨p.visited, _, Nat.le_refl _, hkept, fun p' hok => ?_⟩
          exact Except.ok.inj hok ▸ ⟨rfl, hlacks⟩
  | succ budget ih =>
      cases queue with
      | nil =>
          refine logs_pure ⟨p.visited, _, Nat.le_add_right _ _, hkept, fun p' hok => ?_⟩
          exact Except.ok.inj hok ▸ ⟨rfl, hlacks⟩
      | cons q rest =>
          refine logs_bind (visit_logs q (hanswers q)) ?_ ?_
          · rintro v log' st' (⟨_, cause, hfailed⟩ | ⟨ours, later, hours, hwarrant, hgives⟩)
            · cases hfailed
            · obtain ⟨hnew, rfl⟩ := hgives v rfl
              have hall : e.LacksAll s (p.add v).missing :=
                List.forall_mem_append.mpr ⟨hnew, hlacks⟩
              refine (ih (hvisit hkept hours hwarrant) hall).imp ?_
              rintro result log'' ⟨visits, rest', hvisits, hrest⟩
              exact ⟨visits, rest', hvisits.trans (by simp only [Progress.add]; omega), hrest⟩
          · rintro cause log' (⟨rfl, _⟩ | ⟨ours, later, hours, hwarrant, _⟩)
            · exact ⟨p.visited, _, Nat.le_add_right _ _, hkept,
                by simp⟩
            · exact ⟨p.visited + 1, _, by omega, hvisit hkept hours hwarrant,
                by simp⟩

end Invariants

/-- The divergence is a beginning of the path, whatever the peer sent. -/
theorem divergence_isPrefix {theirs : List Digest} {start : Bytes}
    (h : e.divergence s path theirs = .ok start) : start <+: path := by
  rw [Engine.divergence] at h
  split at h
  · exact Except.ok.inj h ▸ List.nil_prefix
  · cases hours : e.snapshot s path with
    | error cause =>
        rw [hours] at h
        cases h
    | ok ours =>
        rw [hours] at h
        exact Except.ok.inj h ▸ agreement_isPrefix path ours.siblings theirs

theorem modest_start (hstart : start <+: path) :
    Modest path start 0 [⟨.snapshot, path⟩] where
  snapshot := rfl
  visits := rfl
  distinct := List.nodup_nil
  fetches := List.Sublist.refl _
  below := List.forall_mem_singleton.mpr hstart
  short hlen := List.forall_mem_singleton.mpr hlen

theorem pending_start (hstart : start <+: path) :
    Pending path start [start] [⟨.snapshot, path⟩] where
  distinct := List.nodup_singleton start
  leaves _ hq _ hother _ :=
    (List.mem_singleton.mp hq).trans (List.mem_singleton.mp hother).symm
  below _ hq := List.mem_singleton.mp hq ▸ List.prefix_rfl
  short hlen _ hq := List.mem_singleton.mp hq ▸ hstart.length_le.trans hlen

/-- **The requests of a session**, and what it reports: it fails before its walk, or what
each visit preserves holds in the end. -/
theorem run_keeps {R : Bytes → NodeInfo → Prop} {I : Bytes → Nat → List Bytes → List Request → Prop}
    (path : Bytes)
    (hanswers : ∀ q st theirs, ((far.nodeInfo q).run st).1.within? settings.timeout =
      some (.ok (some theirs)) → R q theirs)
    (hvisit : ∀ {start visits q queue log ours log' later}, I start visits (q :: queue) log →
      e.nodeInfo s q = .ok ours →
        Warranted (R q) (min settings.identsPerFetch Limit.idents) q ours log log' later →
          I start (visits + 1) (queue ++ later) log')
    (hstart : ∀ theirs start, ((far.snapshot path).run st).1.within? settings.timeout =
      some (.ok theirs) → e.divergence s path theirs.siblings = .ok start →
        I start 0 [start] [⟨.snapshot, path⟩]) :
    Logs ((e.session s far settings).run path) ((e.session s far.recorded settings).run path)
      [] st fun result log =>
        (log = [⟨.snapshot, path⟩] ∧ ∃ cause, result = .error cause) ∨
          ∃ start visits rest, start <+: path ∧ visits ≤ settings.maxNodes ∧
            I start visits rest log ∧
            ∀ report, result = .ok report →
              report.divergence = start ∧ report.visited = visits ∧ Ascending report.missing ∧
                e.LacksAll s report.missing := by
  refine logs_bind (logs_ask _ _ ⟨.snapshot, path⟩ (far.snapshot path)) ?_ ?_
  · rintro theirs _ _ ⟨rfl, hreply⟩
    refine logs_bind (logs_look (e.divergence s path theirs.siblings)) ?_ ?_
    · rintro start _ _ ⟨hread, rfl⟩
      have hdivergence := hread start rfl
      refine logs_bind (walk_keeps (I := I start) (p := {}) hanswers hvisit settings.maxNodes
        (hstart theirs start (hreply theirs rfl) hdivergence) (List.forall_mem_nil _)) ?_ ?_
      · rintro p log' _ ⟨visits, rest, hvisits, hkept, hgives⟩
        obtain ⟨hvisited, hlacks⟩ := hgives p rfl
        rw [Nat.zero_add] at hvisits
        refine logs_pure (Or.inr ⟨start, visits, rest, divergence_isPrefix hdivergence, hvisits,
          hkept, fun report hok => ?_⟩)
        obtain rfl := Except.ok.inj hok
        refine ⟨rfl, hvisited, Ident.ascending_dropRepeats_sort _, fun id hid => hlacks id ?_⟩
        rwa [Ident.mem_dropRepeats, Ident.mem_sort] at hid
      · rintro cause log' ⟨visits, rest, hvisits, hkept, _⟩
        rw [Nat.zero_add] at hvisits
        exact Or.inr ⟨start, visits, rest, divergence_isPrefix hdivergence, hvisits, hkept,
          nofun⟩
    · rintro cause _ ⟨_, rfl⟩
      exact Or.inl ⟨rfl, cause, rfl⟩
  · rintro cause _ ⟨rfl, _⟩
    exact Or.inl ⟨rfl, cause, rfl⟩

/-- What a session along `path` comes to: the requests, all below one beginning of
the path, and if it ends with a report, what that may say. -/
def Confined (e : Engine) (s : Store) (path : Bytes) (budget : Nat)
    (result : Except SyncError SyncReport) (log : List Request) : Prop :=
  ∃ start visits, start <+: path ∧ visits ≤ budget ∧ Modest path start visits log ∧
    ∀ report, result = .ok report →
      report.divergence = start ∧ report.visited = visits ∧ Ascending report.missing ∧
        e.LacksAll s report.missing

/-- **The requests of a session** are confined, whatever the peer answers. -/
theorem run_logs (path : Bytes) :
    Logs ((e.session s far settings).run path) ((e.session s far.recorded settings).run path)
      [] st (Confined e s path settings.maxNodes) := by
  refine (run_keeps (R := fun _ _ => True) (I := fun start visits queue log =>
    Modest path start visits log ∧ Pending path start queue log) path
    (fun _ _ _ _ => trivial) ?_ ?_).imp ?_
  · rintro start visits q queue log ours log' later ⟨hmodest, hpending⟩ _ hwarrant
    exact ⟨hmodest.visited hpending hwarrant.visited,
      hpending.visited hwarrant.visited hwarrant.branches⟩
  · intro theirs start _ hdivergence
    have hstart := divergence_isPrefix hdivergence
    exact ⟨modest_start hstart, pending_start hstart⟩
  · rintro result log (⟨rfl, cause, rfl⟩ | ⟨start, visits, rest, hstart, hvisits, hkept, hreport⟩)
    · exact ⟨path, 0, List.prefix_rfl, Nat.zero_le _, modest_start List.prefix_rfl,
        nofun⟩
    · exact ⟨start, visits, hstart, hvisits, hkept.1, hreport⟩

end Sessions

/-- **Sessions are bounded for any peer.**  A session of any engine, on any store,
along any path and with any settings, is made with a peer whose answers are
arbitrary.  It ends, and made with a record of the requests it ends alike.  One
snapshot was asked for, descriptions of different nodes only, at most as many as
the settings allow, and identifiers at most once for each node described; all
paths are below the divergence, which is a beginning of the path, and none is
longer than an identifier if the path is not.  If there is a report, the visits
are the nodes described, and what it lists as missing is ascending and absent
from the engine, so from the set it holds.  If there is none, a pull leaves engine
and store as they were. -/
theorem session_bounded_for_any_peer {σ : Type} (e : Engine) (s : Store) (far : Peer σ)
    (settings : SyncConfig) (path : Bytes) (st : σ) :
    let ended := (ExceptT.run ((e.session s far settings).run path)).run st
    ∃ log start,
      (ExceptT.run ((e.session s far.recorded settings).run path)).run ([], st) =
          (ended.1, (log, ended.2)) ∧
        pathsAsked .snapshot log = [path] ∧
        (pathsAsked .nodeInfo log).length ≤ settings.maxNodes ∧
        (pathsAsked .nodeInfo log).Nodup ∧
        (pathsAsked .idents log).Sublist (pathsAsked .nodeInfo log) ∧
        start <+: path ∧ (∀ r ∈ log, start <+: r.path) ∧
        (path.length ≤ identLength → ∀ r ∈ log, r.path.length ≤ identLength) ∧
        (∀ report, ended.1 = .ok report →
          report.divergence = start ∧
            report.visited = (pathsAsked .nodeInfo log).length ∧
            Ascending report.missing ∧
            (∀ id ∈ report.missing, e.contains s id = .ok false) ∧
            ∀ held, e.Coherent s held → ∀ id ∈ report.missing, id ∉ held) ∧
        ∀ cause, ended.1 = .error cause →
          e.pull s far settings path st = ⟨.error cause, e, s, ended.2⟩ := by
  intro ended
  have hlogs : Logs ((e.session s far settings).run path)
      ((e.session s far.recorded settings).run path) [] st (Confined e s path settings.maxNodes) :=
    run_logs path
  obtain ⟨result, log, st', hrun, hlogged, start, visits, hstart, hvisits, hmodest, hreport⟩ := hlogs
  have hended : ended = (result, st') := hrun
  rw [hended]
  refine ⟨log, start, hlogged, hmodest.snapshot, hmodest.visits.le.trans hvisits, hmodest.distinct,
    hmodest.fetches, hstart, hmodest.below, hmodest.short, ?_, ?_⟩
  · intro report hok
    obtain ⟨hdivergence, hvisited, hascending, hlacks⟩ := hreport report hok
    refine ⟨hdivergence, hvisited.trans hmodest.visits.symm, hascending, hlacks, ?_⟩
    intro held hcoherent id hid
    have habsent := hlacks id hid
    rw [Engine.contains_of_coherent hcoherent] at habsent
    exact of_decide_eq_false (Except.ok.inj habsent)
  · rintro cause rfl
    rw [Engine.pull, Engine.insertMissing, hrun]

/-- A peer that claims, for every path, a node with two children and with more
identifiers than can be stored, and that never sends any. -/
def bottomless : Peer Unit where
  snapshot _ := pure (.now (.ok ⟨[], [], 0⟩))
  nodeInfo path :=
    let child : Summary := ⟨Digest.of [], 18446744073709551615⟩
    pure (.now (.ok (some ⟨path, 18446744073709551615,
      ⟨List.replicate digestLength 1, List.length_replicate⟩,
      (ByteMap.empty.insert 0 child).insert 1 child⟩)))
  idents _ := pure .never

/-- With such a peer a session ends when its visits are used up. -/
theorem session_bounded_for_any_peer_bottomless :
    ∃ report log,
      (ExceptT.run (((Engine.new {}).session Store.empty bottomless.recorded
          { maxNodes := 3 }).run [9])).run ([], ()) = (.ok report, (log, ())) ∧
        report.truncated = true ∧ report.visited = 3 ∧
        (pathsAsked .nodeInfo log).length ≤ 3 ∧ (pathsAsked .nodeInfo log).Nodup := by
  obtain ⟨log, start, hlogged, _, hbound, hdistinct, _⟩ :=
    session_bounded_for_any_peer (Engine.new {}) Store.empty bottomless { maxNodes := 3 } [9] ()
  exact ⟨_, log, hlogged, rfl, rfl, hbound, hdistinct⟩

end MerkleSync
