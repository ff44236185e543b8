import MerkleSync.Proofs.HostilePeer
import MerkleSync.Proofs.RelayedAnswers

/-!
# Walks keep to the differences

Two tries do not change while one is compared with the other.  A child of the peer's
node is visited later if the local trie has none there, or one of another digest.  Now
the digest of a node is a function of the members below it.  So below a queued path the
peer has members, and not the same ones as the local trie.  The digests may collide: then
paths with different members are left out, but none is visited in vain.

A path whose identifiers were fetched stays a leaf of the tree of all paths that were
asked for or are queued.  So no two such paths are beginnings of one identifier.

The peer's answers may be late, lost or errors.  Those that arrive are taken to be right.

**Results.**
* `differs_of_mem_differingChildren`, `fetchable_of_visit`: what a digest says about the
  members, without any assumption on digests.
* `Purposeful.visited`: one visit preserves what is known of the requests.
* `run_purposeful`: by induction, the requests of a session.
* `Purposeful.visits_le`, `Purposeful.nodup_fetched`: what follows for their number.
* `visited_of_missing`: conversely, how many visits it takes to find something.
* `walks_keep_to_differences`: sessions between any two engines.
-/

namespace MerkleSync

section Differences

variable {A B : Finset Ident} {path : Bytes} {limit : Nat}

/-- The peer's set `B` has members below `path`, and not the same ones as `A`. -/
def Differs (A B : Finset Ident) (path : Bytes) : Prop :=
  Occurs B path ∧ under A path ≠ under B path

/-- The paths strictly below `start` at which the sets differ. -/
def differingBelow (A B : Finset Ident) (start : Bytes) : Finset Bytes :=
  (B.biUnion fun id => id.bytes.inits.toFinset).filter fun path =>
    start <+: path ∧ path ≠ start ∧ under A path ≠ under B path

theorem mem_differingBelow {start : Bytes} :
    path ∈ differingBelow A B start ↔ start <+: path ∧ path ≠ start ∧ Differs A B path := by
  simp only [differingBelow, Differs, Occurs, Finset.mem_filter, Finset.mem_biUnion,
    List.mem_toFinset, List.mem_inits]
  tauto

/-- The identifiers below `path` may be fetched: they are not the same ones on both sides,
and few or only one. -/
structure Fetchable (A B : Finset Ident) (limit : Nat) (path : Bytes) : Prop where
  differs : under A path ≠ under B path
  few : (UInt64.ofNat (under B path).card).toNat ≤ limit ∨ path.length = identLength

/-- The node at a path is a function of the members below it. -/
theorem canonical_eq_of_under_eq (h : under A path = under B path) :
    canonical A path = canonical B path :=
  canonical_congr path fun id hid => by
    have hmem := Finset.ext_iff.mp h id
    rwa [mem_under, mem_under, and_iff_left hid, and_iff_left hid] at hmem

/-- So is its description. -/
theorem infoOf_eq_of_under_eq (h : under A path = under B path) :
    infoOf A path = infoOf B path := by
  have hocc : Occurs A path ↔ Occurs B path := by
    rw [occurs_iff, occurs_iff, h]
  have hnode : nodeOf A path = nodeOf B path :=
    if_congr (or_congr_right hocc) (congrArg some (canonical_eq_of_under_eq h)) rfl
  rw [infoOf, infoOf, hnode]

/-- **A child that is visited later** differs. -/
theorem differs_of_mem_differingChildren {theirs : NodeInfo} (htheirs : infoOf B path = some theirs)
    {q : Bytes} (hq : q ∈ differingChildren path (infoOf A path) theirs) : Differs A B q := by
  obtain ⟨child, hchild, rfl⟩ := List.mem_map.mp hq
  obtain ⟨hlisted, hkept⟩ := List.mem_filter.mp hchild
  rw [← ByteMap.get?_eq_some_iff, (infoOf_eq_some htheirs).2.2, get?_canonical_children] at hlisted
  split at hlisted
  · next hocc =>
      refine ⟨hocc, fun hsame => ?_⟩
      -- the local trie would then have a child there, with the same summary
      have hlocal : Occurs A (path ++ [child.1]) :=
        occurs_iff.mpr (hsame ▸ occurs_iff.mp hocc)
      have hparent : infoOf A path ≠ none := fun hnone =>
        infoOf_eq_none hnone (hlocal.of_isPrefix (List.prefix_append _ _))
      obtain ⟨ours, hours⟩ := Option.ne_none_iff_exists'.mp hparent
      have hget : (infoOf A path).bind (·.children.get? child.1) = some child.2 := by
        rw [hours, Option.bind_some, (infoOf_eq_some hours).2.2, get?_canonical_children,
          if_pos hlocal, canonical_eq_of_under_eq hsame, Option.some.inj hlisted]
      rw [hget] at hkept
      exact absurd rfl (bne_iff_ne.mp hkept)
  · cases hlisted

theorem itemCount_of_infoOf {held : Finset Ident} {info : NodeInfo}
    (h : infoOf held path = some info) :
    info.itemCount = UInt64.ofNat (under held path).card := by
  obtain ⟨r, hnode, rfl⟩ := Option.map_eq_some_iff.mp h
  rw [nodeOf] at hnode
  split at hnode
  · exact Option.some.inj hnode ▸ canonical_itemCount held path
  · cases hnode

/-- **A path whose identifiers are fetched** may be. -/
theorem fetchable_of_visit {theirs : NodeInfo} (htheirs : infoOf B path = some theirs)
    (hdigest : (infoOf A path).map (·.digest) ≠ some theirs.digest)
    (hfew : theirs.itemCount.toNat ≤ limit ∨ path.length = identLength) :
    Fetchable A B limit path where
  differs hsame := by
    rw [infoOf_eq_of_under_eq hsame, htheirs] at hdigest
    exact hdigest rfl
  few := by rwa [itemCount_of_infoOf htheirs] at hfew

end Differences

/-- What is known of the requests of a walk and of the paths that are queued. -/
structure Purposeful (A B : Finset Ident) (limit visits : Nat) (path start : Bytes)
    (queue : List Bytes) (log : List Request) : Prop where
  modest : Modest path start visits log
  pending : Pending path start queue log
  differ : ∀ q ∈ queue ++ pathsAsked .nodeInfo log, q = start ∨ Differs A B q
  fetched : ∀ q ∈ pathsAsked .idents log, Fetchable A B limit q
  leaves : ∀ q ∈ pathsAsked .idents log, ∀ other ∈ queue ++ pathsAsked .nodeInfo log,
    q <+: other → q = other

section Records

variable {A B : Finset Ident} {limit visits : Nat} {path start q : Bytes}
  {queue later : List Bytes} {log log' : List Request}

/-- The paths that a visit leaves for later differ. -/
theorem differs_of_warranted (h : Warranted (fun theirs => infoOf B q = some theirs) limit q
    (infoOf A q) log log' later) : ∀ other ∈ later, Differs A B other := by
  cases h with
  | described => exact List.forall_mem_nil _
  | branched htheirs => exact fun other => differs_of_mem_differingChildren htheirs
  | fetched => exact List.forall_mem_nil _

/-- A path whose identifiers were fetched has no children in the queue. -/
theorem fetched_of_warranted (h : Warranted (fun theirs => infoOf B q = some theirs) limit q
    (infoOf A q) log log' later) {other : Bytes} (hother : other ∈ pathsAsked .idents log') :
    (other = q ∧ later = [] ∧ Fetchable A B limit q) ∨ other ∈ pathsAsked .idents log := by
  cases h with
  | described => exact Or.inr (by simpa [pathsAsked] using hother)
  | branched => exact Or.inr (by simpa [pathsAsked] using hother)
  | fetched htheirs hdigest hfew =>
      have hsplit : other = q ∨ other ∈ pathsAsked .idents log := by
        simpa [pathsAsked] using hother
      exact hsplit.imp_left fun heq => ⟨heq, rfl, fetchable_of_visit htheirs hdigest hfew⟩

/-- **One visit** of a queued path. -/
theorem Purposeful.visited (h : Purposeful A B limit visits path start (q :: queue) log)
    (hvisit : Warranted (fun theirs => infoOf B q = some theirs) limit q (infoOf A q) log log'
      later) :
    Purposeful A B limit (visits + 1) path start (queue ++ later) log' where
  modest := h.modest.visited h.pending hvisit.visited
  pending := h.pending.visited hvisit.visited hvisit.branches
  differ other hother := by
    rw [(hvisit.visited.perm queue later).mem_iff] at hother
    rcases List.mem_append.mp hother with hold | hnew
    · exact h.differ other hold
    · exact Or.inr (differs_of_warranted hvisit other hnew)
  fetched other hother := by
    rcases fetched_of_warranted hvisit hother with ⟨rfl, _, hfetchable⟩ | hold
    · exact hfetchable
    · exact h.fetched other hold
  leaves f hf other hother hpre := by
    rw [(hvisit.visited.perm queue later).mem_iff] at hother
    rcases fetched_of_warranted hvisit hf with ⟨rfl, rfl, _⟩ | hold
    · rw [List.append_nil] at hother
      exact h.pending.leaves f List.mem_cons_self other hother hpre
    · rcases List.mem_append.mp hother with hother | hother
      · exact h.leaves f hold other hother hpre
      · obtain ⟨bytes, _, rfl, _⟩ := hvisit.branches
        obtain ⟨b, _, rfl⟩ := List.mem_map.mp hother
        rcases List.prefix_concat_iff.mp hpre with heq | hshort
        · exact heq
        · -- a path that begins `q` would be `q` itself, which is asked for only now
          obtain rfl := h.leaves f hold q (List.mem_append_left _ List.mem_cons_self) hshort
          have hasked := List.mem_append_right queue (h.modest.fetches.subset hold)
          exact absurd hasked (List.nodup_cons.mp h.pending.distinct).1

theorem purposeful_start (hstart : start <+: path) :
    Purposeful A B limit 0 path start [start] [⟨.snapshot, path⟩] where
  modest := modest_start hstart
  pending := pending_start hstart
  differ _ hq := Or.inl (List.mem_singleton.mp hq)
  fetched := List.forall_mem_nil _
  leaves := List.forall_mem_nil _

/-- **The number of visits** is bounded by that of the paths that differ. -/
theorem Purposeful.visits_le (h : Purposeful A B limit visits path start queue log) :
    visits ≤ 1 + (differingBelow A B start).card := by
  have hsubset : (pathsAsked .nodeInfo log).toFinset ⊆ insert start (differingBelow A B start) := by
    intro q hq
    have hasked := List.mem_toFinset.mp hq
    obtain ⟨r, hr, rfl⟩ := List.mem_map.mp hasked
    have hbelow := h.modest.below r (List.mem_of_mem_filter hr)
    rw [Finset.mem_insert]
    by_cases hsame : r.path = start
    · exact Or.inl hsame
    · have hdiffers := (h.differ r.path (List.mem_append_right queue hasked)).resolve_left hsame
      exact Or.inr (mem_differingBelow.mpr ⟨hbelow, hsame, hdiffers⟩)
  calc visits = (pathsAsked .nodeInfo log).toFinset.card := by
        rw [List.toFinset_card_of_nodup h.modest.distinct, h.modest.visits]
    _ ≤ (insert start (differingBelow A B start)).card := Finset.card_le_card hsubset
    _ ≤ (differingBelow A B start).card + 1 := Finset.card_insert_le _ _
    _ = 1 + (differingBelow A B start).card := Nat.add_comm _ _

/-- **No identifier is fetched twice.** -/
theorem Purposeful.nodup_fetched (h : Purposeful A B limit visits path start queue log) :
    ((pathsAsked .idents log).flatMap (identsOf B)).Nodup := by
  refine List.nodup_flatMap.mpr ⟨fun q _ => (ascending_identsOf B q).nodup, ?_⟩
  refine (h.modest.distinct.sublist h.modest.fetches).pairwise_of_forall_ne ?_
  intro q hq other hother hne id hid hid'
  have hleaf : ∀ {f g : Bytes}, f ∈ pathsAsked .idents log → g ∈ pathsAsked .idents log →
      f <+: g → f = g := fun hf hg =>
    h.leaves _ hf _ (List.mem_append_right queue (h.modest.fetches.subset hg))
  rcases List.prefix_or_prefix_of_prefix (mem_identsOf.mp hid).2 (mem_identsOf.mp hid').2 with
    hpre | hpre
  · exact hne (hleaf hq hother hpre)
  · exact hne (hleaf hother hq hpre).symm

end Records

/-- **The requests of a session** between two sets. -/
theorem run_purposeful {σ : Type} {e e' : Engine} {s s' : Store} {A B : Finset Ident}
    {far : Peer σ} {settings : SyncConfig} (h : e.Coherent s A) (h' : e'.Coherent s' B)
    (hfar : far.Relays e' s' settings.timeout) (path : Bytes) (st : σ) :
    Logs ((e.session s far settings).run path) ((e.session s far.recorded settings).run path) [] st
      fun result log => ∃ visits queue,
        Purposeful A B (min settings.identsPerFetch Limit.idents) visits path (startOf A B path)
          queue log ∧
        ∀ report, result = .ok report →
          report.divergence = startOf A B path ∧ report.visited = visits := by
  have hstart : startOf A B path <+: path := divergenceOf_isPrefix A path _
  refine (run_keeps (R := fun q theirs => infoOf B q = some theirs)
    (I := fun start visits queue log => start = startOf A B path ∧
      Purposeful A B (min settings.identsPerFetch Limit.idents) visits path start queue log)
    path ?_ ?_ ?_).imp ?_
  · intro q st' theirs hreply
    have hanswer := hfar.nodeInfo q st' _ hreply (some theirs) rfl
    rw [Engine.nodeInfo_of_coherent h'] at hanswer
    exact Except.ok.inj hanswer
  · rintro start visits q queue log ours log' later ⟨hsame, hstate⟩ hours hwarrant
    rw [Engine.nodeInfo_of_coherent h] at hours
    obtain rfl := Except.ok.inj hours
    exact ⟨hsame, hstate.visited hwarrant⟩
  · intro theirs start hreply hdivergence
    have hanswer := hfar.snapshot path st _ hreply theirs rfl
    rw [Engine.snapshot_of_coherent h'] at hanswer
    obtain rfl := Except.ok.inj hanswer
    rw [Engine.divergence_of_coherent h] at hdivergence
    obtain rfl := Except.ok.inj hdivergence
    exact ⟨rfl, purposeful_start hstart⟩
  · rintro result log (⟨rfl, cause, rfl⟩ | ⟨_, visits, queue, _, _, ⟨rfl, hstate⟩, hreport⟩)
    · exact ⟨0, _, purposeful_start hstart, nofun⟩
    · refine ⟨visits, queue, hstate, fun report hok => ?_⟩
      obtain ⟨hdivergence, hvisited, _⟩ := hreport report hok
      exact ⟨hdivergence, hvisited⟩

section Depths

variable {A B : Finset Ident} {settings : SyncConfig} {path : Bytes}

/-- Where no identifiers are fetched above the leaves, a visit finds some at a leaf only. -/
theorem length_of_mem_visitOf (hcard : B.card < 2 ^ 64) {id : Ident}
    (hid : id ∈ (visitOf A B 0 path).missing) : identLength ≤ path.length := by
  rw [visitOf] at hid
  split at hid
  · cases hid
  · next theirs htheirs =>
      split at hid
      · cases hid
      · split at hid
        · next hfew =>
            obtain ⟨hheld, _⟩ := (mem_lackingOf.mp hid).resolve_left List.not_mem_nil
            have hsome : 0 < (under B path).card :=
              Finset.card_pos.mpr ⟨id, mem_under.mpr (mem_identsOf.mp hheld)⟩
            have hfits : (under B path).card < 2 ^ 64 := (Finset.card_filter_le B _).trans_lt hcard
            rw [itemCount_of_infoOf htheirs, UInt64.toNat_ofNat_of_lt' hfits] at hfew
            exact (hfew.resolve_left (Nat.not_le.mpr hsome)).ge
        · cases hid

theorem length_of_mem_later {limit : Nat} {q : Bytes} (hq : q ∈ (visitOf A B limit path).later) :
    q.length ≤ path.length + 1 := by
  rw [visitOf] at hq
  split at hq
  · cases hq
  · split at hq
    · cases hq
    · split at hq
      · cases hq
      · obtain ⟨child, _, rfl⟩ := List.mem_map.mp hq
        rw [List.length_append, List.length_singleton]

/-- **A session that fetches at the leaves only** reports nothing before it has visited a
node at each depth from the divergence on. -/
theorem visited_of_missing (hlimit : min settings.identsPerFetch Limit.idents = 0)
    (hcard : B.card < 2 ^ 64) {id : Ident} (hid : id ∈ (reportOf A B settings path).missing) :
    identLength < (startOf A B path).length + (reportOf A B settings path).visited := by
  rw [mem_missing, progressOf, hlimit] at hid
  rw [reportOf, progressOf, hlimit]
  refine walkOf_depth (fun q other => length_of_mem_later)
    (fun q other => length_of_mem_visitOf hcard) (fun q hq => ?_) (fun other hnone => ?_) id hid
  · exact (List.mem_singleton.mp hq ▸ Nat.le_refl _ : q.length ≤ (startOf A B path).length)
  · cases hnone

/-- A session that made fewer visits than it may was not cut short. -/
theorem truncated_of_visited (hvisits : (reportOf A B settings path).visited < settings.maxNodes) :
    (reportOf A B settings path).truncated = false := by
  by_contra hend
  rw [Bool.not_eq_false] at hend
  have hall := walkOf_visited_of_truncated rfl hend
  have hsame : (reportOf A B settings path).visited = 0 + settings.maxNodes := hall
  omega

end Depths

/-- **Walks keep to the differences.**  Two engines have any histories from blank
namespaces, which leave the sets `A` and `B`.  The first one makes a session with the
second, along any path and with any settings, from every state that the peer may depend
on; what it is answered are answers of the second engine, if they arrive at all.  It ends
as the session made with a record of the requests.

A node that is asked for other than the divergence is strictly below it, the peer has
members there, and not those of the local trie; none is asked for twice, so the visits
are at most one more than such paths.  Where identifiers are fetched, they are not the
same ones on both sides, and up to the limit or those of a full path; what arrives are
the peer's ones below that path, and all that are fetched are different ones.  Counts are
exact while the peer's set has fewer than `2 ^ 64` members.  A peer that answers in time
lets the session end with a report.  Nothing is assumed about digests. -/
theorem walks_keep_to_differences {σ : Type} {config config' : EngineConfig} {sys sys' : System}
    (h : OpenedBlank config sys) (h' : OpenedBlank config' sys') (steps steps' : List Step)
    {far : Peer σ} {settings : SyncConfig}
    (hfar : far.Relays (sys'.run steps').2.engine (sys'.run steps').2.store settings.timeout)
    (path : Bytes) (st : σ) :
    let near := (sys.run steps).2
    let peer := (sys'.run steps').2
    let A := setLeft ∅ (sys.run steps).1
    let B := setLeft ∅ (sys'.run steps').1
    let start := startOf A B path
    let limit := min settings.identsPerFetch Limit.idents
    let ended := (ExceptT.run ((near.engine.session near.store far settings).run path)).run st
    ∃ log,
      (ExceptT.run ((near.engine.session near.store far.recorded settings).run path)).run ([], st) =
          (ended.1, (log, ended.2)) ∧
        start <+: path ∧
        (∀ q ∈ pathsAsked .nodeInfo log, q ≠ start →
          start <+: q ∧ Occurs B q ∧ under A q ≠ under B q) ∧
        (pathsAsked .nodeInfo log).Nodup ∧
        (pathsAsked .nodeInfo log).length ≤ 1 + (differingBelow A B start).card ∧
        (∀ q ∈ pathsAsked .idents log, under A q ≠ under B q ∧
          ((UInt64.ofNat (under B q).card).toNat ≤ limit ∨ q.length = identLength) ∧
          (B.card < 2 ^ 64 → (under B q).card ≤ limit ∨ q.length = identLength)) ∧
        (∀ q st' ids, ((far.idents q).run st').1.within? settings.timeout = some (.ok ids) →
          ids = identsOf B q) ∧
        ((pathsAsked .idents log).flatMap (identsOf B)).Nodup ∧
        (∀ report, ended.1 = .ok report →
          report.divergence = start ∧ report.visited = (pathsAsked .nodeInfo log).length) ∧
        (far.Serves peer.engine peer.store settings.timeout →
          ended.1 = .ok (reportOf A B settings path)) := by
  intro near peer A B start limit ended
  have hnear : near.engine.Coherent near.store A := (run_of_opened h steps).1
  have hpeer : peer.engine.Coherent peer.store B := (run_of_opened h' steps').1
  obtain ⟨result, log, st', hrun, hlogged, visits, queue, hstate, hreport⟩ :=
    run_purposeful hnear hpeer hfar path st
  have hended : ended = (result, st') := hrun
  have hvisits : (pathsAsked .nodeInfo log).length = visits := hstate.modest.visits
  rw [hended]
  refine ⟨log, hlogged, divergenceOf_isPrefix A path _, ?_, hstate.modest.distinct,
    hvisits.le.trans hstate.visits_le, ?_, ?_, hstate.nodup_fetched, ?_, ?_⟩
  · intro q hq hne
    obtain ⟨r, hr, rfl⟩ := List.mem_map.mp hq
    exact ⟨hstate.modest.below r (List.mem_of_mem_filter hr),
      (hstate.differ r.path (List.mem_append_right queue hq)).resolve_left hne⟩
  · intro q hq
    obtain ⟨hdiffers, hfew⟩ := hstate.fetched q hq
    refine ⟨hdiffers, hfew, fun hcard => ?_⟩
    have hfits : (under B q).card < 2 ^ 64 := (Finset.card_filter_le B _).trans_lt hcard
    rwa [UInt64.toNat_ofNat_of_lt' hfits] at hfew
  · intro q st' ids hreply
    have hanswer := hfar.idents q st' _ hreply ids rfl
    rw [Engine.idents_of_coherent hpeer] at hanswer
    exact (Except.ok.inj hanswer).symm
  · intro report hok
    rw [hvisits]
    exact hreport report hok
  · intro hserves
    obtain ⟨st'', hgives⟩ := run_gives hnear hpeer hserves path st
    exact congrArg Prod.fst (hrun.symm.trans hgives)

/-- A trie of the identifier of zeros, and a peer that also has that of sevens: where no
identifiers are fetched above the leaves, the beginnings of the latter are visited, one at
each depth, and it is reported. -/
theorem walks_keep_to_differences_at_sevens :
    let near := System.blank {}
    let peer := System.blank { ns := 255 }
    let steps := reliably [.insert (constantIdent 0)]
    let steps' := reliably [.insert (constantIdent 0), .insert (constantIdent 7)]
    let far : Peer Unit := (peer.run steps').2.engine.asPeer (peer.run steps').2.store
    let settings : SyncConfig := { identsPerFetch := 0 }
    OpenedBlank {} near ∧ OpenedBlank { ns := 255 } peer ∧
      ∃ report log state,
        (ExceptT.run (((near.run steps).2.engine.session (near.run steps).2.store far.recorded
            settings).run [])).run ([], ()) = (.ok report, (log, state)) ∧
          report.visited = 31 ∧ report.missing = [constantIdent 7] ∧
          ∀ q ∈ pathsAsked .nodeInfo log, q <+: (constantIdent 7).bytes := by
  intro near peer steps steps' far settings
  have hnear : OpenedBlank {} near := openedBlank_blank _
  have hpeer : OpenedBlank { ns := 255 } peer := openedBlank_blank _
  have hA : setLeft ∅ (near.run steps).1 = {constantIdent 0} := by
    rw [System.setLeft_reliably (coherent_of_opened hnear).1]
    decide
  have hB : setLeft ∅ (peer.run steps').1 = {constantIdent 0, constantIdent 7} := by
    rw [System.setLeft_reliably (coherent_of_opened hpeer).1]
    decide
  have hserves : far.Serves (peer.run steps').2.engine (peer.run steps').2.store settings.timeout :=
    serves_asPeer _ _ _
  obtain ⟨log, hrun, hstart, hdescribed, _, hbound, _, _, _, hreport, hends⟩ :=
    walks_keep_to_differences hnear hpeer steps steps' hserves.relays [] ()
  have hok := hends hserves
  obtain ⟨_, hvisited⟩ := hreport _ hok
  rw [hok] at hrun
  rw [hA, hB] at hrun hstart hdescribed hbound hvisited
  generalize hgiven : reportOf {constantIdent 0} {constantIdent 0, constantIdent 7} settings [] =
    report at hrun hvisited
  have hroot := List.prefix_nil.mp hstart
  rw [hroot] at hdescribed hbound
  have hdiffering : differingBelow {constantIdent 0} {constantIdent 0, constantIdent 7} [] =
      (constantIdent 7).bytes.inits.tail.toFinset := by
    decide +kernel
  have hmost : report.visited ≤ 31 := by
    rw [hdiffering] at hbound
    calc report.visited = (pathsAsked .nodeInfo log).length := hvisited
      _ ≤ 1 + (constantIdent 7).bytes.inits.tail.toFinset.card := hbound
      _ ≤ 31 := by decide +kernel
  have hfree : CollisionFree
      (EitherHashed {constantIdent 0} {constantIdent 0, constantIdent 7} []) := by
    refine collisionFree_constantIdents.anti fun data hdata => ?_
    rcases hdata with hours | htheirs
    · exact ⟨_, by decide, hours⟩
    · exact ⟨_, Finset.Subset.refl _, htheirs⟩
  have hmissing : report.missing = [constantIdent 7] := by
    subst hgiven
    exact missing_eq_singleton hfree (truncated_of_visited (hmost.trans_lt (by decide))) (by decide)
  have hleast : identLength < report.visited := by
    subst hgiven
    have hfound := visited_of_missing (by decide) (by decide) (hmissing ▸ List.mem_singleton_self _)
    rwa [hroot, List.length_nil, Nat.zero_add] at hfound
  refine ⟨hnear, hpeer, report, log, _, hrun, hmost.antisymm hleast, hmissing, fun q hq => ?_⟩
  by_cases hq0 : q = []
  · exact hq0 ▸ List.nil_prefix
  · obtain ⟨hbelow, hdiffers⟩ := hdescribed q hq hq0
    have hmem := mem_differingBelow.mpr ⟨hbelow, hq0, hdiffers⟩
    rw [hdiffering, List.mem_toFinset] at hmem
    exact (List.mem_inits _ _).mp (List.mem_of_mem_tail hmem)

end MerkleSync
