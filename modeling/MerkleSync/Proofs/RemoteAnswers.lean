import MerkleSync.Proofs.History
import MerkleSync.Proofs.MessageLimits
import MerkleSync.Proofs.MessageSize
import MerkleSync.Proofs.Reconciliation
import MerkleSync.Proofs.SessionMeaning

/-!
# A replica at the other end of a transport

A request and its answer are encoded and decoded once each on their way.  Every
answer fits into a message and is read back, so the way adds nothing and takes
nothing away: a server gives the answers of its engine, whatever state its store
is in.  Only a request for a path that is too long is answered differently, and
one that is too large is not sent.

A session asks for identifiers only where few are expected.  Between tries in use
the expected number is right, so the server never has to refuse for their number,
and the session ends as one that asks the other trie directly.

**Results.**
* `toServer_answers`, `toServer_long`, `toServer_large`: the three kinds of
  requests.
* `remote_between`, `remote_gives`: a session with a remote replica.
* `remote_replica_answers_as_local`: both, as one statement.
-/

namespace MerkleSync

section Messages

open Message

theorem Response.decode_write {m : Response} (h : m.Fits) : Response.decode m.write = .ok m :=
  decode_written (reads_response (lt_size_of_encoded h.size)) h.size h.unbroken

/-- A request for a short path is not large. -/
theorem Request.length_write_le {r : Request} (h : r.path.length ≤ Limit.path) :
    r.write.length ≤ Limit.encoded := by
  have hname : r.question.name.length ≤ 15 := by
    cases r.question with
    | snapshot => decide
    | nodeInfo => decide
    | idents => decide
  have hpath := length_writeSingle_le (by decide : Name.path.length ≤ 15) (length_writePath_le h)
  exact Nat.le_trans (length_writeSingle_le hname hpath) (by decide)

end Messages

/-! ## Single requests -/

section Requests

variable {σ : Type} {e : Engine} {s : Store} {r : Request} (st : σ)

/-- The server writes the answer if the request can be decoded. -/
theorem Engine.serve_write (hsize : r.write.length ≤ Limit.encoded)
    (hunbroken : r.brokenLimit = none) (hfits : (e.answer s r).Fits) :
    e.serve s r.write = some (e.answer s r).write := by
  have hdecode : Request.decode r.write = .ok r :=
    Message.decode_written (Request.reads_write hsize) hsize hunbroken
  rw [serve, hdecode]
  dsimp only
  rw [Response.encode, Message.checkSize_of_le hfits.size]

theorem toServer_of_serve {m : Response} (hsize : r.write.length ≤ Limit.encoded)
    (hserve : e.serve s r.write = some m.write) (hfits : m.Fits) :
    ((Transport.toServer (e.serve s) : Transport σ) r).run st = (.after 0 (.ok m), st) := by
  rw [Transport.toServer, Request.encode, Message.checkSize_of_le hsize]
  dsimp only
  rw [hserve]
  dsimp only
  rw [Response.decode_write hfits]
  rfl

/-- **A request for a short path** gets the answer of the engine. -/
theorem toServer_answers (hpath : r.path.length ≤ Limit.path) (hfits : (e.answer s r).Fits) :
    ((Transport.toServer (e.serve s) : Transport σ) r).run st =
      (.after 0 (.ok (e.answer s r)), st) := by
  have hsize := Request.length_write_le hpath
  have hunbroken := Request.brokenLimit_eq_none_iff.mpr hpath
  exact toServer_of_serve st hsize (Engine.serve_write hsize hunbroken hfits) hfits

/-- **A request for a path that is too long** is refused by the server. -/
theorem toServer_long (hpath : Limit.path < r.path.length)
    (hsize : r.write.length ≤ Limit.encoded) :
    ((Transport.toServer (e.serve s) : Transport σ) r).run st =
      (.after 0 (.ok (.error .invalidRequest "invalid message: prefix too long")), st) := by
  have hbroken : r.brokenLimit = some "prefix too long" := if_pos hpath
  have hfits : (Response.error .invalidRequest "invalid message: prefix too long").Fits :=
    Response.fits_error (by decide)
  have hmessage : (SyncError.invalidMessage "prefix too long").message =
      "invalid message: prefix too long" := by decide
  have hdecode : Request.decode r.write = .error (.invalidMessage "prefix too long") :=
    Message.decode_broken (Request.reads_write hsize) hsize hbroken
  refine toServer_of_serve st hsize ?_ hfits
  rw [Engine.serve, hdecode]
  dsimp only
  rw [hmessage, Response.encode, Message.checkSize_of_le hfits.size]

/-- **A request that is too large** is not sent. -/
theorem toServer_large (hsize : Limit.encoded < r.write.length) :
    ((Transport.toServer (e.serve s) : Transport σ) r).run st =
      (.now (.error (.invalidMessage
        ("message of " ++ toString r.write.length ++ " bytes exceeds limit"))), st) := by
  rw [Transport.toServer, Request.encode, Message.checkSize, if_pos hsize]
  rfl

end Requests

/-! ## Sessions -/

/-- A transport that also keeps the replies, the last one first. -/
def Transport.overheard {σ : Type} (t : Transport σ) :
    Transport (List (Reply Response) × σ) := fun r => do
  let (heard, state) ← get
  let (reply, state) := (t r).run state
  set (reply :: heard, state)
  return reply

/-- The reply is that there are too many identifiers. -/
def Reply.TooLarge (reply : Reply Response) : Prop :=
  ∃ text, reply.result? = some (.ok (.error .tooLarge text))

section Answers

variable {e : Engine} {s : Store} {held : Finset Ident} {q : Bytes}

theorem length_snapshotAlong (held : Finset Ident) (rest path : Bytes) :
    (snapshotAlong held path rest).path.length ≤ path.length + rest.length ∧
      (snapshotAlong held path rest).siblings.length ≤ rest.length := by
  induction rest generalizing path with
  | nil => exact ⟨Nat.le_refl _, Nat.le_refl _⟩
  | cons b rest ih =>
      have hstep : (path ++ [b]).length = path.length + 1 := List.length_append
      obtain ⟨hpath, hsiblings⟩ := ih (path ++ [b])
      rw [snapshotAlong, List.length_cons]
      split
      · rw [List.length_cons]
        exact ⟨by dsimp only; omega, Nat.succ_le_succ hsiblings⟩
      · exact ⟨by dsimp only; omega, Nat.succ_le_succ (Nat.zero_le _)⟩

/-- A member below a full path is that path. -/
theorem card_under_of_full (hfull : q.length = identLength) : (under held q).card ≤ 1 := by
  refine Finset.card_le_one.mpr fun a ha b hb => ?_
  have hsame : ∀ id ∈ under held q, id.bytes = q := fun id hid =>
    ((mem_under.mp hid).2.eq_of_length (hfull.trans id.length_eq.symm)).symm
  exact Ident.ext ((hsame a ha).trans (hsame b hb).symm)

theorem length_identsOf (held : Finset Ident) (q : Bytes) :
    (identsOf held q).length = (under held q).card := by
  rw [identsOf, Ident.sort, List.length_mergeSort, Finset.length_toList]

/-- **Where a session asks for identifiers**, there are as few as it expects. -/
theorem few_of_expected {limit : Nat} {theirs : NodeInfo} (hheld : held.card < UInt64.size)
    (htheirs : infoOf held q = some theirs)
    (hfew : theirs.itemCount.toNat ≤ limit ∨ q.length = identLength) :
    (identsOf held q).length ≤ max limit 1 := by
  rw [length_identsOf]
  rcases hfew with hcount | hfull
  · obtain ⟨r, hnode, rfl⟩ := Option.map_eq_some_iff.mp htheirs
    rw [nodeOf] at hnode
    split at hnode
    · obtain rfl := Option.some.inj hnode
      have hword : (under held q).card < UInt64.size :=
        Nat.lt_of_le_of_lt (Finset.card_le_card (Finset.filter_subset _ _)) hheld
      rw [canonical_itemCount, UInt64.toNat_ofNat_of_lt' hword] at hcount
      exact Nat.le_trans hcount (Nat.le_max_left _ _)
    · cases hnode
  · exact Nat.le_trans (card_under_of_full hfull) (Nat.le_max_right _ _)

variable (h : e.Coherent s held) (hq : q.length ≤ Limit.path)
include h hq

theorem answer_snapshot :
    e.answer s ⟨.snapshot, q⟩ = .snapshot (snapshotAlong held [] q) := by
  rw [Engine.answer, Request.brokenLimit_eq_none_iff.mpr hq]
  dsimp only
  rw [Engine.snapshot_of_coherent h]

theorem answer_nodeInfo : e.answer s ⟨.nodeInfo, q⟩ = .nodeInfo (infoOf held q) := by
  rw [Engine.answer, Request.brokenLimit_eq_none_iff.mpr hq]
  dsimp only
  rw [Engine.nodeInfo_of_coherent h]

theorem answer_idents (hfew : (identsOf held q).length ≤ Limit.idents) :
    e.answer s ⟨.idents, q⟩ = .idents (identsOf held q) := by
  rw [Engine.answer, Request.brokenLimit_eq_none_iff.mpr hq]
  dsimp only
  rw [Engine.idents_of_coherent h]
  exact if_neg (Nat.not_lt.mpr hfew)

end Answers

section Sessions

variable {σ α : Type} {e e' : Engine} {s s' : Store} {A B : Finset Ident} {path : Bytes}
  {config : SyncConfig}

theorem overheard_run {t : Transport σ} {r : Request} {seen : List (Reply Response) × σ}
    {reply : Reply Response} {st' : σ} (h : (t r).run seen.2 = (reply, st')) :
    (t.overheard r).run seen = (reply, reply :: seen.1, st') := by
  have hrun : (t.overheard r).run seen =
      (((t r).run seen.2).1, ((t r).run seen.2).1 :: seen.1, ((t r).run seen.2).2) := rfl
  rw [hrun, h]

/-- What a session keeps to: the state of the transport is as it was, and no reply
so far was that there are too many identifiers. -/
def NoneTooLarge (st : σ) (seen : List (Reply Response) × σ) : Prop :=
  seen.2 = st ∧ ∀ reply ∈ seen.1, ¬reply.TooLarge

/-- A transport that brings the answers of an engine to requests for short paths, unless
they are too many identifiers, and keeps `inv`. -/
def Transport.Brings (t : Transport σ) (inv : σ → Prop) (e : Engine) (s : Store) : Prop :=
  ∀ r, r.path.length ≤ Limit.path → (e.answer s r).Fits →
    (∀ text, e.answer s r ≠ .error .tooLarge text) → ∀ st, inv st →
      ∃ st', (t r).run st = (.after 0 (.ok (e.answer s r)), st') ∧ inv st'

/-- So does one that is overheard, and no reply on it is that there are too many. -/
theorem brings_overheard (st : σ) :
    (Transport.toServer (e.serve s) : Transport σ).overheard.Brings (NoneTooLarge st) e s := by
  intro r hpath hfits hsmall seen hseen
  refine ⟨_, overheard_run (toServer_answers seen.2 hpath hfits), hseen.1, fun reply hreply => ?_⟩
  rcases List.mem_cons.mp hreply with rfl | hearlier
  · rintro ⟨text, htext⟩
    exact hsmall text (Except.ok.inj (Option.some.inj htext))
  · exact hseen.2 reply hearlier

variable {t : Transport σ} {inv : σ → Prop}

/-- **A question to a remote replica** gets what its engine answers. -/
theorem follows_remote (ht : t.Brings inv e' s') {limit : Nat} {what : String} {r : Request}
    {m : Response} {check : Response → Except SyncError α} {a : α} (htime : 0 < limit)
    (hpath : r.path.length ≤ Limit.path) (hanswer : e'.answer s' r = m) (hfits : m.Fits)
    (hcheck : check m = .ok a) (hsmall : ∀ text, m ≠ .error .tooLarge text) :
    Follows False inv (Session.ask limit what do return (← t r).check check) a := by
  refine follows_ask fun st hst => ?_
  subst hanswer
  obtain ⟨st', hreply, hst'⟩ := ht r hpath hfits hsmall st hst
  refine ⟨.after 0 (.ok a), st', ?_, hst', Or.inl (if_pos ⟨htime, Nat.zero_le _⟩)⟩
  rw [StateT.run_bind, hreply, ← hcheck]
  rfl

/-- **A session with a remote replica** is between the two sets. -/
theorem remote_between (ht : t.Brings inv e' s') (h : e.Coherent s A) (h' : e'.Coherent s' B)
    (hheld : B.card < UInt64.size) (hpath : path.length ≤ Limit.path)
    (htime : 0 < config.timeout) :
    (e.session s (Peer.over t) config).Between False inv path A B where
  divergence q theirs := follows_reads (Engine.divergence_of_coherent h q theirs)
  nearInfo q := follows_reads (Engine.nodeInfo_of_coherent h q)
  contains id := follows_reads (Engine.contains_of_coherent h id)
  snapshot q hasks := by
    cases hasks
    obtain ⟨hlen, hsiblings⟩ := length_snapshotAlong B path []
    rw [List.length_nil, Nat.zero_add] at hlen
    exact follows_remote ht htime hpath (answer_snapshot h' hpath)
      (Response.fits_snapshot (Nat.le_trans hlen hpath) (Nat.le_trans hsiblings hpath)) rfl
      fun _ => nofun
  farInfo q hasks := by
    cases hasks with
    | nodeInfo hshort =>
        have hq := hshort hpath
        refine follows_remote ht htime hq (answer_nodeInfo h' hq) (Response.fits_nodeInfo ?_) rfl
          fun _ => nofun
        intro info hinfo
        obtain ⟨_, _, rfl⟩ := Option.map_eq_some_iff.mp hinfo
        exact hq
  idents q hasks := by
    cases hasks with
    | idents hshort htheirs hfew =>
        have hq := hshort hpath
        have hmax : max (min config.identsPerFetch Limit.idents) 1 ≤ Limit.idents :=
          Nat.max_le.mpr ⟨Nat.min_le_right _ _, by decide⟩
        have hlen := Nat.le_trans (few_of_expected hheld htheirs hfew) hmax
        exact follows_remote ht htime hq (answer_idents h' hq hlen) (Response.fits_idents hlen) rfl
          fun _ => nofun

/-- It ends with its report. -/
theorem remote_gives (ht : t.Brings inv e' s') (h : e.Coherent s A) (h' : e'.Coherent s' B)
    (hheld : B.card < UInt64.size) (hpath : path.length ≤ Limit.path)
    (htime : 0 < config.timeout) {st : σ} (hst : inv st) :
    ∃ st', (ExceptT.run ((e.session s (Peer.over t) config).run path)).run st =
      (.ok (reportOf A B config path), st') ∧ inv st' := by
  have hfollows := run_follows (remote_between ht h h' hheld hpath htime) st hst
  obtain ⟨_, st', hrun, rfl, hst'⟩ := hfollows.exists_ok
  exact ⟨st', hrun, hst'⟩

end Sessions

/-- **A replica at the other end of a transport answers as one that is there.**

*Requests.*  An engine in any state on a store in any state, damaged or failing,
serves a transport; what both hold is counted by words.  A request for a path of
at most thirty bytes gets the very answer of the engine; one for a longer path
is refused by the server as invalid if it can be encoded, and is not sent
otherwise.  No answer of the engine breaks a limit or is too large.

*Sessions.*  Two engines have any histories from blank namespaces, and the second
holds fewer identifiers than a word counts.  For every path of at most thirty
bytes and all settings that leave time to wait, a session with the second at the
other end of a transport ends with the report of a session that asks it directly,
and no reply on the way is that there are too many identifiers. -/
theorem remote_replica_answers_as_local {σ : Type} :
    (∀ (e : Engine) (s : Store) (r : Request) (st : σ), e.Sized s →
      let sent := ((Transport.toServer (e.serve s) : Transport σ) r).run st
      (e.answer s r).brokenLimit = none ∧ (e.answer s r).write.length ≤ Limit.encoded ∧
        (r.path.length ≤ Limit.path → sent = (.after 0 (.ok (e.answer s r)), st)) ∧
        (Limit.path < r.path.length → r.write.length ≤ Limit.encoded →
          ∃ text, sent = (.after 0 (.ok (.error .invalidRequest text)), st)) ∧
        (Limit.encoded < r.write.length →
          ∃ text, sent = (.now (.error (.invalidMessage text)), st))) ∧
    ∀ (config config' : EngineConfig) (sys sys' : System) (steps steps' : List Step)
      (settings : SyncConfig) (path : Bytes) (st : σ),
      OpenedBlank config sys → OpenedBlank config' sys' →
      (setLeft ∅ (sys'.run steps').1).card < UInt64.size →
      path.length ≤ Limit.path → 0 < settings.timeout →
        let near := (sys.run steps).2
        let far := (sys'.run steps').2
        let remote :=
          Peer.over (Transport.overheard (Transport.toServer (far.engine.serve far.store)))
        ∃ report heard,
          (ExceptT.run ((near.engine.session near.store remote settings).run path)).run ([], st) =
              (.ok report, (heard, st)) ∧
            ((ExceptT.run ((near.engine.session near.store (far.engine.asPeer far.store)
              settings).run path)).run st).1 = .ok report ∧
            ∀ reply ∈ heard, ¬reply.TooLarge := by
  refine ⟨fun e s r st hsized => ?_, ?_⟩
  · intro sent
    have hfits := Engine.answer_fits hsized r
    exact ⟨hfits.unbroken, hfits.size, fun hpath => toServer_answers st hpath hfits,
      fun hpath hsize => ⟨_, toServer_long st hpath hsize⟩,
      fun hsize => ⟨_, toServer_large st hsize⟩⟩
  · intro config config' sys sys' steps steps' settings path st h h' hheld hpath htime
    obtain ⟨hnear, _⟩ := run_of_opened h steps
    obtain ⟨hfar, _⟩ := run_of_opened h' steps'
    have hstart : NoneTooLarge st ([], st) := ⟨rfl, fun _ hreply => nomatch hreply⟩
    obtain ⟨st', hdirect⟩ := run_gives hnear hfar (serves_asPeer _ _ settings.timeout) path st
    obtain ⟨⟨heard, _⟩, hremote, rfl, hnone⟩ :=
      remote_gives (brings_overheard st) hnear hfar hheld hpath htime hstart
    exact ⟨_, heard, hremote, congrArg Prod.fst hdirect, hnone⟩

/-- A trie whose root has a child, and not in memory. -/
def withChild : Engine :=
  { view := ⟨Record.ofChildren (ByteMap.empty.insert 1 ⟨Digest.empty, 1⟩), ∅⟩ }

/-- A store with one value, which is no record, at the place of that child. -/
def damaged : Store :=
  { entries := (∅ : Table Bytes).insert (nodeKey defaultNamespace [1]) [0xFF] }

theorem sized_damaged : withChild.Sized damaged where
  loaded := by decide
  store := {
    entries := Nat.lt_of_le_of_lt Std.TreeMap.size_insert_le (by decide)
    values := by
      intro key value hvalue
      rw [damaged, Std.TreeMap.getElem?_insert] at hvalue
      split at hvalue
      · cases hvalue
        decide
      · rw [Std.TreeMap.getElem?_emptyc] at hvalue
        cases hvalue }

/-- A damaged store, whose record is named in the error that arrives, and a peer with one
identifier, which a session over the transport finds. -/
theorem remote_replica_answers_as_local_damaged :
    let near := System.blank {}
    let peer := System.blank { ns := 255 }
    let steps := reliably [.insert (constantIdent 0)]
    let far := (peer.run steps).2
    let remote : Peer (List (Reply Response) × Unit) :=
      Peer.over (Transport.overheard (Transport.toServer (far.engine.serve far.store)))
    withChild.Sized damaged ∧
      ((Transport.toServer (withChild.serve damaged) : Transport Unit) ⟨.nodeInfo, [1]⟩).run () =
        (.after 0 (.ok (.error .internal "malformed record: 0801: <cbor>")), ()) ∧
      OpenedBlank {} near ∧ OpenedBlank { ns := 255 } peer ∧
      (setLeft ∅ (peer.run steps).1).card < UInt64.size ∧
      ∃ report heard,
        (ExceptT.run ((near.engine.session near.store remote {}).run [])).run ([], ()) =
            (.ok report, (heard, ())) ∧
          report.missing = [constantIdent 0] ∧ report.inSync = false ∧
          ∀ reply ∈ heard, ¬reply.TooLarge := by
  intro near peer steps far remote
  have hnear : OpenedBlank {} near := openedBlank_blank _
  have hpeer : OpenedBlank { ns := 255 } peer := openedBlank_blank _
  have hset : setLeft ∅ (peer.run steps).1 = {constantIdent 0} := by
    rw [System.setLeft_reliably (coherent_of_opened hpeer).1]
    decide
  have hcard : (setLeft ∅ (peer.run steps).1).card < UInt64.size := by
    rw [hset]
    decide
  have hanswer : withChild.answer damaged ⟨.nodeInfo, [1]⟩ =
      .error .internal "malformed record: 0801: <cbor>" := by
    decide +kernel
  have hsent := ((remote_replica_answers_as_local.1 withChild damaged ⟨.nodeInfo, [1]⟩ ()
    sized_damaged).2.2.1 (by decide))
  rw [hanswer] at hsent
  obtain ⟨report, heard, hrun, hdirect, hnone⟩ := remote_replica_answers_as_local.2 {}
    { ns := 255 } near peer [] steps {} [] () hnear hpeer hcard (by decide) (by decide)
  -- the session that asks directly ends with the report of the two sets
  obtain ⟨state, hgives⟩ := run_gives (coherent_of_opened hnear).1 (run_of_opened hpeer steps).1
    (serves_asPeer (peer.run steps).2.engine (peer.run steps).2.store (SyncConfig.timeout {})) [] ()
  rw [hset] at hgives
  obtain rfl : reportOf ∅ {constantIdent 0} {} [] = report :=
    Except.ok.inj ((congrArg Prod.fst hgives).symm.trans hdirect)
  have hend : (reportOf ∅ {constantIdent 0} {} []).truncated = false :=
    truncated_of_few (by decide) (by decide)
  have hmissing : (reportOf ∅ {constantIdent 0} {} []).missing = [constantIdent 0] :=
    missing_eq_singleton collisionFree_constantIdent hend (by decide)
  have hsync : (reportOf ∅ {constantIdent 0} {} []).inSync = false := by
    rw [Bool.eq_false_iff, ne_eq, inSync_iff collisionFree_constantIdent (by decide)]
    decide
  exact ⟨sized_damaged, hsent, hnear, hpeer, hcard, _, heard, hrun, hmissing, hsync, hnone⟩

end MerkleSync
