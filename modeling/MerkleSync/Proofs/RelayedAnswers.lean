import MerkleSync.Proofs.FaultyStore
import MerkleSync.Proofs.LiveSession
import MerkleSync.Proofs.MessageLimits

/-!
# Answers on their way

A peer may be asked directly, over a way on which answers are late, lost or
replaced by errors, or at the other end of a transport.  In none of these cases is
an answer made up: what arrives in time is an error, or the answer of the peer's
engine.  On a transport this needs no bound on what the engine holds, since a
message that is decoded is the one that was encoded.

**Results.**
* `Peer.Serves.relays`: a peer that answers in time.
* `relays_asPeer`: an engine, asked directly, whatever fails at its store.
* `relays_delivered`: one whose answers may be late, lost or replaced by errors.
* `toServer_brings`, `relays_over`, `relays_remote`: one at the other end of a transport.
-/

namespace MerkleSync

/-- A peer whose answers, as far as they arrive within the limit, are those of an engine or
errors. -/
structure Peer.Relays {σ : Type} (far : Peer σ) (e : Engine) (s : Store) (limit : Nat) : Prop where
  snapshot : ∀ path st result, ((far.snapshot path).run st).1.within? limit = some result →
    AtMost result (e.snapshot s path)
  nodeInfo : ∀ path st result, ((far.nodeInfo path).run st).1.within? limit = some result →
    AtMost result (e.nodeInfo s path)
  idents : ∀ path st result, ((far.idents path).run st).1.within? limit = some result →
    AtMost result (e.idents s path)

section Direct

variable {σ α : Type} {e : Engine} {s : Store} {limit : Nat}

theorem atMost_of_served
    {request : StateM σ (Reply α)}
    {answer : Except EngineError α}
    {st : σ}
    (h : ∃ reply st', request.run st = (reply, st') ∧
      reply.within? limit = some (answer.mapError .engine))
    {result : Except SyncError α}
    (hresult : (request.run st).1.within? limit = some result) :
    AtMost result answer := by
  obtain ⟨reply, st', hrun, hreply⟩ := h
  rw [hrun, hreply] at hresult
  exact Option.some.inj hresult ▸ AtMost.of_mapError (atMost_rfl answer) _

/-- An answer in time arrives. -/
theorem Peer.Serves.relays
    {far : Peer σ}
    (h : far.Serves e s limit) :
    far.Relays e s limit where
  snapshot path st _ hresult := atMost_of_served (h.snapshot path st) hresult
  nodeInfo path st _ hresult := atMost_of_served (h.nodeInfo path st) hresult
  idents path st _ hresult := atMost_of_served (h.idents path st) hresult

/-- A peer that is known to relay what an engine answers while its store fails. -/
theorem Peer.Relays.of_faulty
    {far : Peer σ}
    {f : Faults}
    (hreads : s.readsFail = false)
    (h : far.Relays e (s.faulty f) limit) :
    far.Relays e s limit where
  snapshot q st result hresult a ha := snapshot_faulty hreads q a (h.snapshot q st result hresult a ha)
  nodeInfo q st result hresult a ha := nodeInfo_faulty hreads q a (h.nodeInfo q st result hresult a ha)
  idents q st result hresult a ha := idents_faulty hreads q a (h.idents q st result hresult a ha)

/-- **Asking an engine directly** relays its answers, whatever fails at its store. -/
theorem relays_asPeer
    (hreads : s.readsFail = false)
    (f : Faults) :
    (e.asPeer (s.faulty f) : Peer σ).Relays e s limit :=
  .of_faulty hreads (serves_asPeer e (s.faulty f) limit).relays

end Direct

/-! ## Transports -/

section Transports

variable {σ α : Type} {e : Engine} {s : Store} {limit : Nat}

/-- A request that was encoded is decoded as itself, or not at all. -/
theorem Request.eq_of_decode
    {r r' : Request}
    {data : Bytes}
    (hencode : r.encode = .ok data)
    (hdecode : Request.decode data = .ok r') :
    r' = r := by
  obtain ⟨hlen, rfl⟩ := Message.checkSize_eq_ok_iff.mp hencode
  have hread := Request.reads_write hlen
  cases hlimit : r.brokenLimit with
  | none =>
      have hsame := Message.decode_written hread hlen hlimit
      exact Except.ok.inj (hdecode.symm.trans hsame)
  | some reason =>
      have hrefused := Message.decode_broken hread hlen hlimit
      cases hdecode.symm.trans hrefused

/-- So is a response. -/
theorem Response.eq_of_decode
    {m m' : Response}
    {data : Bytes}
    (hencode : m.encode = .ok data)
    (hdecode : Response.decode data = .ok m') :
    m' = m := by
  obtain ⟨hlen, rfl⟩ := Message.checkSize_eq_ok_iff.mp hencode
  have hread := reads_response (Message.lt_size_of_encoded hlen)
  cases hlimit : m.brokenLimit with
  | none =>
      have hsame := Message.decode_written hread hlen hlimit
      exact Except.ok.inj (hdecode.symm.trans hsame)
  | some reason =>
      have hrefused := Message.decode_broken hread hlen hlimit
      cases hdecode.symm.trans hrefused

/-- The message is the answer of an engine to a request, or an error. -/
def Response.Brings (m : Response) (e : Engine) (s : Store) (r : Request) : Prop :=
  m = e.answer s r ∨ ∃ code text, m = .error code text

/-- What a response becomes that is sent: its own encoding, or that of an error. -/
theorem Response.brings_of_sent
    {r : Request}
    {sent m : Response}
    {bytes : Bytes}
    (hbrings : sent.Brings e s r)
    (hsent : sent.encode = .ok bytes ∨
      ∃ code text, (Response.error code text).encode = .ok bytes)
    (hdecode : Response.decode bytes = .ok m) :
    m.Brings e s r := by
  rcases hsent with hencode | ⟨code, text, hencode⟩
  · rwa [Response.eq_of_decode hencode hdecode]
  · exact Or.inr ⟨code, text, Response.eq_of_decode hencode hdecode⟩

/-- What a server does with a request: it sends the encoding of an answer or of an error. -/
theorem Engine.serve_sends
    {r : Request}
    {data bytes : Bytes}
    (hencode : r.encode = .ok data)
    (hserve : e.serve s data = some bytes) :
    ∃ sent : Response, sent.Brings e s r ∧
      (sent.encode = .ok bytes ∨ ∃ code text, (Response.error code text).encode = .ok bytes) := by
  unfold Engine.serve at hserve
  extract_lets response at hserve
  refine ⟨response, ?_, ?_⟩
  · cases hrequest : Request.decode data with
    | error cause =>
        simp only [response, hrequest]
        exact Or.inr ⟨_, _, rfl⟩
    | ok r' =>
        simp only [response, hrequest, Request.eq_of_decode hencode hrequest]
        exact Or.inl rfl
  · split at hserve
    · next hsent => exact Or.inl (Option.some.inj hserve ▸ hsent)
    · split at hserve
      · next hsent => exact Or.inr ⟨_, _, Option.some.inj hserve ▸ hsent⟩
      · cases hserve

/-- **What comes back from a transport to a server** is an error or the answer of its
engine. -/
theorem toServer_brings
    {r : Request}
    {st : σ}
    {m : Response}
    (h : (((Transport.toServer (e.serve s) : Transport σ) r).run st).1.within? limit =
      some (.ok m)) :
    m.Brings e s r := by
  rw [Transport.toServer] at h
  cases hencode : r.encode with
  | error cause =>
      rw [hencode] at h
      cases h
  | ok data =>
      simp only [hencode] at h
      cases hserve : e.serve s data with
      | none =>
          rw [hserve] at h
          change (if _ then _ else _) = _ at h
          split at h
          · cases h
          · cases h
      | some bytes =>
          rw [hserve] at h
          change (if _ then _ else _) = _ at h
          split at h
          · obtain ⟨sent, hbrings, hsent⟩ := Engine.serve_sends hencode hserve
            exact Response.brings_of_sent hbrings hsent (Option.some.inj h)
          · cases h

theorem within?_check
    {β : Type}
    (reply : Reply α)
    (check : α → Except SyncError β) :
    (reply.check check).within? limit = (reply.within? limit).map (·.bind check) := by
  cases reply with
  | now result => rfl
  | after delay result =>
      simp only [Reply.check, Reply.within?]
      split
      · rfl
      · rfl
  | never => rfl

/-- What is taken out of a message that is an answer or an error. -/
theorem relays_check
    {r : Request}
    {reply : Reply Response}
    {check : Response → Except SyncError α}
    {answer : Except EngineError α}
    {result : Except SyncError α}
    (hreply : ∀ m, reply.within? limit = some (.ok m) → m.Brings e s r)
    (herror : ∀ code text, check (.error code text) = .error (.peer code text))
    (hanswer : AtMost (check (e.answer s r)) answer)
    (hresult : (reply.check check).within? limit = some result) :
    AtMost result answer := by
  rw [within?_check] at hresult
  obtain ⟨arrived, harrived, rfl⟩ := Option.map_eq_some_iff.mp hresult
  cases arrived with
  | error cause => exact atMost_error cause answer
  | ok m =>
      rcases hreply m harrived with rfl | ⟨code, text, rfl⟩
      · exact hanswer
      · exact fun a ha => nomatch (herror code text).symm.trans ha

theorem atMost_answer
    (e : Engine)
    (s : Store)
    (q : Bytes) :
    AtMost (e.answer s ⟨.snapshot, q⟩).toSnapshot (e.snapshot s q) ∧
      AtMost (e.answer s ⟨.nodeInfo, q⟩).toNodeInfo (e.nodeInfo s q) ∧
      AtMost (e.answer s ⟨.idents, q⟩).toIdents (e.idents s q) := by
  unfold Engine.answer
  refine ⟨?_, ?_, ?_⟩
  · cases (Request.brokenLimit ⟨.snapshot, q⟩) with
    | some reason => exact atMost_error _ _
    | none =>
        cases e.snapshot s q with
        | ok snap => exact atMost_ok snap
        | error cause => exact atMost_error _ _
  · cases (Request.brokenLimit ⟨.nodeInfo, q⟩) with
    | some reason => exact atMost_error _ _
    | none =>
        cases e.nodeInfo s q with
        | ok info => exact atMost_ok info
        | error cause => exact atMost_error _ _
  · cases (Request.brokenLimit ⟨.idents, q⟩) with
    | some reason => exact atMost_error _ _
    | none =>
        cases e.idents s q with
        | error cause => exact atMost_error _ _
        | ok ids =>
            dsimp only
            split
            · exact atMost_error _ _
            · exact atMost_ok ids

/-- **The replica at the other end of a transport** that brings answers or errors. -/
theorem relays_over
    {t : Transport σ}
    (ht : ∀ r st m, ((t r).run st).1.within? limit = some (.ok m) → m.Brings e s r) :
    (Peer.over t).Relays e s limit where
  snapshot q st _ := relays_check (ht _ st) (fun _ _ => rfl) (atMost_answer e s q).1
  nodeInfo q st _ := relays_check (ht _ st) (fun _ _ => rfl) (atMost_answer e s q).2.1
  idents q st _ := relays_check (ht _ st) (fun _ _ => rfl) (atMost_answer e s q).2.2

/-- **An engine at the other end of a transport** relays its answers, whatever is in its
store and whatever fails there. -/
theorem relays_remote
    (hreads : s.readsFail = false)
    (f : Faults) :
    (Peer.over (Transport.toServer (e.serve (s.faulty f))) : Peer σ).Relays e s limit :=
  .of_faulty hreads (relays_over fun _ _ _ => toServer_brings)

end Transports
end MerkleSync
