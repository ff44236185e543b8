import MerkleSync.Proofs.DivergenceCut
import MerkleSync.Proofs.IdentTime

/-!
# Sessions by time

A session by time goes along the digits of the time less the lag.  The digits only say
along which path the snapshots are compared: the digests beside it cover the members of
all other times, later ones included, and everything below the divergence is visited.
So such a session leaves no recent history out.  Identifiers that are later than its
time are compared and reported like all others, and the earlier ones are reported as if
those were not there.

**Results.**
* `runAt_gives`: a session by time is one along its digits.
* `missing_iff`: what a session reports that was not cut short.
* `sessions_by_time_leave_nothing_out`: sessions by time before and after later
  identifiers were added.
* `session_by_time_reports_recent_ident`: the first identifier of a peer.
-/

namespace MerkleSync

/-- The identifier has a time after `cut`. -/
def Ident.Later (cut : Nat) (id : Ident) : Prop :=
  ∃ t, id.timestamp? = some t ∧ cut < t

/-- The calls that add some identifiers lead to the union. -/
theorem setAfter_inserts
    (held : Finset Ident)
    (ids : List Ident) :
    setAfter held (ids.map .insert) = held ∪ ids.toFinset := by
  induction ids generalizing held with
  | nil => simp [setAfter]
  | cons id ids ih =>
      have hrest := ih (Insert.insert id held)
      rw [List.map_cons, setAfter, List.foldl_cons, ← setAfter, Call.target, hrest,
        List.toFinset_cons, Finset.insert_union_comm]

/-- Insertions that are committed add the identifiers. -/
theorem System.coherent_of_inserts
    {sys : System}
    {held : Finset Ident}
    (h : sys.Coherent held)
    (ids : List Ident) :
    (sys.run (reliably (ids.map .insert))).2.Coherent (held ∪ ids.toFinset) := by
  rw [← setAfter_inserts]
  exact System.reliably_coherent h _

section Runs

variable {σ : Type} {e e' : Engine} {s s' : Store} {A B : Finset Ident} {far : Peer σ}
  {config : SyncConfig} {path : Bytes} {now : Nat}

/-- **A session by time** gives the report of one along its digits. -/
theorem runAt_gives
    (h : e.Coherent s A)
    (h' : e'.Coherent s' B)
    (hfar : far.Serves e' s' config.timeout)
    (hpath : timestampDigits (now - config.lag) = .ok path)
    (st : σ) :
    ∃ st', (ExceptT.run ((e.session s far config).runAt now)).run st =
      (.ok (reportOf A B config path), st') := by
  have hconfig : (e.session s far config).config = config := rfl
  obtain ⟨st', hrun⟩ := run_gives h h' hfar path st
  refine ⟨st', ?_⟩
  rw [Session.runAt, hconfig, hpath]
  exact hrun

/-- A session that may not visit a node is cut short. -/
theorem one_le_of_untruncated
    (hend : (reportOf A B config path).truncated = false) :
    1 ≤ config.maxNodes := by
  by_contra hnone
  have hzero : config.maxNodes = 0 := by omega
  rw [reportOf, progressOf, hzero] at hend
  cases hend

/-- **A session that was not cut short** reports what is missing, and whether the sets are
the same. -/
theorem missing_iff
    (hfree : CollisionFree (EitherHashed A B path))
    (hend : (reportOf A B config path).truncated = false) :
    (∀ id, id ∈ (reportOf A B config path).missing ↔ id ∈ B ∧ id ∉ A) ∧
      ((reportOf A B config path).inSync = true ↔ A = B) := by
  refine ⟨fun id => ⟨missing_sound, ?_⟩, inSync_iff hfree (one_le_of_untruncated hend)⟩
  rintro ⟨hid, hnot⟩
  exact missing_complete hfree hend hid hnot

end Runs

section FirstIdent

variable {id : Ident} {b : UInt8} {rest : Bytes} {config : SyncConfig}

/-- Along a path that starts like the only identifier of the peer, an empty trie parts
from it after the first byte. -/
theorem startOf_first (hid : [b] <+: id.bytes) : startOf ∅ {id} (b :: rest) = [b] := by
  have hbeside : (canonical ∅ []).digestExcept b = (canonical {id} []).digestExcept b := by
    refine digestExcept_congr fun c hc other hother => ?_
    refine iff_of_false (Finset.notMem_empty other) fun hmem => hc ?_
    rw [Finset.mem_singleton.mp hmem] at hother
    have hnext : [] ++ [c] <+: id.bytes := hother
    exact next_unique hnext hid
  rw [startOf, divergenceOf_siblings, siblings_snapshotAlong, siblings_snapshotAlong, agreement,
    if_pos hbeside, if_neg (occurs_empty _), agreement_nil_left]

/-- There the identifier is fetched. -/
theorem visitOf_first {limit : Nat} (hid : [b] <+: id.bytes) (hlimit : 1 ≤ limit) :
    id ∈ (visitOf ∅ {id} limit [b]).missing ∧ (visitOf ∅ {id} limit [b]).differs = true ∧
      (visitOf ∅ {id} limit [b]).later = [] := by
  have hours : infoOf ∅ [b] = none := by
    rw [infoOf, nodeOf_eq_none (List.cons_ne_nil b []) (occurs_empty _)]
    rfl
  have hcount : (canonical {id} [b]).itemCount.toNat ≤ limit := by
    have hcard : (under {id} [b]).card ≤ 1 := (Finset.card_filter_le _ _).trans (by simp)
    rw [canonical_itemCount]
    refine (Nat.mod_le _ _).trans (hcard.trans hlimit)
  have hocc : Occurs {id} [b] := ⟨id, Finset.mem_singleton_self id, hid⟩
  rw [visitOf, infoOf_of_occurs (Or.inr hocc), hours]
  simp [hcount, mem_lackingOf, mem_identsOf, hid]

/-- **The first identifier of a peer** is reported to an empty trie by every session along
a path that starts like it. -/
theorem reportOf_first
    (hid : [b] <+: id.bytes)
    (hfetch : 1 ≤ config.identsPerFetch)
    (hbudget : 1 ≤ config.maxNodes) :
    id ∈ (reportOf ∅ {id} config (b :: rest)).missing ∧
      (reportOf ∅ {id} config (b :: rest)).inSync = false ∧
      (reportOf ∅ {id} config (b :: rest)).truncated = false := by
  have hlimit : 1 ≤ min config.identsPerFetch Limit.idents := le_min hfetch (by decide)
  obtain ⟨hmissing, hdiffers, hlater⟩ := visitOf_first hid hlimit
  obtain ⟨budget, hmax⟩ := Nat.exists_eq_add_of_le' hbudget
  have hprogress : progressOf ∅ {id} config (b :: rest) = Progress.add {}
      (visitOf ∅ {id} (min config.identsPerFetch Limit.idents) [b]) := by
    rw [progressOf, startOf_first hid, hmax, walkOf_single budget {} hlater]
  rw [mem_missing, reportOf, hprogress]
  simp [Progress.add, hmissing, hdiffers]

end FirstIdent

theorem later_recentIdent : recentIdent.Later (1665182345 - 10) :=
  ⟨1665182340, Ident.timestamp?_of_make make_recentIdent, by decide⟩

/-- **Sessions by time leave nothing out.**  Two engines have any histories from blank
namespaces, which leave the sets `A` and `B`; the second serves as a peer.  Then both of
them add any identifiers that are later than the current time less the lag, which is a
timestamp.  Before and after that a session by time ends with a report, and goes along
the digits of that time.  It reports only what is missing.  Where no two strings that
are hashed for the tries collide and neither session was cut short, both report all that
is missing, at any time, and say whether the two sets are the same as a whole.  So the
first one reports a later identifier unless the local trie has all of the peer's, and
the second one reports the later ones that were added to the peer only; the earlier ones
that are reported stay the same. -/
theorem sessions_by_time_leave_nothing_out {σ : Type} {config config' : EngineConfig}
    {sys sys' : System} (h : OpenedBlank config sys) (h' : OpenedBlank config' sys')
    (steps steps' : List Step) (added added' : List Ident) {far far' : Peer σ}
    {settings : SyncConfig} (now : Nat)
    (hfar : far.Serves (sys'.run steps').2.engine (sys'.run steps').2.store settings.timeout)
    (hfar' : far'.Serves ((sys'.run steps').2.run (reliably (added'.map .insert))).2.engine
      ((sys'.run steps').2.run (reliably (added'.map .insert))).2.store settings.timeout)
    (hcut : now - settings.lag ≤ maxTimestamp)
    (hlater : ∀ id ∈ added ++ added', id.Later (now - settings.lag)) (state : σ) :
    let near := (sys.run steps).2
    let near' := (near.run (reliably (added.map .insert))).2
    let A := setLeft ∅ (sys.run steps).1
    let B := setLeft ∅ (sys'.run steps').1
    let A' := A ∪ added.toFinset
    let B' := B ∪ added'.toFinset
    ∃ path report report' last last',
      timestampDigits (now - settings.lag) = .ok path ∧
        (ExceptT.run ((near.engine.session near.store far settings).runAt now)).run state =
          (.ok report, last) ∧
        (ExceptT.run ((near'.engine.session near'.store far' settings).runAt now)).run state =
          (.ok report', last') ∧
        report.path = path ∧ report'.path = path ∧
        (∀ id ∈ report.missing, id ∈ B ∧ id ∉ A) ∧
        (∀ id ∈ report'.missing, id ∈ B' ∧ id ∉ A') ∧
        (CollisionFree (EitherHashed A B path) → CollisionFree (EitherHashed A' B' path) →
          report.truncated = false → report'.truncated = false →
            (∀ id, id ∈ report.missing ↔ id ∈ B ∧ id ∉ A) ∧
              (report.inSync = true ↔ A = B) ∧
              ((∀ id ∈ report.missing, ¬id.Later (now - settings.lag)) ↔
                ∀ id ∈ B, id.Later (now - settings.lag) → id ∈ A) ∧
              (∀ id, id ∈ report'.missing ↔ id ∈ B' ∧ id ∉ A') ∧
              (report'.inSync = true ↔ A' = B') ∧
              ∀ id, ¬id.Later (now - settings.lag) →
                (id ∈ report'.missing ↔ id ∈ report.missing)) := by
  intro near near' A B A' B'
  have hnear : near.Coherent A := (run_of_opened h steps).1
  have hpeer : (sys'.run steps').2.Coherent B := (run_of_opened h' steps').1
  have hnear' : near'.Coherent A' := System.coherent_of_inserts hnear added
  have hpeer' : ((sys'.run steps').2.run (reliably (added'.map .insert))).2.Coherent B' :=
    System.coherent_of_inserts hpeer added'
  have hpath := Ident.timestampDigits_eq_ok hcut
  obtain ⟨last, hrun⟩ := runAt_gives hnear hpeer hfar hpath state
  obtain ⟨last', hrun'⟩ := runAt_gives hnear' hpeer' hfar' hpath state
  refine ⟨_, _, _, last, last', hpath, hrun, hrun', rfl, rfl, fun _ => missing_sound,
    fun _ => missing_sound, ?_⟩
  intro hfree hfree' hend hend'
  obtain ⟨hmissing, hsync⟩ := missing_iff hfree hend
  obtain ⟨hmissing', hsync'⟩ := missing_iff hfree' hend'
  refine ⟨hmissing, hsync, ?_, hmissing', hsync', ?_⟩
  · simp only [hmissing]
    constructor
    · intro hnone id hid hlate
      by_contra hnot
      exact hnone id ⟨hid, hnot⟩ hlate
    · rintro hall id ⟨hid, hnot⟩ hlate
      exact hnot (hall id hid hlate)
  · intro id hearly
    have hold : id ∉ added ∧ id ∉ added' := by
      rw [← not_or, ← List.mem_append]
      exact fun hid => hearly (hlater id hid)
    rw [hmissing, hmissing']
    simp [A', B', hold.1, hold.2]

/-- Two empty tries, and the second one with an identifier of the last seconds. -/
theorem sessions_by_time_leave_nothing_out_recent :
    let near := System.blank {}
    let peer := System.blank { ns := 255 }
    let peer' := (peer.run (reliably [.insert recentIdent])).2
    let session (far : System) : Session Unit :=
      near.engine.session near.store (far.engine.asPeer far.store) {}
    OpenedBlank {} near ∧ OpenedBlank { ns := 255 } peer ∧
      1665182345 - 10 ≤ maxTimestamp ∧ recentIdent.Later (1665182345 - 10) ∧
      (∀ path, CollisionFree (EitherHashed ∅ {recentIdent} path)) ∧
      ∃ report report' last last',
        (ExceptT.run ((session peer).runAt 1665182345)).run () = (.ok report, last) ∧
          (ExceptT.run ((session peer').runAt 1665182345)).run () = (.ok report', last') ∧
          (report.truncated = false → report'.truncated = false →
            report.inSync = true ∧ report'.inSync = false ∧
              ∀ id, id ∈ report'.missing ↔ id = recentIdent) := by
  intro near peer peer' session
  have hnear : OpenedBlank {} near := openedBlank_blank {}
  have hpeer : OpenedBlank { ns := 255 } peer := openedBlank_blank _
  have hfree : ∀ path, CollisionFree (EitherHashed ∅ {recentIdent} path) := by
    refine fun path => collisionFree_recentIdent.anti ?_
    rintro x (hx | hx)
    · exact absurd hx not_hashed_empty
    · exact hashed_singleton_of_scope hx
  have hempty : ∀ path, CollisionFree (EitherHashed ∅ ∅ path) :=
    fun path => (hfree path).anti fun x hx =>
      absurd (hx.elim id id) not_hashed_empty
  obtain ⟨path, report, report', last, last', _, hrun, hrun', _, _, _, _, hexact⟩ :=
    sessions_by_time_leave_nothing_out hnear hpeer [] [] [] [recentIdent] 1665182345
      (serves_asPeer (σ := Unit) peer.engine peer.store (SyncConfig.timeout {}))
      (serves_asPeer (σ := Unit) peer'.engine peer'.store (SyncConfig.timeout {}))
      (by decide) (by simpa using later_recentIdent) ()
  refine ⟨hnear, hpeer, by decide, later_recentIdent, hfree, report, report', last, last', hrun,
    hrun', fun hend hend' => ?_⟩
  obtain ⟨-, hsync, -, hmissing', hsync', -⟩ := hexact (hempty path) (hfree path) hend hend'
  refine ⟨hsync.mpr rfl, ?_, fun id => (hmissing' id).trans ?_⟩
  · rw [Bool.eq_false_iff]
    exact fun hdone => absurd (hsync'.mp hdone) (by decide)
  · simp [setLeft, System.run]

/-- **A session by time reports an identifier of the last seconds** that was added to the
peer, and says no longer that the tries are the same. -/
theorem session_by_time_reports_recent_ident :
    let near := System.blank {}
    let peer := System.blank { ns := 255 }
    let peer' := (peer.run (reliably [.insert recentIdent])).2
    let session (far : System) : Session Unit :=
      near.engine.session near.store (far.engine.asPeer far.store) { lag := 10 }
    Ident.make 1665182340 (List.replicate 20 0) = .ok recentIdent ∧
      recentIdent.timestamp? = some 1665182340 ∧ 1665182345 - 10 < 1665182340 ∧
      ∃ report report' last last',
        (ExceptT.run ((session peer).runAt 1665182345)).run () = (.ok report, last) ∧
          (ExceptT.run ((session peer').runAt 1665182345)).run () = (.ok report', last') ∧
          report.missing = [] ∧ report.inSync = true ∧
          recentIdent ∈ report'.missing ∧ report'.inSync = false := by
  intro near peer peer' session
  have hnear : near.Coherent ∅ := (coherent_of_opened (openedBlank_blank {})).1
  have hpeer : peer.Coherent ∅ := (coherent_of_opened (openedBlank_blank _)).1
  have hpeer' : peer'.Coherent {recentIdent} := System.coherent_of_inserts hpeer [recentIdent]
  have hpath : timestampDigits (1665182345 - 10) = .ok (49 :: [54, 54, 53, 49, 56, 50, 51, 51, 53]) :=
    rfl
  let settings : SyncConfig := { lag := 10 }
  obtain ⟨last, hrun⟩ := runAt_gives hnear hpeer
    (serves_asPeer (σ := Unit) peer.engine peer.store settings.timeout) hpath ()
  obtain ⟨last', hrun'⟩ := runAt_gives hnear hpeer'
    (serves_asPeer (σ := Unit) peer'.engine peer'.store settings.timeout) hpath ()
  have hstart : [49] <+: recentIdent.bytes := by decide
  have hfetch : 1 ≤ settings.identsPerFetch := by decide
  have hbudget : 1 ≤ settings.maxNodes := by decide
  obtain ⟨hmissing', hsync', -⟩ := reportOf_first hstart hfetch hbudget
  obtain ⟨hsync, hmissing, -⟩ := report_self hbudget
  exact ⟨rfl, Ident.timestamp?_of_make make_recentIdent, by decide, _, _, last, last', hrun, hrun',
    hmissing, hsync, hmissing', hsync'⟩

end MerkleSync
