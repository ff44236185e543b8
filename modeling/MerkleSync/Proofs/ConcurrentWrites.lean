import MerkleSync.Proofs.LiveSession
import MerkleSync.Proofs.Reconciliation

/-!
# Sessions under concurrent writes

Both tries may change between any two reads of a session.  An identifier that
the peer has at each of its answers, and the local trie lacks at each of its
reads, is never lost sight of: at any time it was found, or is below a path that
is queued.  For this a visit needs nothing but the two versions that it compares.

**Results.**
* `visit_reaches`: a visit loses none of these identifiers, and what it finds
  was missing.
* `walk_reaches`: by induction, neither does a walk.
* `safe_under_writes`: sessions between any two tries in use.
-/

namespace MerkleSync

section Sessions

variable {live : Live} {A B : Nat → Finset Ident} {fails : Prop} {settings : SyncConfig}
  {scope : Bytes} {log : List Read}

namespace Live

/-- What a walk knows: the identifiers that it found were missing, and one that
is missing throughout was found or is below a queued path. -/
structure Tracks (live : Live) (scope : Bytes) (log : List Read) (queue : List Bytes)
    (missing : List Ident) : Prop where
  sound : ∀ id ∈ missing, live.FoundMissing log id
  complete : CollisionFree (live.Hashes log scope) → ∀ id, live.MissingThroughout log id →
    id ∈ missing ∨ ∃ q ∈ queue, q <+: id.bytes

/-- The paths that a visit adds to the queue make up for the one that it takes. -/
theorem Tracks.visited {log' : List Read} {path : Bytes} {queue : List Bytes} {p : Progress}
    {v : Visit} (h : live.Tracks scope log (path :: queue) p.missing) (hgrow : log <:+ log')
    (hfound : ∀ id ∈ v.missing, live.FoundMissing log' id)
    (hcovers : CollisionFree (live.Hashes log' scope) → ∀ id, live.MissingThroughout log' id →
      path <+: id.bytes → id ∈ v.missing ∨ ∃ q ∈ v.later, q <+: id.bytes) :
    live.Tracks scope log' (queue ++ v.later) (p.add v).missing where
  sound id hid := by
    rcases List.mem_append.mp hid with hnew | hold
    · exact hfound id hnew
    · exact (h.sound id hold).mono hgrow
  complete hfree id hmissing := by
    have hfree' : CollisionFree (live.Hashes log scope) := hfree.anti fun x hx => hx.mono hgrow
    rcases h.complete hfree' id (hmissing.anti hgrow) with hold | ⟨q, hq, hpre⟩
    · exact Or.inl (List.mem_append_right _ hold)
    · rcases List.mem_cons.mp hq with rfl | hqueue
      · rcases hcovers hfree id hmissing hpre with hnew | ⟨later, hlater, hbelow⟩
        · exact Or.inl (List.mem_append_left _ hnew)
        · exact Or.inr ⟨later, List.mem_append_right _ hlater, hbelow⟩
      · exact Or.inr ⟨q, List.mem_append_left _ hqueue, hpre⟩

theorem Tracks.congr {queue : List Bytes} {missing missing' : List Ident}
    (h : live.Tracks scope log queue missing) (hmem : ∀ id, id ∈ missing' ↔ id ∈ missing) :
    live.Tracks scope log queue missing' where
  sound id hid := h.sound id ((hmem id).mp hid)
  complete hfree id hmissing := (h.complete hfree id hmissing).imp_left (hmem id).mpr

end Live

variable (hA : ∀ k, (live.near k).Coherent (A k)) (hB : ∀ k, (live.far k).Coherent (B k))
  (htime : ¬fails → ∀ k, (live.delivery k).InTime settings.timeout)

section Lacking
include hA

/-- **Checking one identifier** that was listed keeps it if it is missing. -/
theorem check_reaches {found : List Ident} {id : Ident}
    (hfound : ∀ other ∈ found, live.FoundMissing log other) (hid : live.Listed log id) :
    Reaches fails (do
      if ← Session.look (live.reads.contains id) then return found
        else return id :: found) log fun found' log' =>
      log <:+ log' ∧ (∀ other ∈ found', live.FoundMissing log' other) ∧
        ∀ other ∈ id :: found, live.MissingThroughout log' other → other ∈ found' := by
  refine reaches_bind (look_reaches (.contains id) (fun sys => sys.engine.contains sys.store id)
    (Engine.contains_of_coherent (hA _) id)) ?_
  rintro _ _ ⟨rfl, rfl⟩
  have hgrow := List.suffix_cons (Read.near log.length (.contains id)) log
  have hkept : ∀ other ∈ found,
      live.FoundMissing (Read.near log.length (.contains id) :: log) other :=
    fun other hother => (hfound other hother).mono hgrow
  by_cases hmem : id ∈ A log.length
  · rw [decide_eq_true hmem]
    refine reaches_pure ⟨hgrow, hkept, fun other hother hmissing => ?_⟩
    rcases List.mem_cons.mp hother with rfl | hother
    · have hlacks := hmissing.1 _ _ List.mem_cons_self
      exact absurd hmem ((hA _).lacks_iff.mp hlacks)
    · exact hother
  · rw [decide_eq_false hmem]
    refine reaches_pure ⟨hgrow, fun other hother => ?_, fun other hother _ => hother⟩
    rcases List.mem_cons.mp hother with rfl | hother
    · obtain ⟨k, path, hlt, hfetch, hhas⟩ := hid
      exact ⟨k, log.length, path, hlt, List.mem_cons_of_mem _ hfetch, hhas,
        List.mem_cons_self, (hA _).lacks_iff.mpr hmem⟩
    · exact hkept other hother

/-- **Checking listed identifiers** keeps those that are missing. -/
theorem lacking_reaches {ids found : List Ident}
    (hfound : ∀ id ∈ found, live.FoundMissing log id) (hids : ∀ id ∈ ids, live.Listed log id) :
    Reaches fails ((live.session settings).lacking found ids) log fun missing log' =>
      log <:+ log' ∧ (∀ id ∈ missing, live.FoundMissing log' id) ∧
        ∀ id, id ∈ found ∨ id ∈ ids → live.MissingThroughout log' id → id ∈ missing := by
  induction ids generalizing found log with
  | nil =>
      exact reaches_pure ⟨List.suffix_rfl, hfound,
        fun id hid _ => hid.resolve_right List.not_mem_nil⟩
  | cons id rest ih =>
      rw [Session.lacking, List.foldlM_cons]
      refine reaches_bind (check_reaches hA hfound (hids id List.mem_cons_self)) ?_
      rintro found' seen ⟨hgrow, hsound, hkept⟩
      have hrest : ∀ other ∈ rest, live.Listed seen other :=
        fun other hother => (hids other (List.mem_cons_of_mem id hother)).mono hgrow
      refine (ih hsound hrest).imp ?_
      rintro missing log' ⟨hmore, hall, hcomplete⟩
      refine ⟨hgrow.trans hmore, hall, fun other hother hmissing => hcomplete other ?_ hmissing⟩
      rcases hother with hother | hother
      · exact Or.inl (hkept other (List.mem_cons_of_mem id hother) (hmissing.anti hmore))
      · rcases List.mem_cons.mp hother with rfl | hother
        · exact Or.inl (hkept other List.mem_cons_self (hmissing.anti hmore))
        · exact Or.inr hother

end Lacking

section Visits
include hA hB

/-- An identifier that is missing throughout is not lost in the comparison of two
versions that were read. -/
theorem covers_of_reads {k k' : Nat} {path : Bytes} {limit : Nat} {id : Ident}
    (hours : .near k (.info path) ∈ log) (htheirs : .far k' (.info path) ∈ log)
    (hfree : CollisionFree (live.Hashes log scope)) (hmissing : live.MissingThroughout log id)
    (hpath : path <+: id.bytes) :
    id ∈ (visitOf (A k) (B k') limit path).missing ∨
      ∃ q ∈ (visitOf (A k) (B k') limit path).later, q <+: id.bytes := by
  refine visitOf_covers hfree (fun x hx => .near hours ((hashes_iff_hashed (hA k)).mpr hx))
    (fun x hx => .far htheirs ((hashes_iff_hashed (hB k')).mpr hx)) ?_ ?_ hpath
  · exact (hB k').has_iff.mp (hmissing.2 k' _ htheirs)
  · exact (hA k).lacks_iff.mp (hmissing.1 k _ hours)

/-- What is missing throughout is below the divergence that a session starts at. -/
theorem tracks_start (path : Bytes) :
    live.Tracks path [.near 1 (.divergence path (snapshotAlong (B 0) [] path).siblings),
      .far 0 (.snapshot path)]
      [divergenceOf (A 1) path (snapshotAlong (B 0) [] path).siblings] ({} : Progress).missing where
  sound := List.forall_mem_nil _
  complete hfree id hmissing := by
    refine Or.inr ⟨_, List.mem_singleton.mpr rfl, ?_⟩
    have hnot : id ∉ A 1 := (hA 1).lacks_iff.mp (hmissing.1 1 _ List.mem_cons_self)
    have hid : id ∈ B 0 :=
      (hB 0).has_iff.mp (hmissing.2 0 _ (List.mem_cons_of_mem _ List.mem_cons_self))
    by_contra hoff
    have hsame := agree_off_divergence hfree
      (fun x hx => .near List.mem_cons_self ((hashes_iff_hashed (hA 1)).mpr hx))
      (fun x hx => .far (List.mem_cons_of_mem _ List.mem_cons_self)
        ((hashes_iff_hashed (hB 0)).mpr hx)) id hoff
    exact hnot (hsame.mpr hid)

include htime

/-- **Fetching** what the peer lists below a path keeps all that is missing
throughout. -/
theorem fetch_reaches (path : Bytes) :
    Reaches fails (do
      let ids ← Session.ask settings.timeout "sync ids" (live.peer.idents path)
      return Visit.mk true (← (live.session settings).lacking [] ids) []) log fun v log' =>
      log <:+ log' ∧ (∀ id ∈ v.missing, live.FoundMissing log' id) ∧ v.later = [] ∧
        ∀ id, path <+: id.bytes → live.MissingThroughout log' id → id ∈ v.missing := by
  refine reaches_bind (ask_reaches (.idents path) (fun sys => sys.engine.idents sys.store path)
    htime (Engine.idents_of_coherent (hB _) path)) ?_
  rintro _ _ ⟨rfl, rfl⟩
  have hlisted : ∀ id ∈ identsOf (B log.length) path,
      live.Listed (.far log.length (.idents path) :: log) id :=
    fun id hid => ⟨log.length, path, Nat.lt_succ_self _, List.mem_cons_self,
      (hB _).has_iff.mpr (mem_identsOf.mp hid).1⟩
  refine reaches_bind (lacking_reaches hA (List.forall_mem_nil _) hlisted) ?_
  rintro missing log' ⟨hmore, hsound, hkept⟩
  refine reaches_pure ⟨(List.suffix_cons _ log).trans hmore, hsound, rfl, ?_⟩
  intro id hpath hmissing
  -- the peer has it at this answer too, so it is among those that are checked
  have hhas := hmissing.2 log.length (.idents path) (hmore.subset List.mem_cons_self)
  have hid : id ∈ identsOf (B log.length) path := mem_identsOf.mpr ⟨(hB _).has_iff.mp hhas, hpath⟩
  exact hkept id (Or.inr hid) hmissing

/-- **One visit** compares two versions.  What it finds was missing; it finds what
the comparison does, of what is missing throughout, and queues the same paths. -/
theorem visit_reaches (path : Bytes) :
    Reaches fails ((live.session settings).visit path) log fun v log' =>
      log <:+ log' ∧ (∀ id ∈ v.missing, live.FoundMissing log' id) ∧
        ∃ k k', .near k (.info path) ∈ log' ∧ .far k' (.info path) ∈ log' ∧
          v.later = (visitOf (A k) (B k') (live.session settings).fetchLimit path).later ∧
          ∀ id ∈ (visitOf (A k) (B k') (live.session settings).fetchLimit path).missing,
            live.MissingThroughout log' id → id ∈ v.missing := by
  refine reaches_bind (look_reaches (.info path) (fun sys => sys.engine.nodeInfo sys.store path)
    (Engine.nodeInfo_of_coherent (hA _) path)) ?_
  rintro _ _ ⟨rfl, rfl⟩
  refine reaches_bind (ask_reaches (.info path) (fun sys => sys.engine.nodeInfo sys.store path)
    htime (Engine.nodeInfo_of_coherent (hB _) path)) ?_
  rintro _ _ ⟨rfl, rfl⟩
  rw [List.length_cons]
  -- whatever is read later, these two versions decide what the visit does
  generalize hseen : Read.far (log.length + 1) (.info path) ::
    Read.near log.length (.info path) :: log = seen
  have hgrow : log <:+ seen := hseen ▸ (List.suffix_cons _ log).trans (List.suffix_cons _ _)
  have hours : Read.near log.length (.info path) ∈ seen := by simp [← hseen]
  have hasked : Read.far (log.length + 1) (.info path) ∈ seen := by simp [← hseen]
  cases htheirs : infoOf (B (log.length + 1)) path with
  | none =>
      refine reaches_pure ⟨hgrow, List.forall_mem_nil _, _, _, hours, hasked, ?_⟩
      simp only [visitOf, htheirs]
      exact ⟨trivial, List.forall_mem_nil _⟩
  | some theirs =>
      dsimp only
      by_cases hsame : (infoOf (A log.length) path).map (·.digest) = some theirs.digest
      · rw [if_pos hsame]
        refine reaches_pure ⟨hgrow, List.forall_mem_nil _, _, _, hours, hasked, ?_⟩
        simp only [visitOf, htheirs, if_pos hsame]
        exact ⟨trivial, List.forall_mem_nil _⟩
      · rw [if_neg hsame]
        by_cases hfew : theirs.itemCount.toNat ≤ (live.session settings).fetchLimit ∨
            path.length = identLength
        · rw [if_pos hfew]
          refine (fetch_reaches hA hB htime path).imp ?_
          rintro v log' ⟨hlog, hsound, hlater, hkept⟩
          refine ⟨hgrow.trans hlog, hsound, _, _, hlog.subset hours, hlog.subset hasked, ?_⟩
          simp only [visitOf, htheirs, if_neg hsame, if_pos hfew]
          refine ⟨hlater, fun id hid hmissing => hkept id ?_ hmissing⟩
          exact (mem_identsOf.mp ((mem_lackingOf.mp hid).resolve_left List.not_mem_nil).1).2
        · rw [if_neg hfew]
          refine reaches_pure ⟨hgrow, List.forall_mem_nil _, _, _, hours, hasked, ?_⟩
          simp only [visitOf, htheirs, if_neg hsame, if_neg hfew]
          exact ⟨trivial, List.forall_mem_nil _⟩

/-- **A walk** tracks what it started with, to its end unless it is cut short. -/
theorem walk_reaches (budget : Nat) {queue : List Bytes} {p : Progress}
    (h : live.Tracks scope log queue p.missing) :
    Reaches fails ((live.session settings).walk budget queue p) log fun p' log' =>
      log <:+ log' ∧ (∀ id ∈ p'.missing, live.FoundMissing log' id) ∧
        (p'.truncated = false → live.Tracks scope log' [] p'.missing) := by
  induction budget generalizing queue p log with
  | zero =>
      cases queue with
      | nil => exact reaches_pure ⟨List.suffix_rfl, h.sound, fun _ => h⟩
      | cons path rest => exact reaches_pure ⟨List.suffix_rfl, h.sound, Bool.noConfusion⟩
  | succ budget ih =>
      cases queue with
      | nil => exact reaches_pure ⟨List.suffix_rfl, h.sound, fun _ => h⟩
      | cons path rest =>
          refine reaches_bind (visit_reaches hA hB htime path) ?_
          rintro v seen ⟨hgrow, hfound, k, k', hours, htheirs, hlater, hkept⟩
          -- below `path` the visit accounts for all, elsewhere the rest of the queue does
          have hcovers : CollisionFree (live.Hashes seen scope) → ∀ id,
              live.MissingThroughout seen id → path <+: id.bytes →
                id ∈ v.missing ∨ ∃ q ∈ v.later, q <+: id.bytes := by
            intro hfree id hmissing hpath
            rw [hlater]
            exact (covers_of_reads hA hB hours htheirs hfree hmissing hpath).imp_left
              fun hid => hkept id hid hmissing
          refine (ih (h.visited hgrow hfound hcovers)).imp ?_
          rintro p' log' ⟨hmore, hsound, hend⟩
          exact ⟨hgrow.trans hmore, hsound, hend⟩

/-- A session is the walk from where the peer's first and the local second version
part. -/
theorem run_of_walk (path : Bytes) {R : Progress → List Read → Prop}
    (hwalk : Reaches fails ((live.session settings).walk settings.maxNodes
        [divergenceOf (A 1) path (snapshotAlong (B 0) [] path).siblings] {})
      [.near 1 (.divergence path (snapshotAlong (B 0) [] path).siblings), .far 0 (.snapshot path)]
      R) :
    Reaches fails ((live.session settings).run path) [] fun report log' =>
      ∃ p, R p log' ∧ (∀ id, id ∈ report.missing ↔ id ∈ p.missing) ∧
        report.visited = p.visited ∧ report.truncated = p.truncated := by
  refine reaches_bind (ask_reaches (.snapshot path) (fun sys => sys.engine.snapshot sys.store path)
    htime (Engine.snapshot_of_coherent (hB _) path)) ?_
  rintro _ _ ⟨rfl, rfl⟩
  refine reaches_bind (look_reaches (.divergence path _)
    (fun sys => sys.engine.divergence sys.store path _)
    (Engine.divergence_of_coherent (hA _) path _)) ?_
  rintro _ _ ⟨rfl, rfl⟩
  refine reaches_bind hwalk fun p log' hp => reaches_pure ⟨p, hp, fun id => ?_, rfl, rfl⟩
  rw [Ident.mem_dropRepeats, Ident.mem_sort]

/-- **A session** reports what was missing, and unless it is cut short all that is
missing throughout. -/
theorem run_reaches (path : Bytes) :
    Reaches fails ((live.session settings).run path) [] fun report log' =>
      (∀ id ∈ report.missing, live.FoundMissing log' id) ∧
        (report.truncated = false → live.Tracks path log' [] report.missing) := by
  have hwalk := walk_reaches hA hB htime settings.maxNodes (tracks_start hA hB path)
  refine (run_of_walk hA hB htime path hwalk).imp ?_
  rintro report log' ⟨p, ⟨_, hsound, hend⟩, hmem, _, htruncated⟩
  refine ⟨fun id hid => hsound id ((hmem id).mp hid), fun hdone => ?_⟩
  exact (hend (htruncated.symm.trans hdone)).congr hmem

/-- **With a peer of few identifiers** a session visits one node. -/
theorem run_few_reaches (hbudget : 1 ≤ settings.maxNodes)
    (hfew : ∀ k, (B k).card ≤ (live.session settings).fetchLimit) (path : Bytes) :
    Reaches fails ((live.session settings).run path) [] fun report _ =>
      report.visited = 1 ∧ report.truncated = false := by
  obtain ⟨budget, hmax⟩ := Nat.exists_eq_add_of_le' hbudget
  have hwalk : ∀ start log, Reaches fails
      ((live.session settings).walk settings.maxNodes [start] {}) log
        fun p _ => p.visited = 1 ∧ p.truncated = false := by
    intro start log
    rw [hmax]
    refine reaches_bind (visit_reaches hA hB htime start) ?_
    rintro v _ ⟨_, _, k, k', _, _, hlater, _⟩
    rw [visitOf_later_of_few ((Finset.card_filter_le _ _).trans (hfew k'))] at hlater
    rw [hlater]
    cases budget with
    | zero => exact reaches_pure ⟨rfl, rfl⟩
    | succ budget => exact reaches_pure ⟨rfl, rfl⟩
  refine (run_of_walk hA hB htime path (hwalk _ _)).imp ?_
  rintro report _ ⟨p, ⟨hone, hdone⟩, _, hvisited, htruncated⟩
  exact ⟨hvisited.trans hone, htruncated.trans hdone⟩

end Visits
end Sessions

/-- **Sessions are safe under concurrent writes.**  Two engines are opened on
blank namespaces and called in any way, before the session and between any two
of its reads; the answers of the second may be late, lost or replaced by errors.
If all answers come in time, the session ends with a report.  Whenever it ends
with a report, everything reported as missing was held by the peer when it was
asked for identifiers, and was absent when the local trie was asked for it later.
Where no two strings that are hashed for the versions that were read have the
same digest and none has the empty one, a session that was not cut short reports
every identifier that the peer has at each of its answers and the local trie
lacks at each of its reads. -/
theorem safe_under_writes {config config' : EngineConfig} {sys sys' : System}
    (h : OpenedBlank config sys) (h' : OpenedBlank config' sys') (calls calls' : Nat → List Step)
    (delivery : Nat → Delivery) (settings : SyncConfig) (path : Bytes) :
    let live : Live := ⟨sys.version calls, sys'.version calls', delivery⟩
    let ended := (ExceptT.run ((live.session settings).run path)).run []
    ((∀ k, (delivery k).InTime settings.timeout) → ∃ report log, ended = (.ok report, log)) ∧
      ∀ report log, ended = (.ok report, log) →
        (∀ id ∈ report.missing, live.FoundMissing log id) ∧
          (report.truncated = false → CollisionFree (live.Hashes log path) →
            ∀ id, live.MissingThroughout log id → id ∈ report.missing) := by
  intro live ended
  obtain ⟨A, hA⟩ := System.exists_held (coherent_of_opened h).1 calls
  obtain ⟨B, hB⟩ := System.exists_held (coherent_of_opened h').1 calls'
  have hreaches : ∀ fails : Prop, (¬fails → ∀ k, (delivery k).InTime settings.timeout) →
      Reaches fails ((live.session settings).run path) [] fun report log =>
        (∀ id ∈ report.missing, live.FoundMissing log id) ∧
          (report.truncated = false → live.Tracks path log [] report.missing) :=
    fun fails htime => run_reaches hA hB htime path
  constructor
  · intro htime
    obtain ⟨report, log, hended, _⟩ := (hreaches False fun _ => htime).exists_ok
    exact ⟨report, log, hended⟩
  · intro report log hended
    have hpost := (hreaches True fun hnot => absurd trivial hnot).ok report log hended
    refine ⟨hpost.1, fun hdone hfree id hmissing => ?_⟩
    exact ((hpost.2 hdone).complete hfree id hmissing).resolve_right (by simp)

/-- A peer that gets an identifier before the session, and a local trie that gets
it and loses it again while the session goes on. -/
theorem safe_under_writes_between :
    let calls : Nat → List Step := fun
      | 1 => reliably [.insert (constantIdent 0), .delete (constantIdent 0)]
      | _ => []
    let calls' : Nat → List Step := fun
      | 0 => reliably [.insert (constantIdent 0)]
      | _ => []
    let live : Live := ⟨(System.blank {}).version calls,
      (System.blank { ns := 255 }).version calls', fun _ => .prompt⟩
    ∃ report log, (ExceptT.run ((live.session {}).run [])).run [] = (.ok report, log) ∧
      report.truncated = false ∧ CollisionFree (live.Hashes log []) ∧
        live.MissingThroughout log (constantIdent 0) ∧ constantIdent 0 ∈ report.missing ∧
          live.FoundMissing log (constantIdent 0) := by
  intro calls calls' live
  have hnear : OpenedBlank {} (System.blank {}) := openedBlank_blank {}
  have hfar : OpenedBlank { ns := 255 } (System.blank { ns := 255 }) := openedBlank_blank _
  have hA : ∀ k, (live.near k).Coherent ∅ := by
    intro k
    induction k with
    | zero => exact (coherent_of_opened hnear).1
    | succ k ih =>
        cases k with
        | zero =>
            exact System.reliably_coherent ih [.insert (constantIdent 0), .delete (constantIdent 0)]
        | succ k => exact ih
  have hB : ∀ k, (live.far k).Coherent {constantIdent 0} := by
    intro k
    induction k with
    | zero =>
        exact System.reliably_coherent (coherent_of_opened hfar).1 [.insert (constantIdent 0)]
    | succ k ih => exact ih
  obtain ⟨hends, hsafe⟩ := safe_under_writes hnear hfar calls calls' (fun _ => .prompt) {} []
  obtain ⟨report, log, hended⟩ := hends fun _ => trivial
  obtain ⟨hsound, hcomplete⟩ := hsafe report log hended
  have hdone : report.truncated = false := by
    have hfew : Reaches True ((live.session {}).run []) [] fun report _ =>
        report.visited = 1 ∧ report.truncated = false := by
      refine run_few_reaches hA hB (fun hnot => absurd trivial hnot) ?_ ?_ []
      · decide
      · exact fun _ => by decide
    exact (hfew.ok report log hended).2
  have hfree : CollisionFree (live.Hashes log []) := by
    refine collisionFree_constantIdent.anti fun x hx => ?_
    cases hx with
    | near _ hdata => exact Or.inl ((hashes_iff_hashed (hA _)).mp hdata)
    | far _ hdata => exact Or.inr ((hashes_iff_hashed (hB _)).mp hdata)
  have hmissing : live.MissingThroughout log (constantIdent 0) :=
    ⟨fun k _ _ => (hA k).lacks_iff.mpr (Finset.notMem_empty _),
      fun k _ _ => (hB k).has_iff.mpr (Finset.mem_singleton_self _)⟩
  have hfound := hcomplete hdone hfree _ hmissing
  exact ⟨report, log, hended, hdone, hfree, hmissing, hfound, hsound _ hfound⟩

end MerkleSync
