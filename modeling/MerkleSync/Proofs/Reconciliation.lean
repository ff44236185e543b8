import MerkleSync.Proofs.Divergence
import MerkleSync.Proofs.FewIdentifiers
import MerkleSync.Proofs.History
import MerkleSync.Proofs.SessionMeaning

/-!
# Sessions are exact

A session finds members of the other set only, and all of them unless it was
cut short.  That nothing is missed has three parts: outside of the divergence
the sets are the same; a visit leaves alone only what is the same on both
sides; and every other member is fetched or is under a path that is visited
later.

**Results.**
* `visitOf_sound`, `visitOf_covers`, `walkOf_complete`: what a visit and a walk
  find.
* `walkOf_depth`: how far down a walk is after some visits.
* `truncated_of_few`: a peer of few identifiers needs one visit.
* `inSync_iff`: a session that may visit a node says whether the sets are the
  same.
* `session_exact`: sessions between any two engines.
-/

namespace MerkleSync

/-- The byte strings that are hashed for two tries. -/
def EitherHashed (A B : Finset Ident) (scope : Bytes) (data : Bytes) : Prop :=
  Hashed A scope data ∨ Hashed B scope data

section Visits

variable {A B : Finset Ident} {scope : Bytes} {hashed : Bytes → Prop} {limit : Nat} {path : Bytes}

theorem mem_lackingOf {id : Ident} {ids found : List Ident} :
    id ∈ lackingOf A found ids ↔ id ∈ found ∨ id ∈ ids ∧ id ∉ A := by
  induction ids generalizing found with
  | nil => simp [lackingOf]
  | cons next rest ih =>
      rw [lackingOf, List.foldl_cons, ← lackingOf, ih]
      by_cases hnext : next ∈ A
      · rw [if_pos hnext, List.mem_cons]
        constructor
        · rintro (hfound | ⟨hrest, hid⟩)
          · exact Or.inl hfound
          · exact Or.inr ⟨Or.inr hrest, hid⟩
        · rintro (hfound | ⟨rfl | hrest, hid⟩)
          · exact Or.inl hfound
          · exact absurd hnext hid
          · exact Or.inr ⟨hrest, hid⟩
      · rw [if_neg hnext, List.mem_cons, List.mem_cons]
        constructor
        · rintro ((rfl | hfound) | ⟨hrest, hid⟩)
          · exact Or.inr ⟨Or.inl rfl, hnext⟩
          · exact Or.inl hfound
          · exact Or.inr ⟨Or.inr hrest, hid⟩
        · rintro (hfound | ⟨rfl | hrest, hid⟩)
          · exact Or.inl (Or.inr hfound)
          · exact Or.inl (Or.inl rfl)
          · exact Or.inr ⟨hrest, hid⟩

/-- Between equal sets a visit finds no difference. -/
theorem visitOf_self (A : Finset Ident) (limit : Nat) (path : Bytes) :
    visitOf A A limit path = ⟨false, [], []⟩ := by
  rw [visitOf]
  cases infoOf A path with
  | none => rfl
  | some info => exact if_pos rfl

/-- **A visit finds only what is missing.** -/
theorem visitOf_sound {id : Ident} (h : id ∈ (visitOf A B limit path).missing) :
    id ∈ B ∧ id ∉ A := by
  rw [visitOf] at h
  split at h
  · cases h
  · split at h
    · cases h
    · split at h
      · rcases mem_lackingOf.mp h with hnone | ⟨hid, hnot⟩
        · cases hnone
        · exact ⟨(mem_identsOf.mp hid).1, hnot⟩
      · cases h

/-- **Few identifiers** are fetched outright, so no path is left for later. -/
theorem visitOf_later_of_few {path : Bytes} (hfew : (under B path).card ≤ limit) :
    (visitOf A B limit path).later = [] := by
  rw [visitOf]
  cases htheirs : infoOf B path with
  | none => rfl
  | some theirs =>
      have hcount : theirs.itemCount.toNat ≤ limit := by
        rw [infoOf_of_occurs (infoOf_eq_some htheirs).1] at htheirs
        rw [← Option.some.inj htheirs, canonical_itemCount, UInt64.toNat_ofNat']
        exact (Nat.mod_le _ _).trans hfew
      dsimp only
      split
      · rfl
      · rw [if_pos (Or.inl hcount)]

/-- **A visit that finds no difference** is of a node with the same members. -/
theorem agree_of_visitOf (hfree : CollisionFree hashed) (hA : ∀ x, Hashed A scope x → hashed x)
    (hB : ∀ x, Hashed B scope x → hashed x) (h : (visitOf A B limit path).differs = false) :
    AgreeUnder path A B := by
  rw [visitOf] at h
  cases htheirs : infoOf B path with
  | none =>
      rw [htheirs] at h
      have hours : infoOf A path = none := by simpa using h
      exact agree_of_not_occurs (infoOf_eq_none hours) (infoOf_eq_none htheirs)
  | some theirs =>
      rw [htheirs] at h
      dsimp only at h
      split at h
      · next hdigest =>
          obtain ⟨ours, hours, hsame⟩ := Option.map_eq_some_iff.mp hdigest
          rw [(infoOf_eq_some hours).2.1, (infoOf_eq_some htheirs).2.1] at hsame
          exact agree_of_digest_eq hfree hA hB hsame
      · split at h
        · cases h
        · cases h

/-- **A visit misses nothing**: a missing identifier below the node is found, or
is below a path that is visited later. -/
theorem visitOf_covers (hfree : CollisionFree hashed) (hA : ∀ x, Hashed A scope x → hashed x)
    (hB : ∀ x, Hashed B scope x → hashed x) {id : Ident} (hid : id ∈ B) (hnot : id ∉ A)
    (hpath : path <+: id.bytes) :
    id ∈ (visitOf A B limit path).missing ∨
      ∃ q ∈ (visitOf A B limit path).later, q <+: id.bytes := by
  rw [visitOf]
  cases htheirs : infoOf B path with
  | none => exact absurd ⟨id, hid, hpath⟩ (infoOf_eq_none htheirs)
  | some theirs =>
      obtain ⟨_, hdigest, hchildren⟩ := infoOf_eq_some htheirs
      dsimp only
      by_cases hsame : (infoOf A path).map (·.digest) = some theirs.digest
      · obtain ⟨ours, hours, hequal⟩ := Option.map_eq_some_iff.mp hsame
        rw [(infoOf_eq_some hours).2.1, hdigest] at hequal
        exact absurd ((agree_of_digest_eq hfree hA hB hequal id hpath).mpr hid) hnot
      · rw [if_neg hsame]
        by_cases hfew : theirs.itemCount.toNat ≤ limit ∨ path.length = identLength
        · rw [if_pos hfew]
          exact Or.inl (mem_lackingOf.mpr (Or.inr ⟨mem_identsOf.mpr ⟨hid, hpath⟩, hnot⟩))
        · rw [if_neg hfew]
          right
          have hlen : path.length < identLength := by
            have hle := hpath.length_le
            rw [id.length_eq] at hle
            exact Nat.lt_of_le_of_ne hle (not_or.mp hfew).2
          obtain ⟨b, hb⟩ := exists_next hpath hlen
          have hocc : Occurs B (path ++ [b]) := ⟨id, hid, hb⟩
          have hchild : (b, (canonical B (path ++ [b])).summary) ∈ theirs.children.entries := by
            rw [← ByteMap.get?_eq_some_iff, hchildren, get?_canonical_children, if_pos hocc]
          refine ⟨path ++ [b], ?_, hb⟩
          refine List.mem_map.mpr ⟨_, List.mem_filter.mpr ⟨hchild, ?_⟩, rfl⟩
          -- a child with the same digest on both sides would have the same members
          cases hours : (infoOf A path).bind (·.children.get? b) with
          | none => rfl
          | some summary =>
              obtain ⟨ours, hinfo, hget⟩ := Option.bind_eq_some_iff.mp hours
              rw [(infoOf_eq_some hinfo).2.2, get?_canonical_children] at hget
              dsimp only
              rw [bne_iff_ne]
              intro hequal
              split at hget
              · obtain rfl := Option.some.inj hget
                exact hnot ((agree_of_digest_eq hfree hA hB hequal id hb).mpr hid)
              · cases hget

end Visits

section Walks

variable {visit : Bytes → Visit}

theorem walkOf_sound {P : Ident → Prop} (hvisit : ∀ path, ∀ id ∈ (visit path).missing, P id)
    {budget : Nat} {queue : List Bytes} {p : Progress} (hp : ∀ id ∈ p.missing, P id) :
    ∀ id ∈ (walkOf visit budget queue p).missing, P id := by
  induction budget generalizing queue p with
  | zero =>
      cases queue with
      | nil => exact hp
      | cons path rest => exact hp
  | succ budget ih =>
      cases queue with
      | nil => exact hp
      | cons path rest =>
          refine ih fun id hid => ?_
          rcases List.mem_append.mp hid with hnew | hold
          · exact hvisit path id hnew
          · exact hp id hold

/-- **A walk that is not cut short** finds what its visits do not miss. -/
theorem walkOf_complete {P : Ident → Prop}
    (hvisit : ∀ path id, P id → path <+: id.bytes →
      id ∈ (visit path).missing ∨ ∃ q ∈ (visit path).later, q <+: id.bytes)
    {budget : Nat} {queue : List Bytes} {p : Progress}
    (hend : (walkOf visit budget queue p).truncated = false) {id : Ident} (hid : P id)
    (hfound : id ∈ p.missing ∨ ∃ q ∈ queue, q <+: id.bytes) :
    id ∈ (walkOf visit budget queue p).missing := by
  induction budget generalizing queue p with
  | zero =>
      cases queue with
      | nil => exact hfound.resolve_right (by simp)
      | cons path rest => cases hend
  | succ budget ih =>
      cases queue with
      | nil => exact hfound.resolve_right (by simp)
      | cons path rest =>
          refine ih hend ?_
          rcases hfound with hfound | ⟨q, hq, hpre⟩
          · exact Or.inl (List.mem_append_right _ hfound)
          · rcases List.mem_cons.mp hq with rfl | hrest
            · rcases hvisit q id hid hpre with hnew | ⟨later, hlater, hbelow⟩
              · exact Or.inl (List.mem_append_left _ hnew)
              · exact Or.inr ⟨later, List.mem_append_right _ hlater, hbelow⟩
            · exact Or.inr ⟨q, List.mem_append_left _ hrest, hpre⟩

theorem walkOf_differs {budget : Nat} {queue : List Bytes} {p : Progress}
    (h : p.differs = true) : (walkOf visit budget queue p).differs = true := by
  induction budget generalizing queue p with
  | zero =>
      cases queue with
      | nil => exact h
      | cons path rest => exact h
  | succ budget ih =>
      cases queue with
      | nil => exact h
      | cons path rest =>
          refine ih ?_
          rw [Progress.add, h]
          rfl

/-- A walk that was cut short has made all its visits. -/
theorem walkOf_visited_of_truncated {budget : Nat} {queue : List Bytes} {p : Progress}
    (hstart : p.truncated = false) (hend : (walkOf visit budget queue p).truncated = true) :
    (walkOf visit budget queue p).visited = p.visited + budget := by
  induction budget generalizing queue p with
  | zero =>
      cases queue with
      | nil => rfl
      | cons path rest => rfl
  | succ budget ih =>
      cases queue with
      | nil =>
          rw [walkOf, hstart] at hend
          cases hend
      | cons path rest =>
          have hnext : (p.add (visit path)).truncated = false := hstart
          have hvisits : (p.add (visit path)).visited = p.visited + 1 := rfl
          rw [walkOf] at hend ⊢
          rw [ih hnext hend, hvisits, Nat.add_assoc, Nat.add_comm 1]

/-- **A walk comes down one step with each visit** at most: what it finds at some depth it
finds after as many visits. -/
theorem walkOf_depth {depth base : Nat}
    (hlater : ∀ path, ∀ q ∈ (visit path).later, q.length ≤ path.length + 1)
    (hfound : ∀ path, ∀ id ∈ (visit path).missing, depth ≤ path.length)
    {budget : Nat} {queue : List Bytes} {p : Progress}
    (hqueue : ∀ q ∈ queue, q.length ≤ base + p.visited)
    (hmissing : ∀ id ∈ p.missing, depth < base + p.visited) :
    ∀ id ∈ (walkOf visit budget queue p).missing,
      depth < base + (walkOf visit budget queue p).visited := by
  induction budget generalizing queue p with
  | zero =>
      cases queue with
      | nil => exact hmissing
      | cons path rest => exact hmissing
  | succ budget ih =>
      cases queue with
      | nil => exact hmissing
      | cons path rest =>
          have hpath := hqueue path List.mem_cons_self
          refine ih (fun q hq => ?_) fun id hid => ?_
          · change q.length ≤ base + (p.visited + 1)
            rcases List.mem_append.mp hq with hrest | hnew
            · exact Nat.le_succ_of_le (hqueue q (List.mem_cons_of_mem path hrest))
            · exact (hlater path q hnew).trans (Nat.succ_le_succ hpath)
          · change depth < base + (p.visited + 1)
            rcases List.mem_append.mp hid with hnew | hold
            · exact Nat.lt_succ_of_le ((hfound path id hnew).trans hpath)
            · exact Nat.lt_succ_of_lt (hmissing id hold)

/-- The walk after one visit that queued nothing. -/
theorem walkOf_single {path : Bytes} (budget : Nat) (p : Progress)
    (h : (visit path).later = []) :
    walkOf visit (budget + 1) [path] p = p.add (visit path) := by
  rw [walkOf, h, List.append_nil]
  cases budget with
  | zero => rfl
  | succ budget => rfl

end Walks

section Reports

variable {A B : Finset Ident} {config : SyncConfig} {path : Bytes}

theorem mem_missing {id : Ident} :
    id ∈ (reportOf A B config path).missing ↔ id ∈ (progressOf A B config path).missing := by
  rw [reportOf, Ident.mem_dropRepeats, Ident.mem_sort]

/-- **Soundness**: only identifiers of the peer that are missing are reported. -/
theorem missing_sound {id : Ident} (h : id ∈ (reportOf A B config path).missing) :
    id ∈ B ∧ id ∉ A := by
  rw [mem_missing] at h
  exact walkOf_sound (P := fun id => id ∈ B ∧ id ∉ A) (fun _ _ hid => visitOf_sound hid)
    (fun id hid => absurd hid List.not_mem_nil) id h

/-- **Between equal sets** one visit is enough. -/
theorem report_self (hbudget : 1 ≤ config.maxNodes) :
    (reportOf A A config path).inSync = true ∧ (reportOf A A config path).missing = [] ∧
      (reportOf A A config path).visited = 1 ∧ (reportOf A A config path).truncated = false := by
  obtain ⟨budget, hmax⟩ := Nat.exists_eq_add_of_le' hbudget
  have hlater :
      (visitOf A A (min config.identsPerFetch Limit.idents) (startOf A A path)).later = [] := by
    rw [visitOf_self]
  have hprogress : progressOf A A config path = Progress.add {}
      (visitOf A A (min config.identsPerFetch Limit.idents) (startOf A A path)) := by
    rw [progressOf, hmax, walkOf_single budget {} hlater]
  rw [visitOf_self] at hprogress
  rw [reportOf, hprogress]
  refine ⟨rfl, ?_, rfl, rfl⟩
  simp [Progress.add, Ident.sort, Ident.dropRepeats]

/-- **A session with a peer of few identifiers** is not cut short. -/
theorem truncated_of_few (hbudget : 1 ≤ config.maxNodes)
    (hfew : B.card ≤ min config.identsPerFetch Limit.idents) :
    (reportOf A B config path).truncated = false := by
  obtain ⟨budget, hmax⟩ := Nat.exists_eq_add_of_le' hbudget
  have hlater : (visitOf A B (min config.identsPerFetch Limit.idents)
      (startOf A B path)).later = [] :=
    visitOf_later_of_few ((Finset.card_filter_le _ _).trans hfew)
  rw [reportOf, progressOf, hmax, walkOf_single budget {} hlater]
  rfl

section Exactness

variable (hfree : CollisionFree (EitherHashed A B path))
include hfree

/-- **Completeness**: a session that was not cut short reports all of them. -/
theorem missing_complete (hend : (reportOf A B config path).truncated = false) {id : Ident}
    (hid : id ∈ B) (hnot : id ∉ A) : id ∈ (reportOf A B config path).missing := by
  have hstart : startOf A B path <+: id.bytes := by
    by_contra hoff
    have hsame := agree_off_divergence hfree (fun _ => Or.inl) (fun _ => Or.inr) id hoff
    exact hnot (hsame.mpr hid)
  rw [mem_missing]
  refine walkOf_complete (P := fun id => id ∈ B ∧ id ∉ A) ?_ hend ⟨hid, hnot⟩
    (Or.inr ⟨startOf A B path, List.mem_singleton.mpr rfl, hstart⟩)
  rintro q other ⟨hother, hlacks⟩ hq
  exact visitOf_covers hfree (fun _ => Or.inl) (fun _ => Or.inr) hother hlacks hq

/-- If one identifier is missing, it is all that is reported. -/
theorem missing_eq_singleton (hend : (reportOf A B config path).truncated = false) {id : Ident}
    (honly : B \ A = {id}) : (reportOf A B config path).missing = [id] := by
  refine Ascending.ext (Ident.ascending_dropRepeats_sort _) (List.pairwise_singleton _ id)
    fun other => ?_
  rw [List.mem_singleton, ← Finset.mem_singleton, ← honly, Finset.mem_sdiff]
  exact ⟨missing_sound, fun h => missing_complete hfree hend h.1 h.2⟩

/-- **A session that may visit a node** says whether the sets are the same. -/
theorem inSync_iff (hbudget : 1 ≤ config.maxNodes) :
    (reportOf A B config path).inSync = true ↔ A = B := by
  constructor
  · intro hsync
    obtain ⟨budget, hmax⟩ := Nat.exists_eq_add_of_le' hbudget
    have hdiffers : (progressOf A B config path).differs = false := by
      rw [reportOf, Bool.and_eq_true, Bool.not_eq_true'] at hsync
      exact hsync.1
    have hvisit : (visitOf A B (min config.identsPerFetch Limit.idents)
        (startOf A B path)).differs = false := by
      by_contra hfound
      rw [Bool.not_eq_false] at hfound
      rw [progressOf, hmax, walkOf, walkOf_differs (by simp [Progress.add, hfound])] at hdiffers
      cases hdiffers
    have hunder := agree_of_visitOf hfree (fun _ => Or.inl) (fun _ => Or.inr) hvisit
    ext id
    by_cases hon : startOf A B path <+: id.bytes
    · exact hunder id hon
    · exact agree_off_divergence hfree (fun _ => Or.inl) (fun _ => Or.inr) id hon
  · rintro rfl
    exact (report_self hbudget).1

end Exactness
end Reports

/-- **Sessions are exact.**  Two engines have any histories from blank namespaces,
which leave the sets `A` and `B`; the second serves as a peer and neither
changes.  Every session of the first with the second, for every path and all
settings, ends with a report, from every state that the peer may depend on.
What it reports as missing is ascending and missing indeed.  Where `A = B` and
a node may be visited, it visits one and finds them in sync.  Where no two
strings that are hashed for the two tries have the same digest and none has the
empty one, a session that was not cut short reports all that is missing, and one
that may visit a node says whether the sets are the same. -/
theorem session_exact {σ : Type} {config config' : EngineConfig} {sys sys' : System}
    (h : OpenedBlank config sys) (h' : OpenedBlank config' sys') (steps steps' : List Step)
    {far : Peer σ} {settings : SyncConfig}
    (hfar : far.Serves (sys'.run steps').2.engine (sys'.run steps').2.store settings.timeout)
    (path : Bytes) (state : σ) :
    let near := (sys.run steps).2
    let A := setLeft ∅ (sys.run steps).1
    let B := setLeft ∅ (sys'.run steps').1
    ∃ report state',
      (ExceptT.run ((near.engine.session near.store far settings).run path)).run state =
          (.ok report, state') ∧
        Ascending report.missing ∧
        (∀ id ∈ report.missing, id ∈ B ∧ id ∉ A) ∧
        (A = B → 1 ≤ settings.maxNodes →
          report.inSync = true ∧ report.missing = [] ∧ report.visited = 1 ∧
            report.truncated = false) ∧
        (CollisionFree (EitherHashed A B path) →
          (report.truncated = false → ∀ id, id ∈ report.missing ↔ id ∈ B ∧ id ∉ A) ∧
            (1 ≤ settings.maxNodes → (report.inSync = true ↔ A = B))) := by
  intro near A B
  obtain ⟨hnear, _⟩ := run_of_opened h steps
  obtain ⟨hpeer, _⟩ := run_of_opened h' steps'
  obtain ⟨state', hrun⟩ := run_gives hnear hpeer hfar path state
  refine ⟨reportOf A B settings path, state', hrun, Ident.ascending_dropRepeats_sort _,
    fun id hid => missing_sound hid, ?_, ?_⟩
  · intro hsame hbudget
    rw [← hsame]
    exact report_self hbudget
  · intro hfree
    refine ⟨fun hend id => ⟨missing_sound, fun ⟨hid, hnot⟩ => ?_⟩, inSync_iff hfree⟩
    exact missing_complete hfree hend hid hnot

theorem not_hashed_empty {scope data : Bytes} : ¬Hashed ∅ scope data := by
  intro h
  cases h with
  | leaf hid => exact Finset.notMem_empty _ hid
  | inner _ hocc => exact occurs_empty _ hocc
  | @siblings path b _ hsome =>
      rw [canonical_of_not_occurs (occurs_empty path)] at hsome
      cases hsome

/-- An empty trie and one of one identifier have no collisions. -/
theorem collisionFree_constantIdent :
    CollisionFree (EitherHashed ∅ {constantIdent 0} []) := by
  refine collisionFree_constantIdents.anti fun x hx => ⟨{constantIdent 0}, ?_, ?_⟩
  · simp
  · exact hx.resolve_left not_hashed_empty

/-- An empty trie and a peer with one identifier. -/
theorem session_exact_into_empty :
    let near := System.blank {}
    let peer := System.blank { ns := 255 }
    let steps := reliably [.insert (constantIdent 0)]
    let far : Peer Unit := (peer.run steps).2.engine.asPeer (peer.run steps).2.store
    OpenedBlank {} near ∧ OpenedBlank { ns := 255 } peer ∧
      CollisionFree (EitherHashed ∅ {constantIdent 0} []) ∧
      ∃ report state',
        (ExceptT.run ((near.engine.session near.store far {}).run [])).run () =
            (.ok report, state') ∧
          report.inSync = false ∧ report.truncated = false ∧
          ∀ id, id ∈ report.missing ↔ id = constantIdent 0 := by
  intro near peer steps far
  have hnear : OpenedBlank {} near := openedBlank_blank _
  have hpeer : OpenedBlank { ns := 255 } peer := openedBlank_blank _
  have hset : setLeft ∅ (peer.run steps).1 = {constantIdent 0} := by
    rw [System.setLeft_reliably (coherent_of_opened hpeer).1]
    decide
  have hserves : far.Serves (peer.run steps).2.engine (peer.run steps).2.store
      (SyncConfig.timeout {}) :=
    serves_asPeer _ _ _
  obtain ⟨report, state', hrun, _, _, _, hexact⟩ := session_exact hnear hpeer [] steps hserves [] ()
  rw [hset] at hexact
  obtain ⟨hmissing, hsync⟩ := hexact collisionFree_constantIdent
  have hend : report.truncated = false := by
    obtain ⟨_, hgives⟩ := run_gives (coherent_of_opened hnear).1 (run_of_opened hpeer steps).1
      hserves [] ()
    rw [hset] at hgives
    obtain rfl : reportOf ∅ {constantIdent 0} {} [] = report :=
      Except.ok.inj (congrArg Prod.fst (hgives.symm.trans hrun))
    exact truncated_of_few (by decide) (by decide)
  refine ⟨hnear, hpeer, collisionFree_constantIdent, report, state', hrun, ?_, hend, fun id => ?_⟩
  · rw [Bool.eq_false_iff]
    intro hdone
    have hsame : (∅ : Finset Ident) = {constantIdent 0} := (hsync (by decide)).mp hdone
    exact absurd hsame (by decide)
  · rw [hmissing hend id, Finset.mem_singleton]
    exact and_iff_left (Finset.notMem_empty id)

end MerkleSync
