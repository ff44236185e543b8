import MerkleSync.Proofs.Convergence
import MerkleSync.Proofs.HostilePeer
import MerkleSync.Replica

/-!
# Accounting for insertions

A pull, and the insertion of a list, make one insertion after another.  Each one adds
its identifier and says whether it was new, or changes nothing if the store refuses its
commit.  So the list is worked off up to the first new identifier that is refused, and
what is counted up to there are the new identifiers, each once.

What a session reports as missing is ascending and absent from the local trie, whatever
the peer answers.  So all of it is new.

**Results.**
* `insertRefusing_cases`: one insertion.
* `mutateAll_accepted`, `mutateAll_refused`: by induction, a list of insertions.
* `pullRefusing_const`, `insertAllRefusing_const`: a store that refuses all commits, or
  none.
* `insertions_accounted`: pulls and insertions of lists.
-/

namespace MerkleSync

/-- Adds an identifier to a store that refuses the commits of some. -/
def Engine.insertRefusing (refuses : Ident → Bool) : Engine → Store → Ident → Outcome Bool :=
  Engine.insertThrough fun id => ⟨false, refuses id⟩

/-- Copies what a peer holds and this trie lacks, to a store that refuses the commits of
some identifiers. -/
def Engine.pullRefusing {σ : Type} (refuses : Ident → Bool) (e : Engine) (s : Store)
    (far : Peer σ) (settings : SyncConfig) (path : Bytes) (state : σ) : Pulled σ :=
  e.insertMissingThrough (fun id => ⟨false, refuses id⟩) s ((e.session s far settings).run path)
    state

/-- Adds identifiers to a store that refuses the commits of some, and counts those that
were new. -/
def Replica.insertAllRefusing (refuses : Ident → Bool) (r : Replica) (s : Store)
    (ids : List Ident) : Except ReplicaError Nat × Replica × Store :=
  let outcome := Engine.mutateAll (Engine.insertRefusing refuses) 0 ids r.engine s
  (outcome.result.mapError .engine, { r with engine := outcome.engine }, outcome.store)

/-! ## Lists of insertions -/

namespace Engine

section Lists

variable {e : Engine} {s : Store} {held : Finset Ident} {refuses : Ident → Bool} {id : Ident}

/-- **One insertion** says whether its identifier is new, or is refused and changes nothing. -/
theorem insertRefusing_cases (h : e.Coherent s held) (refuses : Ident → Bool) (id : Ident) :
    ((id ∉ held → refuses id = false) ∧
      ∃ e' s', e.insertRefusing refuses s id = ⟨.ok (decide (id ∉ held)), e', s'⟩ ∧
        e'.Coherent s' (Insert.insert id held)) ∨
    (id ∉ held ∧ refuses id = true ∧
      ∃ batch e', e.insertRefusing refuses s id =
          ⟨.error (.storage (Store.commitFailure batch)), e', s⟩ ∧
        e'.Coherent s held) := by
  have hends := insert_ends (s := s.faulty ⟨false, refuses id⟩) ⟨h.store.faulty rfl, h.view⟩ id
  have hown : s.faults.reads = false := h.store.reads
  rw [insertRefusing, insertThrough]
  generalize e.insert (s.faulty ⟨false, refuses id⟩) id = outcome at hends
  cases hends with
  | idle hsame _ hcoherent =>
      have hold : id ∈ held := Finset.insert_eq_self.mp hsame
      rw [decide_eq_false (not_not_intro hold)]
      rw [← hsame] at hcoherent
      exact Or.inl ⟨fun hnew => absurd hold hnew,
        _, _, rfl, hcoherent.store.faulty hown, hcoherent.view⟩
  | made hchanged hcommit _ hcoherent =>
      rw [decide_eq_true (mt Finset.insert_eq_self.mpr hchanged)]
      exact Or.inl ⟨fun _ => hcommit, _, _, rfl, hcoherent.store.faulty hown, hcoherent.view⟩
  | refused hchanged hcommit _ hcoherent =>
      exact Or.inr ⟨mt Finset.insert_eq_self.mpr hchanged, hcommit,
        _, _, rfl, hcoherent.store.faulty hown, hcoherent.view⟩

theorem insertRefusing_accepted (h : e.Coherent s held)
    (haccepted : id ∉ held → refuses id = false) :
    ∃ e' s', e.insertRefusing refuses s id = ⟨.ok (decide (id ∉ held)), e', s'⟩ ∧
      e'.Coherent s' (Insert.insert id held) := by
  rcases insertRefusing_cases h refuses id with ⟨_, hdone⟩ | ⟨hnew, hrefuses, _⟩
  · exact hdone
  · exact absurd (hrefuses.symm.trans (haccepted hnew)) (by decide)

theorem insertRefusing_refused (h : e.Coherent s held) (hnew : id ∉ held)
    (hrefuses : refuses id = true) :
    ∃ batch e', e.insertRefusing refuses s id =
        ⟨.error (.storage (Store.commitFailure batch)), e', s⟩ ∧
      e'.Coherent s held := by
  rcases insertRefusing_cases h refuses id with ⟨haccepted, _⟩ | ⟨_, _, hdone⟩
  · exact absurd (hrefuses.symm.trans (haccepted hnew)) (by decide)
  · exact hdone

/-- Mutations go on where those before them have ended. -/
theorem mutateAll_append {step : Engine → Store → Ident → Outcome Bool} {before rest : List Ident}
    {done count : Nat} {e e' : Engine} {s s' : Store}
    (h : mutateAll step done before e s = ⟨.ok count, e', s'⟩) :
    mutateAll step done (before ++ rest) e s = mutateAll step count rest e' s' := by
  induction before generalizing done e s with
  | nil =>
      obtain ⟨hcount, rfl, rfl⟩ := Outcome.mk.inj h
      rw [List.nil_append, Except.ok.inj hcount]
  | cons id before ih =>
      rw [mutateAll] at h
      rw [List.cons_append, mutateAll]
      cases hstep : (step e s id).result with
      | error cause =>
          rw [hstep] at h
          cases h
      | ok changed =>
          rw [hstep] at h
          exact ih h

/-- The new identifiers of a list, one after another. -/
theorem card_new_cons (held : Finset Ident) (id : Ident) (ids : List Ident) :
    ((id :: ids).toFinset \ held).card =
      (if id ∉ held then 1 else 0) + (ids.toFinset \ Insert.insert id held).card := by
  rw [List.toFinset_cons]
  by_cases hid : id ∈ held
  · rw [Finset.insert_sdiff_of_mem _ hid, Finset.insert_eq_of_mem hid, if_neg (not_not_intro hid),
      Nat.zero_add]
  · have hlater : Insert.insert id ids.toFinset \ held =
        Insert.insert id (ids.toFinset \ Insert.insert id held) := by
      ext other
      by_cases hsame : other = id
      · simp [hsame, hid]
      · simp [hsame]
    rw [hlater, Finset.card_insert_of_notMem (by simp), if_pos hid, Nat.add_comm]

/-- **A list of insertions** none of which is refused. -/
theorem mutateAll_accepted {ids : List Ident} (h : e.Coherent s held) (done : Nat)
    (haccepted : ∀ id ∈ ids, id ∉ held → refuses id = false) :
    ∃ e' s', mutateAll (insertRefusing refuses) done ids e s =
        ⟨.ok (done + (ids.toFinset \ held).card), e', s'⟩ ∧
      e'.Coherent s' (held ∪ ids.toFinset) := by
  induction ids generalizing e s held done with
  | nil =>
      refine ⟨e, s, ?_, ?_⟩
      · rw [List.toFinset_nil, Finset.empty_sdiff, Finset.card_empty]
        rfl
      · rwa [List.toFinset_nil, Finset.union_empty]
  | cons id ids ih =>
      obtain ⟨e', s', hrun, hcoherent⟩ :=
        insertRefusing_accepted h (haccepted id List.mem_cons_self)
      have hrest : ∀ other ∈ ids, other ∉ Insert.insert id held → refuses other = false :=
        fun other hother hnew => haccepted other (List.mem_cons_of_mem id hother) fun hold =>
          hnew (Finset.mem_insert_of_mem hold)
      obtain ⟨e'', s'', hlast, hcoherent'⟩ :=
        ih hcoherent (if id ∉ held then done + 1 else done) hrest
      refine ⟨e'', s'', ?_, ?_⟩
      · rw [mutateAll, hrun, card_new_cons]
        simp only [decide_eq_true_iff, hlast]
        split
        · rw [Nat.add_assoc]
        · rw [Nat.zero_add]
      · rwa [List.toFinset_cons, ← Finset.insert_union_comm]

/-- **A list of insertions** up to the first one that is refused. -/
theorem mutateAll_refused {before : List Ident} (h : e.Coherent s held) (done : Nat)
    (after : List Ident) (hbefore : ∀ other ∈ before, other ∉ held → refuses other = false)
    (hnew : id ∉ held) (hrefuses : refuses id = true) :
    ∃ batch e' s', mutateAll (insertRefusing refuses) done (before ++ id :: after) e s =
        ⟨.error (.storage (Store.commitFailure batch)), e', s'⟩ ∧
      e'.Coherent s' (held ∪ before.toFinset) := by
  obtain ⟨e', s', hrun, hcoherent⟩ := mutateAll_accepted h done hbefore
  have hnew' : id ∉ held ∪ before.toFinset := by
    intro hid
    rcases Finset.mem_union.mp hid with hold | hlisted
    · exact hnew hold
    · have haccept := hbefore id (List.mem_toFinset.mp hlisted) hnew
      exact absurd (hrefuses.symm.trans haccept) (by decide)
  obtain ⟨batch, e'', hfail, hcoherent'⟩ := insertRefusing_refused hcoherent hnew' hrefuses
  refine ⟨batch, e'', s', ?_, hcoherent'⟩
  rw [mutateAll_append hrun, mutateAll, hfail]

/-- Insertions keep the settings, whatever the store refuses. -/
theorem config_insertRefusing (refuses : Ident → Bool) (e : Engine) (s : Store) (done : Nat)
    (ids : List Ident) :
    (mutateAll (insertRefusing refuses) done ids e s).engine.config = e.config := by
  have hone : ∀ e s id, (insertRefusing refuses e s id).engine.config = e.config := by
    intro e s id
    obtain ⟨e', hconfig, ⟨result, hrun⟩ | ⟨change, hrun⟩⟩ :=
      mutate_cases (fun v => v.insertion id [] v.root id.bytes) e (s.faulty ⟨false, refuses id⟩) id
    · rw [insertRefusing, insertThrough, insert, hrun]
      exact hconfig
    · rw [insertRefusing, insertThrough, insert, hrun]
      exact hconfig
  induction ids generalizing e s done with
  | nil => rfl
  | cons id ids ih =>
      rw [mutateAll]
      cases (insertRefusing refuses e s id).result with
      | error cause => exact hone e s id
      | ok changed => exact (ih _ _ _).trans (hone e s id)

end Lists

section Constant

variable {e : Engine} {s : Store}

/-- Insertions change nothing about what fails. -/
theorem faults_insertAll (done : Nat) (ids : List Ident) :
    (mutateAll insert done ids e s).store.faults = s.faults := by
  induction ids generalizing e s done with
  | nil => rfl
  | cons id ids ih =>
      have hkept : (e.insert s id).store.faults = s.faults := faults_mutate e s _ id
      rw [mutateAll]
      cases (e.insert s id).result with
      | error cause => exact hkept
      | ok changed => exact (ih _).trans hkept

/-- Where all commits are refused, or none, these are the insertions of a list. -/
theorem mutateAll_insertRefusing_const (hreads : s.readsFail = false) (done : Nat)
    (ids : List Ident) :
    mutateAll (insertRefusing fun _ => s.commitsFail) done ids e s =
      mutateAll insert done ids e s := by
  have hfaults : s.faults = ⟨false, s.commitsFail⟩ := by
    rw [Store.faults, hreads]
  have hsame : s.faulty s.faults = s := rfl
  have hkept := faults_insertAll (e := e) (s := s) done ids
  rw [insertRefusing, ← hfaults, mutateAll_insertThrough, hsame, ← hkept]
  rfl

/-- Where all commits are refused, or none, this is the pull of the engine. -/
theorem pullRefusing_const {σ : Type} (hreads : s.readsFail = false) (far : Peer σ)
    (settings : SyncConfig) (path : Bytes) (st : σ) :
    e.pullRefusing (fun _ => s.commitsFail) s far settings path st =
      e.pull s far settings path st := by
  rw [pullRefusing, insertMissingThrough, pull, insertMissing]
  generalize (ExceptT.run ((e.session s far settings).run path)).run st = ended
  obtain ⟨result, st'⟩ := ended
  cases result with
  | error cause => rfl
  | ok report =>
      have hsame := mutateAll_insertRefusing_const (e := e) hreads 0 report.missing
      rw [insertRefusing] at hsame
      dsimp only
      rw [hsame]
      rfl

end Constant
end Engine

/-- Where all commits are refused, or none, this is the insertion of a list. -/
theorem Replica.insertAllRefusing_const {r : Replica} {s : Store} (hreads : s.readsFail = false)
    (ids : List Ident) :
    r.insertAllRefusing (fun _ => s.commitsFail) s ids = r.insertAll s ids := by
  rw [Replica.insertAllRefusing, Engine.mutateAll_insertRefusing_const hreads]
  rfl

/-! ## Pulls -/

section Pulls

variable {σ : Type} {e : Engine} {s : Store} {held : Finset Ident} {far : Peer σ}
  {settings : SyncConfig} {path : Bytes} {st : σ} {refuses : Ident → Bool} {report : SyncReport}

/-- The result of a session that an engine makes. -/
def Engine.found (e : Engine) (s : Store) (far : Peer σ) (settings : SyncConfig) (path : Bytes)
    (st : σ) : Except SyncError SyncReport :=
  ((ExceptT.run ((e.session s far settings).run path)).run st).1

/-- **What is reported as missing** is new, whatever the peer answers. -/
theorem missing_is_new (h : e.Coherent s held)
    (hfound : e.found s far settings path st = .ok report) :
    Ascending report.missing ∧ ∀ id ∈ report.missing, id ∉ held := by
  have hlogs : Logs ((e.session s far settings).run path)
      ((e.session s far.recorded settings).run path) [] st (Confined e s path settings.maxNodes) :=
    run_logs path
  obtain ⟨result, log, st', hrun, _, start, visits, _, _, _, hreport⟩ := hlogs
  rw [Engine.found, hrun] at hfound
  obtain ⟨_, _, hascending, hlacks⟩ := hreport report hfound
  refine ⟨hascending, fun id hid => ?_⟩
  have habsent := hlacks id hid
  rw [Engine.contains_of_coherent h] at habsent
  exact of_decide_eq_false (Except.ok.inj habsent)

/-- All of it counts. -/
theorem card_missing (h : e.Coherent s held)
    (hfound : e.found s far settings path st = .ok report) :
    (report.missing.toFinset \ held).card = report.missing.length := by
  obtain ⟨hascending, hnew⟩ := missing_is_new h hfound
  have hdisjoint : Disjoint report.missing.toFinset held :=
    Finset.disjoint_left.mpr fun id hid => hnew id (List.mem_toFinset.mp hid)
  rw [Finset.sdiff_eq_self_of_disjoint hdisjoint, List.toFinset_card_of_nodup hascending.nodup]

/-- A pull inserts what the session has found missing. -/
theorem pullRefusing_of_found (refuses : Ident → Bool)
    (hfound : e.found s far settings path st = .ok report) :
    ∃ st', e.pullRefusing refuses s far settings path st =
      let outcome := Engine.mutateAll (Engine.insertRefusing refuses) 0 report.missing e s
      ⟨match outcome.result with
        | .error cause => .error (.engine cause)
        | .ok inserted => .ok { report with inserted := inserted },
        outcome.engine, outcome.store, st'⟩ := by
  rw [Engine.found] at hfound
  rw [Engine.pullRefusing, Engine.insertMissingThrough]
  generalize (ExceptT.run ((e.session s far settings).run path)).run st = ended at *
  obtain ⟨result, st'⟩ := ended
  obtain rfl : result = .ok report := hfound
  exact ⟨st', rfl⟩

/-- A pull whose session fails changes nothing. -/
theorem pullRefusing_of_failed (refuses : Ident → Bool) {cause : SyncError}
    (hfound : e.found s far settings path st = .error cause) :
    ∃ st', e.pullRefusing refuses s far settings path st = ⟨.error cause, e, s, st'⟩ := by
  rw [Engine.found] at hfound
  rw [Engine.pullRefusing, Engine.insertMissingThrough]
  generalize (ExceptT.run ((e.session s far settings).run path)).run st = ended at *
  obtain ⟨result, st'⟩ := ended
  obtain rfl : result = .error cause := hfound
  exact ⟨st', rfl⟩

/-- **A pull none of whose insertions is refused.** -/
theorem pullRefusing_accepted (h : e.Coherent s held)
    (hfound : e.found s far settings path st = .ok report)
    (haccepted : ∀ id ∈ report.missing, refuses id = false) :
    ∃ e' s' st', e.pullRefusing refuses s far settings path st =
        ⟨.ok { report with inserted := report.missing.length }, e', s', st'⟩ ∧
      e'.Coherent s' (held ∪ report.missing.toFinset) := by
  obtain ⟨st', hpull⟩ := pullRefusing_of_found refuses hfound
  obtain ⟨e', s', hrun, hcoherent⟩ :=
    Engine.mutateAll_accepted h 0 fun id hid _ => haccepted id hid
  rw [card_missing h hfound, Nat.zero_add] at hrun
  refine ⟨e', s', st', ?_, hcoherent⟩
  rw [hpull, hrun]

/-- **A pull one of whose insertions is refused.** -/
theorem pullRefusing_refused (h : e.Coherent s held)
    (hfound : e.found s far settings path st = .ok report) {before after : List Ident} {id : Ident}
    (hsplit : report.missing = before ++ id :: after)
    (hbefore : ∀ other ∈ before, refuses other = false) (hrefuses : refuses id = true) :
    ∃ batch e' s' st', e.pullRefusing refuses s far settings path st =
        ⟨.error (.engine (.storage (Store.commitFailure batch))), e', s', st'⟩ ∧
      e'.Coherent s' (held ∪ before.toFinset) := by
  obtain ⟨st', hpull⟩ := pullRefusing_of_found refuses hfound
  have hnew : id ∉ held := (missing_is_new h hfound).2 id
    (hsplit ▸ List.mem_append_right before List.mem_cons_self)
  obtain ⟨batch, e', s', hrun, hcoherent⟩ :=
    Engine.mutateAll_refused h 0 after (fun other hother _ => hbefore other hother) hnew hrefuses
  refine ⟨batch, e', s', st', ?_, hcoherent⟩
  rw [hpull, hsplit, hrun]

/-- A pull keeps the settings. -/
theorem config_pullRefusing (refuses : Ident → Bool) (e : Engine) (s : Store) (far : Peer σ)
    (settings : SyncConfig) (path : Bytes) (st : σ) :
    (e.pullRefusing refuses s far settings path st).engine.config = e.config := by
  cases hfound : e.found s far settings path st with
  | error cause =>
      obtain ⟨st', hpull⟩ := pullRefusing_of_failed refuses hfound
      rw [hpull]
  | ok report =>
      obtain ⟨st', hpull⟩ := pullRefusing_of_found refuses hfound
      rw [hpull]
      exact Engine.config_insertRefusing refuses e s 0 report.missing

/-- A list has a first identifier that is refused, or none. -/
theorem accepted_or_refused (refuses : Ident → Bool) (ids : List Ident) :
    (∀ id ∈ ids, refuses id = false) ∨ ∃ before id after, ids = before ++ id :: after ∧
      (∀ other ∈ before, refuses other = false) ∧ refuses id = true := by
  cases hfind : ids.find? refuses with
  | none => exact Or.inl fun id hid => Bool.eq_false_iff.mpr (List.find?_eq_none.mp hfind id hid)
  | some id =>
      obtain ⟨hrefuses, before, after, hsplit, hbefore⟩ := List.find?_eq_some_iff_append.mp hfind
      refine Or.inr ⟨before, id, after, hsplit, fun other hother => ?_, hrefuses⟩
      simpa using hbefore other hother

/-- A pull that succeeds was not refused anything. -/
theorem pullRefusing_ok (h : e.Coherent s held) {report' : SyncReport}
    (hok : (e.pullRefusing refuses s far settings path st).result = .ok report') :
    report'.inserted = report'.missing.length ∧
      (e.pullRefusing refuses s far settings path st).engine.Coherent
        (e.pullRefusing refuses s far settings path st).store
        (held ∪ report'.missing.toFinset) := by
  cases hfound : e.found s far settings path st with
  | error cause =>
      obtain ⟨st', hpull⟩ := pullRefusing_of_failed refuses hfound
      rw [hpull] at hok
      cases hok
  | ok report =>
      rcases accepted_or_refused refuses report.missing with
        haccepted | ⟨before, id, after, hsplit, hbefore, hrefuses⟩
      · obtain ⟨e', s', st', hpull, hcoherent⟩ := pullRefusing_accepted h hfound haccepted
        rw [hpull] at hok ⊢
        obtain rfl := Except.ok.inj hok
        exact ⟨rfl, hcoherent⟩
      · obtain ⟨batch, e', s', st', hpull, _⟩ :=
          pullRefusing_refused h hfound hsplit hbefore hrefuses
        rw [hpull] at hok
        cases hok

end Pulls

/-- **Insertions are accounted for.**  An engine was opened on a blank namespace and
called in any way since, and now holds the set `held`.

It pulls from any peer, honest or not, and the store refuses the commits of some
identifiers.  If the pull succeeds, the engine and its store are those of what was held
and what is reported as missing, and as many were inserted as are missing.  What a
session reports as missing is ascending and was not held.  So if the commit of one of
these identifiers is refused and those of the ones before it are not, the pull ends with
the storage error, and engine and store are those of what was held and the identifiers
before that one; if none is refused, the pull succeeds, and if the session fails it
changes nothing.  The settings, and so the namespace, stay.

A list is inserted in the same way, with any repetitions.  If no commit of a new
identifier in it is refused, the result is the number of different ones that were not
held, and all are held then; and if one is, what was held and the identifiers before the
first such one are.  Where a store refuses all commits, or none, these are the pull and
the insertion of a list. -/
theorem insertions_accounted {config : EngineConfig} {blank : System}
    (h : OpenedBlank config blank) (steps : List Step) :
    let sys := (blank.run steps).2
    let held := setLeft ∅ (blank.run steps).1
    (∀ (σ : Type) (far : Peer σ) (settings : SyncConfig) (path : Bytes) (st : σ)
        (refuses : Ident → Bool),
      let found := sys.engine.found sys.store far settings path st
      let pulled := sys.engine.pullRefusing refuses sys.store far settings path st
      (∀ report, pulled.result = .ok report →
        report.inserted = report.missing.length ∧
          pulled.engine.Coherent pulled.store (held ∪ report.missing.toFinset)) ∧
      (∀ report, found = .ok report →
        Ascending report.missing ∧ (∀ id ∈ report.missing, id ∉ held) ∧
          ((∀ id ∈ report.missing, refuses id = false) →
            pulled.result = .ok { report with inserted := report.missing.length }) ∧
          ∀ before id after, report.missing = before ++ id :: after →
            (∀ other ∈ before, refuses other = false) → refuses id = true →
              (∃ batch, pulled.result =
                .error (.engine (.storage (Store.commitFailure batch)))) ∧
              pulled.engine.Coherent pulled.store (held ∪ before.toFinset)) ∧
      (∀ cause, found = .error cause →
        pulled.result = .error cause ∧ pulled.engine.Coherent pulled.store held) ∧
      pulled.engine.config = sys.engine.config ∧
      sys.engine.pullRefusing (fun _ => sys.store.commitsFail) sys.store far settings path st =
        sys.engine.pull sys.store far settings path st) ∧
    ∀ (settings : ReplicaConfig) (refuses : Ident → Bool) (ids : List Ident),
      let r : Replica := ⟨sys.engine, settings⟩
      let done := r.insertAllRefusing refuses sys.store ids
      ((∀ id ∈ ids, id ∉ held → refuses id = false) →
        done.1 = .ok (ids.toFinset \ held).card ∧
          done.2.1.engine.Coherent done.2.2 (held ∪ ids.toFinset)) ∧
      (∀ before id after, ids = before ++ id :: after →
        (∀ other ∈ before, other ∉ held → refuses other = false) →
          id ∉ held → refuses id = true →
            (∃ batch, done.1 = .error (.engine (.storage (Store.commitFailure batch)))) ∧
            done.2.1.engine.Coherent done.2.2 (held ∪ before.toFinset)) ∧
      done.2.1.engine.config = sys.engine.config ∧
      r.insertAllRefusing (fun _ => sys.store.commitsFail) sys.store ids =
        r.insertAll sys.store ids := by
  intro sys held
  have hcoherent : sys.engine.Coherent sys.store held := (run_of_opened h steps).1
  have hreads : sys.store.readsFail = false := hcoherent.store.reads
  refine ⟨fun σ far settings path st refuses => ?_, fun settings refuses ids => ?_⟩
  · refine ⟨fun report hok => pullRefusing_ok hcoherent hok, fun report hfound => ?_,
      fun cause hfound => ?_, config_pullRefusing refuses sys.engine sys.store far settings path st,
      Engine.pullRefusing_const hreads far settings path st⟩
    · obtain ⟨hascending, hnew⟩ := missing_is_new hcoherent hfound
      refine ⟨hascending, hnew, fun haccepted => ?_, ?_⟩
      · obtain ⟨e', s', st', hpull, _⟩ := pullRefusing_accepted hcoherent hfound haccepted
        rw [hpull]
      · intro before id after hsplit hbefore hrefuses
        obtain ⟨batch, e', s', st', hpull, hlast⟩ :=
          pullRefusing_refused hcoherent hfound hsplit hbefore hrefuses
        rw [hpull]
        exact ⟨⟨batch, rfl⟩, hlast⟩
    · obtain ⟨st', hpull⟩ := pullRefusing_of_failed refuses hfound
      rw [hpull]
      exact ⟨rfl, hcoherent⟩
  · refine ⟨fun haccepted => ?_, ?_,
      Engine.config_insertRefusing refuses sys.engine sys.store 0 ids,
      Replica.insertAllRefusing_const hreads ids⟩
    · obtain ⟨e', s', hrun, hlast⟩ := Engine.mutateAll_accepted hcoherent 0 haccepted
      rw [Nat.zero_add] at hrun
      rw [Replica.insertAllRefusing, hrun]
      exact ⟨rfl, hlast⟩
    · rintro before id after rfl hbefore hnew hrefuses
      obtain ⟨batch, e', s', hrun, hlast⟩ :=
        Engine.mutateAll_refused hcoherent 0 after hbefore hnew hrefuses
      rw [Replica.insertAllRefusing, hrun]
      exact ⟨⟨batch, rfl⟩, hlast⟩

/-- A peer that sends identifiers out of order and one of them twice. -/
def repeating : Peer Unit where
  snapshot _ := pure (.now (.ok ⟨[], [], 0⟩))
  nodeInfo path := pure (.now (.ok (some ⟨path, 3,
    ⟨List.replicate digestLength 2, List.length_replicate⟩, ByteMap.empty⟩)))
  idents _ := pure (.now (.ok disordered))

/-- A pull from it whose second insertion is refused, and the insertion of its answer. -/
theorem insertions_accounted_repeating :
    let e := Engine.new {}
    let refuses : Ident → Bool := fun id => decide (id = constantIdent 1)
    let pulled := e.pullRefusing refuses Store.empty repeating {} [] ()
    let r : Replica := ⟨e, {}⟩
    (∃ batch, pulled.result = .error (.engine (.storage (Store.commitFailure batch)))) ∧
      pulled.engine.Coherent pulled.store {constantIdent 0} ∧
      (r.insertAll Store.empty disordered).1 = .ok 2 := by
  intro e refuses pulled r
  have hmissing : Ident.dropRepeats (Ident.sort disordered) =
      [constantIdent 0] ++ constantIdent 1 :: [] := by
    have hlisted : Ascending ([constantIdent 0] ++ constantIdent 1 :: []) :=
      List.pairwise_pair.mpr (by decide)
    refine Ascending.ext (Ident.ascending_dropRepeats_sort _) hlisted ?_
    intro id
    rw [Ident.mem_dropRepeats, Ident.mem_sort]
    simp only [disordered, List.mem_cons, List.cons_append, List.nil_append]
    tauto
  have hfound : e.found Store.empty repeating {} [] () = .ok
      { path := [], divergence := [], inserted := 0, visited := 1, inSync := false,
        missing := Ident.dropRepeats (Ident.sort disordered),
        truncated := false } := rfl
  obtain ⟨hpulls, hinserts⟩ := insertions_accounted (openedBlank_blank {}) []
  obtain ⟨_, hreports, _⟩ := hpulls Unit repeating {} [] () refuses
  obtain ⟨_, _, _, hrefused⟩ := hreports _ hfound
  obtain ⟨hresult, hcoherent⟩ := hrefused _ _ _ hmissing (by decide) (by decide)
  obtain ⟨haccepted, _, _, hsame⟩ := hinserts {} (fun _ => false) disordered
  refine ⟨hresult, hcoherent, ?_⟩
  calc (r.insertAll Store.empty disordered).1
      = (r.insertAllRefusing (fun _ => false) Store.empty disordered).1 :=
        congrArg Prod.fst hsame.symm
    _ = .ok (disordered.toFinset \ ∅).card :=
        (haccepted fun _ _ _ => rfl).1
    _ = .ok 2 := congrArg Except.ok (by decide)

end MerkleSync
