import MerkleSync.Proofs.SetRefinement

/-!
# Refused commits leave no trace

A change whose commit is refused has no effect: without it, all other calls of
a history answer the same and the store ends with the same entries.  Only how
many nodes are in memory may differ.  A change that has nothing to do makes no
commit, so it succeeds even while commits are refused.

**Approach.**  The two histories are run side by side.  Their systems stay
alike: both are coherent with one set, on stores with the same entries.

**Results.**
* `alike_of_ends`, `perform_alike`: one call keeps two systems alike.
* `run_alike`: so does a history, of which one system makes only the calls that
  do not fail.
* `refused_commits_are_invisible`: the statement for histories from a blank
  namespace.
-/

namespace MerkleSync

/-- An answer without the number of nodes in memory. -/
def Answer.withoutLoads : Answer → Answer
  | .loaded _ => .loaded 0
  | answer => answer

/-- An event without the number of nodes in memory. -/
def Event.withoutLoads (event : Event) : Event := { event with answer := event.answer.withoutLoads }

/-- The events that are not failures. -/
def kept (events : List Event) : List Event := events.filter fun event => !event.answer.failed

/-- Two systems that hold the same set, on stores with the same entries. -/
structure System.Alike (one other : System) (held : Finset Ident) : Prop where
  left : one.Coherent held
  right : other.Coherent held
  ns : other.engine.config.ns = one.engine.config.ns
  entries : other.store.entries = one.store.entries

section Queries

variable {e e' : Engine} {s s' : Store} {held : Finset Ident}

theorem scan_congr (hreads : s'.readsFail = s.readsFail) (hentries : s'.entries = s.entries)
    (start : Bytes) : s'.scan start = s.scan start := by
  rw [Store.scan, Store.scan, hreads, hentries]

/-- **Queries do not depend on what is in memory.** -/
theorem ask_congr (h : e.Coherent s held) (h' : e'.Coherent s' held)
    (hns : e'.config.ns = e.config.ns) (hentries : s'.entries = s.entries) (query : Query) :
    e'.ask s' query = e.ask s query := by
  have hroot : e'.view.root = e.view.root := h'.view.root_eq.trans h.view.root_eq.symm
  have hscan := scan_congr (h'.store.reads.trans h.store.reads.symm) hentries
  cases query with
  | contains id =>
      rw [Engine.ask, Engine.ask, Engine.contains_of_coherent h, Engine.contains_of_coherent h']
  | rootDigest => rw [Engine.ask, Engine.ask, Engine.rootDigest, Engine.rootDigest, hroot]
  | itemCount => rw [Engine.ask, Engine.ask, Engine.itemCount, Engine.itemCount, hroot]
  | info path =>
      rw [Engine.ask, Engine.ask, Engine.nodeInfo_of_coherent h, Engine.nodeInfo_of_coherent h']
  | idents path =>
      rw [Engine.ask, Engine.ask, Engine.idents_of_coherent h, Engine.idents_of_coherent h']
  | snapshot path =>
      rw [Engine.ask, Engine.ask, Engine.snapshot_of_coherent h, Engine.snapshot_of_coherent h']
  | divergence path theirs =>
      rw [Engine.ask, Engine.ask, Engine.divergence_of_coherent h,
        Engine.divergence_of_coherent h']
  | stored =>
      simp only [Engine.ask, Engine.storedCount, Store.countNodes, hscan, hns]
  | verify =>
      simp only [Engine.ask, Engine.verify, Store.scanNodes, hscan, hns, hroot]

end Queries

section Steps

variable {one other : System} {held : Finset Ident}

/-- **A change that is not refused** keeps two systems alike. -/
theorem alike_of_ends {e e' : Engine} {s s' : Store} {id : Ident} {held' : Finset Ident}
    {outcome outcome' : Outcome Bool} (h : Engine.Ends e s id held held' outcome)
    (h' : Engine.Ends e' s' id held held' outcome') (hns : e'.config.ns = e.config.ns)
    (hentries : s'.entries = s.entries) (hrefuses : s'.commitsFail = s.commitsFail)
    (hok : (Answer.changed outcome.result).failed = false) :
    outcome'.result = outcome.result ∧
      System.Alike ⟨outcome.engine, outcome.store⟩ ⟨outcome'.engine, outcome'.store⟩
        (if (Answer.changed outcome.result).isChange then held' else held) := by
  cases h with
  | idle hsame hconfig hcoherent =>
      cases h' with
      | idle _ hconfig' hcoherent' =>
          exact ⟨rfl, hcoherent, hcoherent', by rw [hconfig', hconfig, hns], hentries⟩
      | made hnew _ _ _ => exact absurd hsame hnew
      | refused hnew _ _ _ => exact absurd hsame hnew
  | made hnew hcommit hconfig hcoherent =>
      cases h' with
      | idle hsame _ _ => exact absurd hsame hnew
      | made _ _ hconfig' hcoherent' =>
          refine ⟨rfl, hcoherent, hcoherent', by rw [hconfig', hconfig, hns], ?_⟩
          rw [Store.committed, Store.committed, hentries, hns]
      | refused _ hrefused _ _ =>
          rw [hrefuses, hcommit] at hrefused
          cases hrefused
  | refused => cases hok

/-- **A call that does not fail** keeps two systems alike, and answers the same. -/
theorem perform_alike (h : one.Alike other held) (step : Step)
    (hok : (one.perform step).1.failed = false) :
    (other.perform step).1.withoutLoads = (one.perform step).1.withoutLoads ∧
      (one.perform step).2.Alike (other.perform step).2
        (Event.effect held ⟨step, (one.perform step).1⟩) := by
  have hone := Engine.Coherent.refusing h.left step.refuses
  have hother := Engine.Coherent.refusing h.right step.refuses
  obtain ⟨call, refuses⟩ := step
  cases call with
  | insert id =>
      obtain ⟨hresult, halike⟩ := alike_of_ends (Engine.insert_ends hone id)
        (Engine.insert_ends hother id) h.ns h.entries rfl hok
      exact ⟨congrArg (fun result => (Answer.changed result).withoutLoads) hresult, halike⟩
  | delete id =>
      obtain ⟨hresult, halike⟩ := alike_of_ends (Engine.delete_ends hone id)
        (Engine.delete_ends hother id) h.ns h.entries rfl hok
      exact ⟨congrArg (fun result => (Answer.changed result).withoutLoads) hresult, halike⟩
  | unload path =>
      obtain ⟨hleft, hconfig⟩ := Engine.unloadUnder_coherent hone path
      obtain ⟨hright, hconfig'⟩ := Engine.unloadUnder_coherent hother path
      have hns : (other.engine.unloadUnder path).2.config.ns =
          (one.engine.unloadUnder path).2.config.ns := by rw [hconfig, hconfig', h.ns]
      exact ⟨rfl, hleft, hright, hns, h.entries⟩
  | loaded => exact ⟨rfl, hone, hother, h.ns, h.entries⟩
  | reload =>
      obtain ⟨e, hrun, hleft, hns⟩ := System.perform_reload h.left refuses
      obtain ⟨e', hrun', hright, hns'⟩ := System.perform_reload h.right refuses
      rw [hrun, hrun']
      exact ⟨rfl, hleft, hright, hns'.trans (h.ns.trans hns.symm), h.entries⟩
  | reopen threshold =>
      obtain ⟨e, hrun, hleft, hns⟩ := System.perform_reopen h.left threshold refuses
      obtain ⟨e', hrun', hright, hns'⟩ := System.perform_reopen h.right threshold refuses
      rw [hrun, hrun']
      exact ⟨rfl, hleft, hright, hns'.trans (h.ns.trans hns.symm), h.entries⟩
  | ask query =>
      have hanswer := ask_congr hone hother h.ns h.entries query
      refine ⟨congrArg Answer.withoutLoads hanswer, ?_⟩
      have heffect : Event.effect held ⟨⟨.ask query, refuses⟩, one.engine.ask
          (one.store.refusing refuses) query⟩ = held := ite_self _
      exact ⟨heffect.symm ▸ hone, heffect.symm ▸ hother, h.ns, h.entries⟩

/-- How a call may change the store: only by a change that is made, which is one
commit. -/
theorem store_of_ends {e : Engine} {s : Store} {id : Ident} {held' : Finset Ident}
    {outcome : Outcome Bool} (h : Engine.Ends e s id held held' outcome) :
    ((Answer.changed outcome.result).isChange = false → outcome.store = s) ∧
      outcome.store.commits =
        s.commits + if (Answer.changed outcome.result).isChange then 1 else 0 := by
  cases h with
  | idle => exact ⟨fun _ => rfl, rfl⟩
  | made => exact ⟨fun hidle => absurd hidle (by simp [Answer.isChange]), rfl⟩
  | refused => exact ⟨fun _ => rfl, rfl⟩

theorem perform_store (h : one.Coherent held) (step : Step) :
    ((one.perform step).1.isChange = false →
        (one.perform step).2.store = one.store.refusing step.refuses) ∧
      (one.perform step).2.store.commits =
        one.store.commits + if (one.perform step).1.isChange then 1 else 0 := by
  have hone := Engine.Coherent.refusing h step.refuses
  obtain ⟨call, refuses⟩ := step
  cases call with
  | insert id => exact store_of_ends (Engine.insert_ends hone id)
  | delete id => exact store_of_ends (Engine.delete_ends hone id)
  | unload path => exact ⟨fun _ => rfl, rfl⟩
  | loaded => exact ⟨fun _ => rfl, rfl⟩
  | reload =>
      obtain ⟨e, hrun, _, _⟩ := System.perform_reload h refuses
      rw [hrun]
      exact ⟨fun _ => rfl, rfl⟩
  | reopen threshold =>
      obtain ⟨e, hrun, _, _⟩ := System.perform_reopen h threshold refuses
      rw [hrun]
      exact ⟨fun _ => rfl, rfl⟩
  | ask query => cases query <;> exact ⟨fun _ => rfl, rfl⟩

theorem isChange_of_failed {answer : Answer} (h : answer.failed = true) :
    answer.isChange = false := by
  cases answer with
  | changed result =>
      cases result with
      | error cause => rfl
      | ok changed => cases h
  | _ => rfl

theorem effect_of_failed {event : Event} (h : event.answer.failed = true) :
    Event.effect held event = held := by
  rw [Event.effect, isChange_of_failed h]
  rfl

/-- **A call that fails** leaves its system alike to the other one. -/
theorem perform_failed (h : one.Alike other held) (step : Step)
    (hfailed : (one.perform step).1.failed = true) :
    (one.perform step).2.Alike other held := by
  obtain ⟨hcoherent, hns⟩ := System.perform_coherent h.left step
  rw [effect_of_failed hfailed] at hcoherent
  refine ⟨hcoherent, h.right, h.ns.trans hns.symm, ?_⟩
  rw [(perform_store h.left step).1 (isChange_of_failed hfailed)]
  exact h.entries

theorem kept_cons (event : Event) (events : List Event) :
    kept (event :: events) =
      if event.answer.failed then kept events else event :: kept events := by
  rw [kept, List.filter_cons]
  cases event.answer.failed with
  | false => rfl
  | true => rfl

/-- **Histories side by side.**  A system that makes only the calls that do not
fail in the other one answers the same and ends alike. -/
theorem run_alike (h : one.Alike other held) (steps : List Step) :
    (other.run ((kept (one.run steps).1).map (·.step))).1.map Event.withoutLoads =
        (kept (one.run steps).1).map Event.withoutLoads ∧
      (one.run steps).2.Alike (other.run ((kept (one.run steps).1).map (·.step))).2
        (setLeft held (one.run steps).1) := by
  induction steps generalizing one other held with
  | nil => exact ⟨rfl, h⟩
  | cons step rest ih =>
      rw [System.run_cons, kept_cons]
      cases hanswer : (one.perform step).1.failed with
      | true =>
          have heffect : Event.effect held ⟨step, (one.perform step).1⟩ = held :=
            effect_of_failed hanswer
          rw [setLeft, List.foldl_cons, heffect]
          exact ih (perform_failed h step hanswer)
      | false =>
          obtain ⟨hsame, hnext⟩ := perform_alike h step hanswer
          obtain ⟨hrest, halike⟩ := ih hnext
          refine ⟨?_, halike⟩
          simp only [Bool.false_eq_true, if_false, List.map_cons, System.run, hrest]
          refine congrArg (· :: _) ?_
          exact congrArg (Event.mk step) hsame

end Steps

section Failures

variable {sys : System} {held : Finset Ident}

/-- A change that is refused is answered with an error of the store. -/
theorem result_of_refusing {e : Engine} {s : Store} {id : Ident} {held' : Finset Ident}
    {outcome : Outcome Bool} (h : Engine.Ends e s id held held' outcome) (hnew : held' ≠ held)
    (hcommit : s.commitsFail = true) :
    ∃ cause, outcome.result = .error (.storage cause) := by
  cases h with
  | idle hsame => exact absurd hsame hnew
  | made _ haccepted =>
      rw [hcommit] at haccepted
      cases haccepted
  | refused => exact ⟨_, rfl⟩

/-- A change that has nothing to do leaves the store alone. -/
theorem result_of_idle {e : Engine} {s : Store} {id : Ident} {held' : Finset Ident}
    {outcome : Outcome Bool} (h : Engine.Ends e s id held held' outcome) (hsame : held' = held) :
    outcome.result = .ok false ∧ outcome.store = s := by
  cases h with
  | idle => exact ⟨rfl, rfl⟩
  | made hnew => exact absurd hsame hnew
  | refused hnew => exact absurd hsame hnew

/-- A change fails only if its commit is refused. -/
theorem cause_of_ends {e : Engine} {s : Store} {id : Ident} {held' : Finset Ident}
    {outcome : Outcome Bool} (h : Engine.Ends e s id held held' outcome)
    (hfailed : (Answer.changed outcome.result).failed = true) :
    s.commitsFail = true ∧ ∃ cause, outcome.result = .error (.storage cause) := by
  cases h with
  | idle => cases hfailed
  | made => cases hfailed
  | refused _ hcommit => exact ⟨hcommit, _, rfl⟩

/-- **What fails** is a change whose commit is refused. -/
theorem perform_cause (h : sys.Coherent held) (step : Step)
    (hfailed : (sys.perform step).1.failed = true) :
    step.refuses = true ∧ ∃ id cause, (step.call = .insert id ∨ step.call = .delete id) ∧
      (sys.perform step).1 = .changed (.error (.storage cause)) := by
  have hs := Engine.Coherent.refusing h step.refuses
  obtain ⟨call, refuses⟩ := step
  cases call with
  | insert id =>
      obtain ⟨hrefuses, cause, hresult⟩ := cause_of_ends (Engine.insert_ends hs id) hfailed
      exact ⟨hrefuses, id, cause, Or.inl rfl, congrArg Answer.changed hresult⟩
  | delete id =>
      obtain ⟨hrefuses, cause, hresult⟩ := cause_of_ends (Engine.delete_ends hs id) hfailed
      exact ⟨hrefuses, id, cause, Or.inr rfl, congrArg Answer.changed hresult⟩
  | unload path => cases hfailed
  | loaded => cases hfailed
  | reload =>
      obtain ⟨e, hrun, _, _⟩ := System.perform_reload h refuses
      rw [hrun] at hfailed
      cases hfailed
  | reopen threshold =>
      obtain ⟨e, hrun, _, _⟩ := System.perform_reopen h threshold refuses
      rw [hrun] at hfailed
      cases hfailed
  | ask query =>
      have hanswered : (sys.perform ⟨.ask query, refuses⟩).1.failed = false :=
        System.ask_answers hs query
      rw [hanswered] at hfailed
      cases hfailed

theorem run_causes (h : sys.Coherent held) (steps : List Step) :
    ∀ event ∈ (sys.run steps).1, event.answer.failed = true →
      event.step.refuses = true ∧ ∃ id cause,
        (event.step.call = .insert id ∨ event.step.call = .delete id) ∧
          event.answer = .changed (.error (.storage cause)) := by
  induction steps generalizing sys held with
  | nil => exact fun event hevent => absurd hevent List.not_mem_nil
  | cons step rest ih =>
      intro event hevent hfailed
      rcases List.mem_cons.mp hevent with rfl | hlater
      · exact perform_cause h step hfailed
      · exact ih (System.perform_coherent h step).1 event hlater hfailed

/-- **Each change that is made** is one commit, and there are no others. -/
theorem run_commits (h : sys.Coherent held) (steps : List Step) :
    (sys.run steps).2.store.commits =
      sys.store.commits + (sys.run steps).1.countP fun event => event.answer.isChange := by
  induction steps generalizing sys held with
  | nil => rfl
  | cons step rest ih =>
      have hnext := (System.perform_coherent h step).1
      have hcommit := (perform_store h step).2
      rw [System.run_cons]
      dsimp only
      rw [ih hnext, hcommit, List.countP_cons]
      dsimp only
      omega

end Failures

/-- **Refused commits are invisible.**  An engine opened on a namespace without
records has any history, `before`, and then makes some steps; commits are
refused at any of them.  Each failure is the storage error of a change whose
commit was refused.  Without the steps that failed, all others give the same
answers, up to the numbers of nodes in memory, and the store ends with the same
entries.  In the state that is reached, a change of the set fails with a storage
error while commits are refused; a change that has nothing to do succeeds
without a commit.  There have been as many commits as changes that were made. -/
theorem refused_commits_are_invisible {config : EngineConfig} {sys : System}
    (h : OpenedBlank config sys) (before steps : List Step) :
    let start := (sys.run before).2
    let events := (start.run steps).1
    let last := (start.run steps).2
    let again := start.run ((kept events).map (·.step))
    let held := setLeft (setLeft ∅ (sys.run before).1) events
    (∀ event ∈ events, event.answer.failed = true →
        event.step.refuses = true ∧ ∃ id cause,
          (event.step.call = .insert id ∨ event.step.call = .delete id) ∧
            event.answer = .changed (.error (.storage cause))) ∧
      again.1.map Event.withoutLoads = (kept events).map Event.withoutLoads ∧
      again.2.store.entries = last.store.entries ∧
      (∀ id ∉ held, ∃ cause,
        (last.perform ⟨.insert id, true⟩).1 = .changed (.error (.storage cause))) ∧
      (∀ id ∈ held, ∃ cause,
        (last.perform ⟨.delete id, true⟩).1 = .changed (.error (.storage cause))) ∧
      (∀ id ∈ held, ∀ refuses, (last.perform ⟨.insert id, refuses⟩).1 = .changed (.ok false) ∧
        (last.perform ⟨.insert id, refuses⟩).2.store = last.store.refusing refuses) ∧
      (∀ id ∉ held, ∀ refuses, (last.perform ⟨.delete id, refuses⟩).1 = .changed (.ok false) ∧
        (last.perform ⟨.delete id, refuses⟩).2.store = last.store.refusing refuses) ∧
      last.store.commits =
        start.store.commits + events.countP fun event => event.answer.isChange := by
  intro start events last again held
  have hstart : start.Coherent (setLeft ∅ (sys.run before).1) := (run_of_opened h before).1
  have hlast : last.Coherent held := (System.run_coherent hstart steps).1
  obtain ⟨hanswers, halike⟩ := run_alike ⟨hstart, hstart, rfl, rfl⟩ steps
  refine ⟨run_causes hstart steps, hanswers, halike.entries, ?_, ?_, ?_, ?_,
    run_commits hstart steps⟩
  · intro id hid
    have hends := Engine.insert_ends (Engine.Coherent.refusing hlast true) id
    obtain ⟨cause, hresult⟩ :=
      result_of_refusing hends (mt Finset.insert_eq_self.mp hid) rfl
    exact ⟨cause, congrArg Answer.changed hresult⟩
  · intro id hid
    have hends := Engine.delete_ends (Engine.Coherent.refusing hlast true) id
    obtain ⟨cause, hresult⟩ :=
      result_of_refusing hends (mt Finset.erase_eq_self.mp (not_not_intro hid)) rfl
    exact ⟨cause, congrArg Answer.changed hresult⟩
  · intro id hid refuses
    have hends := Engine.insert_ends (Engine.Coherent.refusing hlast refuses) id
    obtain ⟨hresult, hstore⟩ := result_of_idle hends (Finset.insert_eq_self.mpr hid)
    exact ⟨congrArg Answer.changed hresult, hstore⟩
  · intro id hid refuses
    have hends := Engine.delete_ends (Engine.Coherent.refusing hlast refuses) id
    obtain ⟨hresult, hstore⟩ := result_of_idle hends (Finset.erase_eq_self.mpr hid)
    exact ⟨congrArg Answer.changed hresult, hstore⟩

/-- Whether an identifier is held is answered from the set, also while commits are refused. -/
theorem System.perform_contains {sys : System} {held : Finset Ident} (h : sys.Coherent held)
    (id : Ident) (refuses : Bool) :
    (sys.perform ⟨.ask (.contains id), refuses⟩).1 = .contains (.ok (decide (id ∈ held))) :=
  congrArg Answer.contains (Engine.contains_of_coherent (Engine.Coherent.refusing h refuses) id)

/-- A refused insertion, after one that was committed and before two questions.  What is
held is the first identifier, and the second one cannot be added or deleted either while
commits are refused. -/
theorem refused_commits_are_invisible_between :
    let before := reliably [.insert (constantIdent 0)]
    let steps := [⟨.insert (constantIdent 7), true⟩, ⟨.ask (.contains (constantIdent 0)), false⟩,
      ⟨.ask (.contains (constantIdent 7)), false⟩]
    let start := ((System.blank {}).run before).2
    let events := (start.run steps).1
    let last := (start.run steps).2
    let again := start.run ((kept events).map (·.step))
    OpenedBlank {} (System.blank {}) ∧
      setLeft ∅ ((System.blank {}).run before).1 = {constantIdent 0} ∧
      setLeft {constantIdent 0} events = {constantIdent 0} ∧
      (∃ cause, events.map (·.answer) = [.changed (.error (.storage cause)),
        .contains (.ok true), .contains (.ok false)]) ∧
      again.1.map Event.withoutLoads =
        [⟨⟨.ask (.contains (constantIdent 0)), false⟩, .contains (.ok true)⟩,
          ⟨⟨.ask (.contains (constantIdent 7)), false⟩, .contains (.ok false)⟩] ∧
      again.2.store.entries = last.store.entries ∧
      (∃ cause, (last.perform ⟨.insert (constantIdent 7), true⟩).1 =
        .changed (.error (.storage cause))) ∧
      (last.perform ⟨.delete (constantIdent 7), true⟩).1 = .changed (.ok false) ∧
      last.store.commits = start.store.commits := by
  intro before steps
  have hblank := openedBlank_blank {}
  have hset : setLeft ∅ ((System.blank {}).run before).1 = {constantIdent 0} := by
    rw [System.setLeft_reliably (coherent_of_opened hblank).1]
    decide
  have hstart : ((System.blank {}).run before).2.Coherent {constantIdent 0} :=
    System.reliably_coherent (coherent_of_opened hblank).1 [.insert (constantIdent 0)]
  have hwhole := refused_commits_are_invisible hblank before steps
  -- nothing else matters about the history before
  dsimp only at hwhole ⊢
  rw [hset] at hwhole
  refine ⟨hblank, hset, ?_⟩
  generalize ((System.blank {}).run before).2 = start at hwhole hstart ⊢
  obtain ⟨_, hanswers, hentries, hinserts, _, _, hdeletes, hcommits⟩ := hwhole
  obtain ⟨cause, hrefused⟩ : ∃ cause, (start.perform ⟨.insert (constantIdent 7), true⟩).1 =
      .changed (.error (.storage cause)) := by
    have hends := Engine.insert_ends (Engine.Coherent.refusing hstart true) (constantIdent 7)
    obtain ⟨cause, hresult⟩ := result_of_refusing hends (by decide) rfl
    exact ⟨cause, congrArg Answer.changed hresult⟩
  have hsecond : (start.perform ⟨.insert (constantIdent 7), true⟩).2.Coherent
      {constantIdent 0} := by
    have hnext := (System.perform_coherent hstart ⟨.insert (constantIdent 7), true⟩).1
    rw [hrefused] at hnext
    exact hnext
  have hevents : (start.run steps).1 =
      [⟨⟨.insert (constantIdent 7), true⟩, .changed (.error (.storage cause))⟩,
        ⟨⟨.ask (.contains (constantIdent 0)), false⟩, .contains (.ok true)⟩,
        ⟨⟨.ask (.contains (constantIdent 7)), false⟩, .contains (.ok false)⟩] := by
    have hthird := (System.perform_coherent hsecond
      ⟨.ask (.contains (constantIdent 0)), false⟩).1
    have hheld := System.perform_contains hsecond (constantIdent 0) false
    have hlacks := System.perform_contains hthird (constantIdent 7) false
    simp only [steps, System.run_cons, hrefused, hheld, hlacks]
    rfl
  rw [hevents] at hanswers hentries hinserts hdeletes hcommits ⊢
  have hlacks : constantIdent 7 ∉ ({constantIdent 0} : Finset Ident) := by decide
  exact ⟨rfl, ⟨cause, rfl⟩, hanswers, hentries, hinserts _ hlacks, (hdeletes _ hlacks true).1,
    hcommits⟩

end MerkleSync
