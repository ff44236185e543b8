import MerkleSync.Engine.Integrity
import MerkleSync.Proofs.MutationEffect
import MerkleSync.Proofs.KeyRange
import MerkleSync.Sample

/-!
# Histories of an engine

A system is an engine with its store.  It is called again and again: to change
the set, to forget nodes, to read the store anew, or to answer a query; and at
each call the store may refuse commits.  The identifiers that a history leaves
are those of its changes that were answered with success.

**Results.**
* `insert_ends`, `delete_ends`: how a change of a coherent engine may end.
* `perform_coherent`, `run_coherent`: every call, and so every history, keeps
  engine and store coherent with the set it leaves.
* `coherent_of_opened`: an engine opened on a blank namespace is coherent with
  the empty set.
-/

namespace MerkleSync

/-- The questions that an engine answers about its trie. -/
inductive Query where
  | contains (id : Ident)
  | rootDigest
  | itemCount
  | info (path : Bytes)
  | idents (path : Bytes)
  | snapshot (path : Bytes)
  | divergence (path : Bytes) (theirs : List Digest)
  | stored
  | verify

/-- What can be done with an engine.  `reopen` replaces it by another one on the
same namespace, with a threshold of its own. -/
inductive Call where
  | insert (id : Ident)
  | delete (id : Ident)
  | unload (path : Bytes)
  | loaded
  | reload
  | reopen (threshold : Option Nat)
  | ask (query : Query)

/-- What a call gives back. -/
inductive Answer where
  | changed (result : Except EngineError Bool)
  | loaded (count : Nat)
  | opened (result : Except EngineError Unit)
  | contains (result : Except EngineError Bool)
  | rootDigest (digest : Digest)
  | itemCount (count : UInt64)
  | info (result : Except EngineError (Option NodeInfo))
  | idents (result : Except EngineError (List Ident))
  | snapshot (result : Except EngineError Snapshot)
  | divergence (result : Except EngineError Bytes)
  | stored (result : Except EngineError Nat)
  | verified (result : Except EngineError IntegrityReport)

/-- A call, and whether the store refuses commits while it is made. -/
structure Step where
  call : Call
  refuses : Bool := false

/-- A step with the answer that it got. -/
structure Event where
  step : Step
  answer : Answer

/-- An engine with its store. -/
structure System where
  engine : Engine
  store : Store

/-- The answer of an engine to a query. -/
def Engine.ask (e : Engine) (s : Store) : Query → Answer
  | .contains id => .contains (e.contains s id)
  | .rootDigest => .rootDigest e.rootDigest
  | .itemCount => .itemCount e.itemCount
  | .info path => .info (e.nodeInfo s path)
  | .idents path => .idents (e.idents s path)
  | .snapshot path => .snapshot (e.snapshot s path)
  | .divergence path theirs => .divergence (e.divergence s path theirs)
  | .stored => .stored (e.storedCount s)
  | .verify => .verified (e.verify s)

/-- The store while commits are refused, or not. -/
def Store.refusing (s : Store) (refuses : Bool) : Store := { s with commitsFail := refuses }

namespace System

/-- The system with an engine that was opened anew, unless that failed. -/
def opened (sys : System) (s : Store) : Except EngineError Engine → Answer × System
  | .ok e => (.opened (.ok ()), ⟨e, s⟩)
  | .error cause => (.opened (.error cause), ⟨sys.engine, s⟩)

/-- Makes one call. -/
def perform (sys : System) (step : Step) : Answer × System :=
  let s := sys.store.refusing step.refuses
  match step.call with
  | .insert id =>
    let outcome := sys.engine.insert s id
    (.changed outcome.result, ⟨outcome.engine, outcome.store⟩)
  | .delete id =>
    let outcome := sys.engine.delete s id
    (.changed outcome.result, ⟨outcome.engine, outcome.store⟩)
  | .unload path =>
    let (count, e) := sys.engine.unloadUnder path
    (.loaded count, ⟨e, s⟩)
  | .loaded => (.loaded sys.engine.loadedCount, ⟨sys.engine, s⟩)
  | .reload => sys.opened s (sys.engine.reload s)
  | .reopen threshold => sys.opened s (Engine.openOn ⟨sys.engine.config.ns, threshold⟩ s)
  | .ask query => (sys.engine.ask s query, ⟨sys.engine, s⟩)

/-- Makes one call after another. -/
def run : System → List Step → List Event × System
  | sys, [] => ([], sys)
  | sys, step :: rest =>
    let (answer, next) := sys.perform step
    let (events, last) := run next rest
    (⟨step, answer⟩ :: events, last)

theorem run_cons (sys : System) (step : Step) (rest : List Step) :
    sys.run (step :: rest) =
      (⟨step, (sys.perform step).1⟩ :: ((sys.perform step).2.run rest).1,
        ((sys.perform step).2.run rest).2) := rfl

end System

/-- The set that a call is meant to lead to. -/
def Call.target (held : Finset Ident) : Call → Finset Ident
  | .insert id => Insert.insert id held
  | .delete id => held.erase id
  | _ => held

/-- Whether a call was a change that was made. -/
def Answer.isChange : Answer → Bool
  | .changed (.ok true) => true
  | _ => false

/-- Whether an answer is an error. -/
def Answer.failed : Answer → Bool
  | .changed (.error _) | .opened (.error _) | .contains (.error _) | .info (.error _)
  | .idents (.error _) | .snapshot (.error _) | .divergence (.error _) | .stored (.error _)
  | .verified (.error _) => true
  | _ => false

/-- The set after an event: only a change that was made counts. -/
def Event.effect (held : Finset Ident) (event : Event) : Finset Ident :=
  if event.answer.isChange then event.step.call.target held else held

/-- The set that a list of events leaves. -/
def setLeft (held : Finset Ident) (events : List Event) : Finset Ident :=
  events.foldl Event.effect held

/-- The steps in which some calls are made on a store that commits everything. -/
def reliably (calls : List Call) : List Step := calls.map fun call => ⟨call, false⟩

/-- The set that some calls lead to if everything is committed. -/
def setAfter (held : Finset Ident) (calls : List Call) : Finset Ident :=
  calls.foldl Call.target held

/-- Engine and store are coherent. -/
def System.Coherent (sys : System) (held : Finset Ident) : Prop :=
  sys.engine.Coherent sys.store held

namespace Store

variable {s : Store} {ns : UInt8} {held : Finset Ident}

/-- Whether commits are refused does not matter to what is held. -/
theorem Holds.refusing (h : s.Holds ns held) (refuses : Bool) :
    (s.refusing refuses).Holds ns held :=
  ⟨h.reads, h.records⟩

end Store

theorem Engine.Coherent.refusing {e : Engine} {s : Store} {held : Finset Ident}
    (h : e.Coherent s held) (refuses : Bool) : e.Coherent (s.refusing refuses) held :=
  ⟨h.store.refusing refuses, h.view⟩

namespace Engine

variable {e : Engine} {s : Store} {id : Ident} {held held' : Finset Ident}

section Changes

/-- How a mutation of `id` that would lead from `held` to `held'` may end. -/
inductive Ends (e : Engine) (s : Store) (id : Ident) (held held' : Finset Ident) :
    Outcome Bool → Prop
  | idle {e' : Engine} (hsame : held' = held) (hconfig : e'.config = e.config)
      (hcoherent : e'.Coherent s held) : Ends e s id held held' ⟨.ok false, e', s⟩
  | made {e' : Engine} (hnew : held' ≠ held) (hcommit : s.commitsFail = false)
      (hconfig : e'.config = e.config)
      (hcoherent : e'.Coherent (s.committed (mutationBatch e.config.ns id held')) held') :
      Ends e s id held held' ⟨.ok true, e', s.committed (mutationBatch e.config.ns id held')⟩
  | refused {e' : Engine} (hnew : held' ≠ held) (hcommit : s.commitsFail = true)
      (hconfig : e'.config = e.config) (hcoherent : e'.Coherent s held) :
      Ends e s id held held'
        ⟨.error (.storage (Store.commitFailure (mutationBatch e.config.ns id held'))), e', s⟩

theorem mutate_ends {compute : View → Except EngineError (Option (Record × Change))}
    (h : e.Coherent s held) (hdiff : AgreeExcept id held held')
    (hcompute : ∀ v : View, v.Shows held → v.Covers id held → compute v =
      .ok (if held' = held then none
        else some (canonical held' [], changeAlong held' [] id.bytes))) :
    Ends e s id held held' (e.mutate compute s id) := by
  by_cases hsame : held' = held
  · have hnone : ∀ v : View, v.Shows held → v.Covers id held → compute v = .ok none :=
      fun v hv hcov => by rw [hcompute v hv hcov, if_pos hsame]
    obtain ⟨e', hrun, hcoherent, hconfig⟩ := mutate_none h hnone
    rw [hrun]
    exact .idle hsame hconfig hcoherent
  · have hchange : ∀ v : View, v.Shows held → v.Covers id held →
        compute v = .ok (some (canonical held' [], changeAlong held' [] id.bytes)) :=
      fun v hv hcov => by rw [hcompute v hv hcov, if_neg hsame]
    cases hcommit : s.commitsFail with
    | false =>
        obtain ⟨e', hrun, hcoherent, hconfig⟩ := mutate_committed h hdiff hchange hcommit
        rw [hrun]
        exact .made hsame hcommit hconfig hcoherent
    | true =>
        obtain ⟨e', hrun, hcoherent, hconfig⟩ := mutate_refused h hchange hcommit
        rw [hrun]
        exact .refused hsame hcommit hconfig hcoherent

/-- **Insertion** ends in one of three ways. -/
theorem insert_ends (h : e.Coherent s held) (id : Ident) :
    Ends e s id held (Insert.insert id held) (e.insert s id) := by
  refine mutate_ends h (agreeExcept_insert id held) fun v hv hcov => ?_
  rw [View.insertion_compute hv hcov]
  exact congrArg Except.ok (if_congr Finset.insert_eq_self.symm rfl rfl)

/-- **Deletion** ends in one of three ways. -/
theorem delete_ends (h : e.Coherent s held) (id : Ident) :
    Ends e s id held (held.erase id) (e.delete s id) := by
  refine mutate_ends h (agreeExcept_erase id held) fun v hv hcov => ?_
  rw [View.deletion_compute hv hcov]
  refine congrArg Except.ok ?_
  by_cases hid : id ∈ held
  · rw [if_pos hid, if_neg (mt Finset.erase_eq_self.mp (not_not_intro hid))]
  · rw [if_neg hid, if_pos (Finset.erase_eq_self.mpr hid)]

theorem Ends.result_of_accepting {outcome : Outcome Bool} (h : Ends e s id held held' outcome)
    (hcommit : s.commitsFail = false) : outcome.result = .ok (decide (held' ≠ held)) := by
  cases h with
  | idle hsame => simp [hsame]
  | made hnew => simp [hnew]
  | refused _ hrefused =>
      rw [hcommit] at hrefused
      cases hrefused

end Changes

section Reloading

/-- The node at `q` after those below `path` were forgotten. -/
theorem get?_dropStrictlyUnder (v : View) (path q : Bytes) :
    View.get? { v with loaded := v.loaded.dropStrictlyUnder path } q =
      if path <+: q ∧ q ≠ path then none else v.get? q := by
  by_cases hq : q = []
  · subst hq
    rw [if_neg fun hdropped => hdropped.2 (List.prefix_nil.mp hdropped.1).symm]
    rfl
  · rw [View.get?_of_ne_nil _ hq, View.get?_of_ne_nil v hq, Table.getElem?_dropStrictlyUnder]

/-- With a node the nodes below it are forgotten. -/
theorem dropped_append {path q : Bytes} (h : path <+: q ∧ q ≠ path) (b : UInt8) :
    path <+: q ++ [b] ∧ q ++ [b] ≠ path := by
  refine ⟨h.1.trans (List.prefix_append q [b]), fun heq => ?_⟩
  have hlong := h.1.length_le
  rw [← heq, List.length_append, List.length_singleton] at hlong
  omega

/-- Forgetting the nodes below a path keeps the others. -/
theorem shows_dropStrictlyUnder {v : View} (hv : v.Shows held) (path : Bytes) :
    View.Shows { v with loaded := v.loaded.dropStrictlyUnder path } held := by
  constructor
  · intro q r hsome
    rw [get?_dropStrictlyUnder] at hsome
    split at hsome
    · cases hsome
    · exact hv.node q r hsome
  · intro q b hsome
    rw [get?_dropStrictlyUnder] at hsome ⊢
    by_cases hdropped : path <+: q ∧ q ≠ path
    · rw [if_pos (dropped_append hdropped b)] at hsome
      cases hsome
    · rw [if_neg hdropped]
      split at hsome
      · cases hsome
      · exact hv.closed q b hsome

theorem unloadUnder_config (e : Engine) (path : Bytes) :
    (e.unloadUnder path).2.config = e.config := by
  rw [unloadUnder]
  split
  · rfl
  · rfl

theorem unloadUnder_coherent (h : e.Coherent s held) (path : Bytes) :
    (e.unloadUnder path).2.Coherent s held ∧ (e.unloadUnder path).2.config = e.config := by
  refine ⟨?_, unloadUnder_config e path⟩
  rw [unloadUnder]
  split
  · exact h
  · exact ⟨h.store, shows_dropStrictlyUnder h.view path⟩

theorem shows_root (held : Finset Ident) : View.Shows ⟨canonical held [], ∅⟩ held := by
  have hget : ∀ {q r}, View.get? ⟨canonical held [], ∅⟩ q = some r →
      q = [] ∧ r = canonical held [] := fun hsome => View.get?_unloaded (v := ⟨_, ∅⟩) hsome
  constructor
  · intro q r hsome
    obtain ⟨rfl, rfl⟩ := hget hsome
    exact ⟨Or.inl rfl, rfl⟩
  · intro q b hsome
    obtain ⟨r, hr⟩ := Option.isSome_iff_exists.mp hsome
    exact absurd (hget hr).1 (by simp)

/-- **Reading the store anew** gives the root alone. -/
theorem reload_of_holds (h : s.Holds e.config.ns held) :
    e.reload s = .ok { e with view := ⟨canonical held [], ∅⟩, mutations := 0 } := by
  rw [reload, loadNode_of_holds h]
  by_cases hocc : Occurs held []
  · simp only [if_pos hocc, Option.getD_some]
  · simp only [if_neg hocc, Option.getD_none, canonical_of_not_occurs hocc]

theorem reload_coherent (h : s.Holds e.config.ns held) :
    ∃ e', e.reload s = .ok e' ∧ e'.Coherent s held ∧ e'.config = e.config :=
  ⟨_, reload_of_holds h, ⟨h, shows_root held⟩, rfl⟩

theorem openOn_coherent (config : EngineConfig) (h : s.Holds config.ns held) :
    ∃ e', openOn config s = .ok e' ∧ e'.Coherent s held ∧ e'.config = config :=
  reload_coherent (e := new config) h

end Reloading
end Engine

namespace System

variable {sys : System} {held : Finset Ident}

/-- A change leaves the set that its answer says. -/
theorem coherent_of_ends {e : Engine} {s : Store} {id : Ident} {held' : Finset Ident}
    {outcome : Outcome Bool} (h : Engine.Ends e s id held held' outcome) :
    outcome.engine.Coherent outcome.store
        (if (Answer.changed outcome.result).isChange then held' else held) ∧
      outcome.engine.config.ns = e.config.ns := by
  cases h with
  | idle _ hconfig hcoherent => exact ⟨hcoherent, congrArg EngineConfig.ns hconfig⟩
  | made _ _ hconfig hcoherent => exact ⟨hcoherent, congrArg EngineConfig.ns hconfig⟩
  | refused _ _ hconfig hcoherent => exact ⟨hcoherent, congrArg EngineConfig.ns hconfig⟩

/-- Reading the store anew always succeeds. -/
theorem perform_reload (h : sys.Coherent held) (refuses : Bool) :
    ∃ e, sys.perform ⟨.reload, refuses⟩ =
        (.opened (.ok ()), ⟨e, sys.store.refusing refuses⟩) ∧
      e.Coherent (sys.store.refusing refuses) held ∧ e.config.ns = sys.engine.config.ns := by
  obtain ⟨e, hrun, hcoherent, hconfig⟩ :=
    Engine.reload_coherent (Engine.Coherent.refusing h refuses).store
  refine ⟨e, ?_, hcoherent, by rw [hconfig]⟩
  simp only [perform, hrun, opened]

theorem perform_reopen (h : sys.Coherent held) (threshold : Option Nat) (refuses : Bool) :
    ∃ e, sys.perform ⟨.reopen threshold, refuses⟩ =
        (.opened (.ok ()), ⟨e, sys.store.refusing refuses⟩) ∧
      e.Coherent (sys.store.refusing refuses) held ∧ e.config.ns = sys.engine.config.ns := by
  obtain ⟨e, hrun, hcoherent, hconfig⟩ :=
    Engine.openOn_coherent ⟨sys.engine.config.ns, threshold⟩
      (Engine.Coherent.refusing h refuses).store
  refine ⟨e, ?_, hcoherent, by rw [hconfig]⟩
  simp only [perform, hrun, opened]

/-- **One step.**  Every call keeps engine and store coherent, with the set that
its answer says. -/
theorem perform_coherent (h : sys.Coherent held) (step : Step) :
    (sys.perform step).2.Coherent (Event.effect held ⟨step, (sys.perform step).1⟩) ∧
      (sys.perform step).2.engine.config.ns = sys.engine.config.ns := by
  have hs := Engine.Coherent.refusing h step.refuses
  obtain ⟨call, refuses⟩ := step
  cases call with
  | insert id => exact coherent_of_ends (Engine.insert_ends hs id)
  | delete id => exact coherent_of_ends (Engine.delete_ends hs id)
  | unload path =>
      obtain ⟨hcoherent, hconfig⟩ := Engine.unloadUnder_coherent hs path
      exact ⟨hcoherent, congrArg EngineConfig.ns hconfig⟩
  | loaded => exact ⟨hs, rfl⟩
  | reload =>
      obtain ⟨e, hrun, hcoherent, hns⟩ := perform_reload h refuses
      rw [hrun]
      exact ⟨hcoherent, hns⟩
  | reopen threshold =>
      obtain ⟨e, hrun, hcoherent, hns⟩ := perform_reopen h threshold refuses
      rw [hrun]
      exact ⟨hcoherent, hns⟩
  | ask query =>
      refine ⟨?_, rfl⟩
      cases query <;> exact hs

/-- **Every history** keeps engine and store coherent. -/
theorem run_coherent (h : sys.Coherent held) (steps : List Step) :
    (sys.run steps).2.Coherent (setLeft held (sys.run steps).1) ∧
      (sys.run steps).2.engine.config.ns = sys.engine.config.ns := by
  induction steps generalizing sys held with
  | nil => exact ⟨h, rfl⟩
  | cons step rest ih =>
      obtain ⟨hnext, hns⟩ := perform_coherent h step
      obtain ⟨hlast, hns'⟩ := ih hnext
      exact ⟨hlast, hns'.trans hns⟩

/-- What an accepted change answers. -/
theorem perform_insert (h : sys.Coherent held) (id : Ident) :
    (sys.perform ⟨.insert id, false⟩).1 = .changed (.ok (decide (id ∉ held))) := by
  have hends := Engine.insert_ends (Engine.Coherent.refusing h false) id
  have hnew : decide (Insert.insert id held ≠ held) = decide (id ∉ held) :=
    decide_eq_decide.mpr (not_congr Finset.insert_eq_self)
  have hresult := hends.result_of_accepting rfl
  rw [hnew] at hresult
  exact congrArg Answer.changed hresult

theorem perform_delete (h : sys.Coherent held) (id : Ident) :
    (sys.perform ⟨.delete id, false⟩).1 = .changed (.ok (decide (id ∈ held))) := by
  have hends := Engine.delete_ends (Engine.Coherent.refusing h false) id
  have hnew : decide (held.erase id ≠ held) = decide (id ∈ held) :=
    decide_eq_decide.mpr ((not_congr Finset.erase_eq_self).trans Decidable.not_not)
  have hresult := hends.result_of_accepting rfl
  rw [hnew] at hresult
  exact congrArg Answer.changed hresult

/-- An accepted call leads to the set that it is meant to lead to. -/
theorem effect_of_accepted (h : sys.Coherent held) (call : Call) :
    Event.effect held ⟨⟨call, false⟩, (sys.perform ⟨call, false⟩).1⟩ = call.target held := by
  rw [Event.effect]
  cases call with
  | insert id =>
      rw [perform_insert h]
      by_cases hid : id ∈ held
      · simp [Answer.isChange, Call.target, hid]
      · simp [Answer.isChange, hid]
  | delete id =>
      rw [perform_delete h]
      by_cases hid : id ∈ held
      · simp [Answer.isChange, hid]
      · simp [Answer.isChange, Call.target, hid]
  | unload _ => exact ite_self _
  | loaded => exact ite_self _
  | reload => exact ite_self _
  | reopen _ => exact ite_self _
  | ask _ => exact ite_self _

/-- **A history without refused commits** leaves the set that its calls lead to. -/
theorem setLeft_reliably (h : sys.Coherent held) (calls : List Call) :
    setLeft held (sys.run (reliably calls)).1 = setAfter held calls := by
  induction calls generalizing sys held with
  | nil => rfl
  | cons call rest ih =>
      have hnext := (perform_coherent h ⟨call, false⟩).1
      rw [effect_of_accepted h] at hnext
      have hrest := ih hnext
      rw [setAfter, List.foldl_cons, ← setAfter, ← hrest, ← effect_of_accepted h]
      rfl

theorem reliably_coherent (h : sys.Coherent held) (calls : List Call) :
    (sys.run (reliably calls)).2.Coherent (setAfter held calls) :=
  setLeft_reliably h calls ▸ (run_coherent h (reliably calls)).1

end System

/-- An engine opened on a namespace without records. -/
structure OpenedBlank (config : EngineConfig) (sys : System) : Prop where
  opens : Engine.openOn config sys.store = .ok sys.engine
  blank : ∀ path, sys.store.entries[nodeKey config.ns path]? = none

/-- Opening succeeds only if reads do. -/
theorem OpenedBlank.readsFail {config : EngineConfig} {sys : System}
    (h : OpenedBlank config sys) : sys.store.readsFail = false := by
  have hopen := h.opens
  by_contra hfail
  rw [Bool.not_eq_false] at hfail
  simp [Engine.openOn, Engine.reload, Store.loadNode, Store.get?, hfail] at hopen

theorem occurs_empty (path : Bytes) : ¬Occurs ∅ path := by
  rintro ⟨id, hid, _⟩
  exact Finset.notMem_empty id hid

/-- **A blank namespace** holds the empty set. -/
theorem coherent_of_opened {config : EngineConfig} {sys : System} (h : OpenedBlank config sys) :
    sys.Coherent ∅ ∧ sys.engine.config = config := by
  have hholds : sys.store.Holds config.ns ∅ :=
    ⟨h.readsFail, fun path => by rw [h.blank, if_neg (occurs_empty path)]⟩
  obtain ⟨e', hopen, hcoherent, hconfig⟩ := Engine.openOn_coherent config hholds
  rw [h.opens] at hopen
  cases hopen
  exact ⟨hcoherent, hconfig⟩

/-- A new engine over the store without entries. -/
def System.blank (config : EngineConfig) : System := ⟨Engine.new config, Store.empty⟩

theorem openedBlank_blank (config : EngineConfig) : OpenedBlank config (System.blank config) where
  opens := rfl
  blank _ := Std.TreeMap.getElem?_emptyc

/-- **After a history** from a blank namespace. -/
theorem run_of_opened {config : EngineConfig} {sys : System} (h : OpenedBlank config sys)
    (steps : List Step) :
    (sys.run steps).2.Coherent (setLeft ∅ (sys.run steps).1) ∧
      (sys.run steps).2.engine.config.ns = config.ns := by
  obtain ⟨hcoherent, hconfig⟩ := coherent_of_opened h
  obtain ⟨hlast, hns⟩ := System.run_coherent hcoherent steps
  exact ⟨hlast, by rw [hns, hconfig]⟩

end MerkleSync
