import Mathlib.Logic.Function.Basic
import MerkleSync.Proofs.NamespaceReads
import MerkleSync.Proofs.QueryMeaning

/-!
# Engines that share a store

Several engines, each with a namespace of its own, work on one store, which may hold
anything else besides.  None of them can tell that it is not alone: in every interleaving
of their calls each one answers as if it made only its own calls on a store with only
its own entries.  And what belongs to no one stays as it is.

**Approach.**  A call changes only entries of the caller's namespace (`perform_confined`).
So the calls of the others leave the store the same in an engine's namespace, and its own
calls do the same on such stores (`perform_sameIn`).  The engine that is alone is kept
beside the shared run, and makes a step exactly when the engine of that name does.

**Results.**
* `perform_confined`: what a call leaves alone.
* `perform_own`, `perform_other`: one call, seen by the engine that made it and by another one.
* `run_seen`, `run_outside`: any interleaving.
* `namespaces_do_not_interfere`: the statement for any engines over any store.
-/

namespace MerkleSync

/-- What an engine leaves alone: its namespace, whether reads fail, and all entries
outside of the namespace. -/
structure System.Confined (one last : System) : Prop where
  ns : last.engine.config.ns = one.engine.config.ns
  reads : last.store.readsFail = one.store.readsFail
  outside : ∀ key : Bytes, key.head? ≠ some one.engine.config.ns →
    last.store.entries[key]? = one.store.entries[key]?

section Confinement

variable {e : Engine} {s : Store}

/-- Every key of a mutation's batch has the namespace in front. -/
theorem head?_key_of_mem_batch {ns : UInt8} {change : Change} {w : Write}
    (h : w ∈ change.batch ns) : w.key.head? = some ns := by
  obtain ⟨node, _, rfl⟩ := List.mem_map.mp h
  rw [nodeWrite_key]
  rfl

/-- **A change is confined**, since all keys of its batch are. -/
theorem Engine.mutate_confined (compute : View → Except EngineError (Option (Record × Change)))
    (e : Engine) (s : Store) (id : Ident) :
    System.Confined ⟨e, s⟩ ⟨(e.mutate compute s id).engine, (e.mutate compute s id).store⟩ := by
  obtain ⟨e', hconfig, ⟨result, hrun⟩ | ⟨change, hrun⟩⟩ := mutate_cases compute e s id
  · rw [hrun]
    exact ⟨congrArg EngineConfig.ns hconfig, rfl, fun _ _ => rfl⟩
  · rw [hrun]
    refine ⟨congrArg EngineConfig.ns hconfig, rfl, fun key hkey => ?_⟩
    refine Batch.getElem?_apply_of_ne s.entries fun w hw heq => hkey ?_
    rw [← heq, head?_key_of_mem_batch hw]

theorem Engine.reload_config {e' : Engine} (h : e.reload s = .ok e') : e'.config = e.config := by
  rw [reload] at h
  split at h
  · cases h
  · cases h
    rfl

theorem System.opened_confined {sys : System} {result : Except EngineError Engine}
    (h : ∀ e', result = .ok e' → e'.config.ns = sys.engine.config.ns) (refuses : Bool) :
    sys.Confined (sys.opened (sys.store.refusing refuses) result).2 := by
  cases result with
  | error cause => exact ⟨rfl, rfl, fun _ _ => rfl⟩
  | ok e' => exact ⟨h e' rfl, rfl, fun _ _ => rfl⟩

/-- **Every call is confined** to the namespace of the engine that makes it. -/
theorem System.perform_confined (sys : System) (step : Step) :
    sys.Confined (sys.perform step).2 := by
  obtain ⟨call, refuses⟩ := step
  cases call with
  | insert id =>
      have h := Engine.mutate_confined (fun v => v.insertion id [] v.root id.bytes) sys.engine
        (sys.store.refusing refuses) id
      exact ⟨h.ns, h.reads, h.outside⟩
  | delete id =>
      have h := Engine.mutate_confined (fun v => v.deletion id [] v.root id.bytes) sys.engine
        (sys.store.refusing refuses) id
      exact ⟨h.ns, h.reads, h.outside⟩
  | unload path =>
      exact ⟨congrArg EngineConfig.ns (sys.engine.unloadUnder_config path), rfl, fun _ _ => rfl⟩
  | loaded => exact ⟨rfl, rfl, fun _ _ => rfl⟩
  | reload =>
      exact opened_confined (fun _ h => congrArg EngineConfig.ns (Engine.reload_config h)) refuses
  | reopen threshold =>
      refine opened_confined (fun e' h => ?_) refuses
      have hconfig : e'.config = ⟨sys.engine.config.ns, threshold⟩ := Engine.reload_config h
      rw [hconfig]
  | ask query => exact ⟨rfl, rfl, fun _ _ => rfl⟩

end Confinement

/-- The store with only the entries of a namespace. -/
def Store.only (s : Store) (ns : UInt8) : Store :=
  { s with entries := s.entries.filter fun key _ => key.head? == some ns }

theorem Store.getElem?_only (s : Store) (ns : UInt8) (key : Bytes) :
    (s.only ns).entries[key]? = if key.head? = some ns then s.entries[key]? else none := by
  rw [only, Std.TreeMap.getElem?_filter']
  cases s.entries[key]? with
  | none => exact (ite_self _).symm
  | some value => exact if_congr beq_iff_eq rfl rfl

theorem Store.sameIn_only (s : Store) (ns : UInt8) : s.SameIn ns (s.only ns) where
  reads := rfl
  entries path := (s.getElem?_only ns (nodeKey ns path)).trans (if_pos rfl)

/-- Engines that work on one store. -/
structure Shared (ι : Type) where
  engine : ι → Engine
  store : Store

section Interleavings

variable {ι : Type} [DecidableEq ι]

/-- The part of a list that belongs to one engine. -/
def ofEngine {α : Type} (i : ι) (items : List (ι × α)) : List α :=
  (items.filter fun item => item.1 = i).map (·.2)

theorem ofEngine_cons_self {α : Type} (i : ι) (item : α) (rest : List (ι × α)) :
    ofEngine i ((i, item) :: rest) = item :: ofEngine i rest := by
  rw [ofEngine, List.filter_cons, if_pos (decide_eq_true rfl), List.map_cons, ofEngine]

theorem ofEngine_cons_of_ne {α : Type} {i j : ι} (h : j ≠ i) (item : α) (rest : List (ι × α)) :
    ofEngine i ((j, item) :: rest) = ofEngine i rest := by
  rw [ofEngine, List.filter_cons, if_neg (mt of_decide_eq_true h), ofEngine]

namespace Shared

/-- One of the engines with the store. -/
def system (sh : Shared ι) (i : ι) : System := ⟨sh.engine i, sh.store⟩

/-- One of the engines with only its own entries. -/
def alone (sh : Shared ι) (i : ι) : System :=
  ⟨sh.engine i, sh.store.only (sh.engine i).config.ns⟩

/-- One of the engines makes a call. -/
def perform (sh : Shared ι) (i : ι) (step : Step) : Answer × Shared ι :=
  let (answer, sys) := (sh.system i).perform step
  (answer, ⟨Function.update sh.engine i sys.engine, sys.store⟩)

/-- The engines make one call after another, each the calls that bear its name. -/
def run : Shared ι → List (ι × Step) → List (ι × Event) × Shared ι
  | sh, [] => ([], sh)
  | sh, (i, step) :: rest =>
    let (answer, next) := sh.perform i step
    let (events, last) := run next rest
    ((i, ⟨step, answer⟩) :: events, last)

theorem run_cons (sh : Shared ι) (i : ι) (step : Step) (rest : List (ι × Step)) :
    sh.run ((i, step) :: rest) =
      ((i, ⟨step, (sh.perform i step).1⟩) :: ((sh.perform i step).2.run rest).1,
        ((sh.perform i step).2.run rest).2) := rfl

variable {sh : Shared ι} {ns : ι → UInt8} {i j : ι} {sys : System}

theorem perform_system_self (sh : Shared ι) (i : ι) (step : Step) :
    (sh.perform i step).2.system i = ((sh.system i).perform step).2 := by
  rw [system, perform]
  dsimp only
  rw [Function.update_self]

theorem perform_engine_of_ne (sh : Shared ι) (h : i ≠ j) (step : Step) :
    (sh.perform j step).2.engine i = sh.engine i :=
  Function.update_of_ne h _ _

/-- Calls leave every engine on its namespace. -/
theorem perform_ns (hns : ∀ i, (sh.engine i).config.ns = ns i) (j : ι) (step : Step) (i : ι) :
    ((sh.perform j step).2.engine i).config.ns = ns i := by
  by_cases hi : i = j
  · subst hi
    have hself := congrArg (fun one : System => one.engine.config.ns)
      (perform_system_self sh i step)
    exact (hself.trans ((sh.system i).perform_confined step).ns).trans (hns i)
  · rw [perform_engine_of_ne sh hi, hns]

/-- **A call of the engine** is one of the engine that is alone. -/
theorem perform_own (hns : (sh.engine i).config.ns = ns i)
    (h : (sh.system i).SameIn (ns i) sys) (step : Step) :
    (sys.perform step).1 = (sh.perform i step).1 ∧
      ((sh.perform i step).2.system i).SameIn (ns i) (sys.perform step).2 := by
  rw [perform_system_self]
  rw [← hns] at h ⊢
  exact System.perform_sameIn h step

/-- **A call of another engine** cannot be noticed. -/
theorem perform_other (hns : (sh.engine j).config.ns = ns j) (hne : ns i ≠ ns j)
    (h : (sh.system i).SameIn (ns i) sys) (step : Step) :
    ((sh.perform j step).2.system i).SameIn (ns i) sys := by
  have hconfined := (sh.system j).perform_confined step
  have hij : i ≠ j := fun heq => hne (congrArg ns heq)
  refine ⟨h.engine.trans (perform_engine_of_ne sh hij step).symm,
    h.store.reads.trans hconfined.reads.symm, fun path => ?_⟩
  refine (h.store.entries path).trans (hconfined.outside _ fun hhead => hne ?_).symm
  exact (Option.some.inj hhead).trans hns

/-- **Any interleaving**, seen by one of the engines. -/
theorem run_seen (hinj : Function.Injective ns) (hns : ∀ i, (sh.engine i).config.ns = ns i)
    (h : (sh.system i).SameIn (ns i) sys) (steps : List (ι × Step)) :
    (sys.run (ofEngine i steps)).1 = ofEngine i (sh.run steps).1 ∧
      ((sh.run steps).2.system i).SameIn (ns i) (sys.run (ofEngine i steps)).2 := by
  induction steps generalizing sh sys with
  | nil => exact ⟨rfl, h⟩
  | cons call rest ih =>
      obtain ⟨j, step⟩ := call
      have hnext := perform_ns hns j step
      rw [run_cons]
      by_cases hj : j = i
      · subst hj
        obtain ⟨hanswer, hown⟩ := perform_own (hns j) h step
        obtain ⟨hevents, hlast⟩ := ih hnext hown
        rw [ofEngine_cons_self, ofEngine_cons_self, System.run_cons, hanswer, hevents]
        exact ⟨rfl, hlast⟩
      · rw [ofEngine_cons_of_ne hj, ofEngine_cons_of_ne hj]
        exact ih hnext (perform_other (hns j) (fun heq => hj (hinj heq).symm) h step)

/-- **What belongs to no engine** stays as it is. -/
theorem run_outside (hns : ∀ i, (sh.engine i).config.ns = ns i) {key : Bytes}
    (hkey : ∀ i, key.head? ≠ some (ns i)) (steps : List (ι × Step)) :
    (sh.run steps).2.store.entries[key]? = sh.store.entries[key]? := by
  induction steps generalizing sh with
  | nil => rfl
  | cons call rest ih =>
      obtain ⟨j, step⟩ := call
      rw [run_cons]
      refine (ih (perform_ns hns j step)).trans ?_
      exact ((sh.system j).perform_confined step).outside key ((hns j).symm ▸ hkey j)

end Shared

/-- **Namespaces do not interfere.**  Engines in any states, on different namespaces, share
a store with any entries, and make any calls in any order.  Each of them answers every call
as it would if it made its calls alone, on the store with only its own entries, and ends
in the same state with the same entries; and no entry outside of their namespaces is ever
changed. -/
theorem namespaces_do_not_interfere (sh : Shared ι)
    (hdistinct : Function.Injective fun i => (sh.engine i).config.ns) (steps : List (ι × Step)) :
    let events := (sh.run steps).1
    let last := (sh.run steps).2
    (∀ i, ofEngine i events = ((sh.alone i).run (ofEngine i steps)).1 ∧
      last.engine i = ((sh.alone i).run (ofEngine i steps)).2.engine ∧
      ∀ path, last.store.entries[nodeKey (sh.engine i).config.ns path]? =
        ((sh.alone i).run (ofEngine i steps)).2.store.entries[
          nodeKey (sh.engine i).config.ns path]?) ∧
      ∀ key : Bytes, (∀ i, key.head? ≠ some (sh.engine i).config.ns) →
        last.store.entries[key]? = sh.store.entries[key]? := by
  intro events last
  refine ⟨fun i => ?_, fun key hkey => Shared.run_outside (fun _ => rfl) hkey steps⟩
  have hstart : (sh.system i).SameIn (sh.engine i).config.ns (sh.alone i) :=
    ⟨rfl, sh.store.sameIn_only _⟩
  obtain ⟨hevents, hlast⟩ := Shared.run_seen hdistinct (fun _ => rfl) hstart steps
  exact ⟨hevents.symm, hlast.engine.symm, fun path => (hlast.store.entries path).symm⟩

end Interleavings

/-- Two engines on the first and the last namespace, beside an entry that is no record.
The second one keeps the identifier that both insert and only the first one deletes. -/
theorem namespaces_do_not_interfere_one_deletes :
    let id := constantIdent 0
    let sh : Shared Bool := ⟨fun high => Engine.new { ns := if high then 255 else 0 },
      { entries := (∅ : Table Bytes).insert [7] [1] }⟩
    let steps := [(false, Step.mk (.insert id) false), (true, ⟨.insert id, false⟩),
      (false, ⟨.delete id, false⟩), (true, ⟨.ask (.contains id), false⟩)]
    Function.Injective (fun i => (sh.engine i).config.ns) ∧
      (ofEngine true (sh.run steps).1).map (·.answer) =
        [.changed (.ok true), .contains (.ok true)] ∧
      (sh.run steps).2.store.entries[([7] : Bytes)]? = some [1] := by
  intro id sh steps
  have hdistinct : Function.Injective fun i => (sh.engine i).config.ns := by decide
  obtain ⟨hengines, houtside⟩ := namespaces_do_not_interfere sh hdistinct steps
  have hblank : ∀ path, (sh.alone true).store.entries[nodeKey 255 path]? = none := by
    refine fun path => ((sh.store.sameIn_only 255).entries path).trans ?_
    refine Std.TreeMap.getElem?_insert.trans ((if_neg fun heq => ?_).trans
      Std.TreeMap.getElem?_emptyc)
    exact absurd (Std.LawfulEqOrd.eq_of_compare heq) (by simp [nodeKey])
  have hopened : OpenedBlank { ns := 255 } (sh.alone true) := by
    refine ⟨?_, hblank⟩
    rw [Engine.openOn, Engine.reload, Store.loadNode, Store.get?]
    simp only [Engine.new, hblank]
    rfl
  have hempty : (sh.alone true).Coherent ∅ := (coherent_of_opened hopened).1
  have hnext : ((sh.alone true).perform ⟨.insert id, false⟩).2.Coherent {id} :=
    System.reliably_coherent hempty [.insert id]
  refine ⟨hdistinct, ?_, ?_⟩
  · have hsteps : ofEngine true steps = [⟨.insert id, false⟩, ⟨.ask (.contains id), false⟩] := rfl
    have hanswer : (((sh.alone true).perform ⟨.insert id, false⟩).2.perform
        ⟨.ask (.contains id), false⟩).1 = .contains (.ok (decide (id ∈ ({id} : Finset Ident)))) :=
      congrArg Answer.contains (Engine.contains_of_coherent (hnext.refusing false) id)
    rw [(hengines true).1, hsteps, System.run_cons, System.run_cons, List.map_cons, List.map_cons,
      System.perform_insert hempty, hanswer, decide_eq_true (Finset.mem_singleton_self id)]
    rfl
  · rw [houtside [7] (by decide)]
    rfl

end MerkleSync
