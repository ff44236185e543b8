import MerkleSync.Proofs.IntegrityMeaning
import MerkleSync.Proofs.QueryBounds

/-!
# Changes over a damaged store

Nothing is assumed here about what the store holds, and it may hold something else
at each call: records may be missing, unreadable, of a wrong shape or at odds with
their parents.  So the nodes in memory need not be those of any set.  What they are
is consistent: each one is listed by its parent, with the digest and the count that
it has.

Bringing a path into memory may stop anywhere on the way.  The nodes that were read
by then stay, and are consistent with the others.  If it reaches the end, the change
that is computed next finds all nodes that it looks for.

**Results.**
* `materialize_brings`: bringing a path into memory, from any store.
* `insertion_rewrites`, `deletion_rewrites`: the shape of a computed change.
* `Rewrites.linked`: taking a change over keeps the nodes in memory consistent.
* `mutate_linked`, `perform_linked`: one mutation, one call.
* `arises_linked`: by induction, every engine that was opened and called.
* `mutations_fail_cleanly`: insertions and deletions over any store.
-/

namespace MerkleSync

/-- Each node in memory is listed by its parent, which is in memory and has its
summary; nothing is listed below identifiers. -/
structure View.Linked (v : View) : Prop where
  listed : ∀ path b r, v.get? (path ++ [b]) = some r →
    ∃ parent, v.get? path = some parent ∧ parent.children.get? b = some r.summary
  childless : ∀ path r, v.get? path = some r → identLength ≤ path.length →
    r.children.isEmpty = true

/-- From the node `r` at `path` on, the nodes along further bytes are in memory as
far as they are listed. -/
def View.Materialized (v : View) : (path : Bytes) → (r : Record) → (rest : Bytes) → Prop
  | _, _, [] => True
  | path, r, b :: rest => r.children.contains b = true →
      ∃ next, v.get? (path ++ [b]) = some next ∧ v.Materialized (path ++ [b]) next rest

/-- An inner node with `next` for its child at `b`; one that holds nothing is left
out. -/
def Record.withChild (r : Record) (b : UInt8) (next : Record) : Record :=
  Record.ofChildren
    (if next.isEmpty then r.children.erase b else r.children.insert b next.summary)

/-- A change along further bytes from the node `r` at `path` on: each node gets the
new record of its child, and at the end there is a node without children. -/
inductive View.Rewrites (v : View) :
    (path : Bytes) → (r : Record) → (rest : Bytes) → (r' : Record) → Change → Prop
  | leaf {path : Bytes} {r r' : Record} (hchildless : r'.children.isEmpty = true) :
      Rewrites v path r [] r' [(path, r')]
  | node {path : Bytes} {r : Record} {b : UInt8} {rest : Bytes} {next next' : Record}
      {change : Change} (hnext : v.childForChange path r b = .ok next)
      (hrest : Rewrites v (path ++ [b]) next rest next' change) :
      Rewrites v path r (b :: rest) (r.withChild b next') ((path, r.withChild b next') :: change)

section Records

variable {r : Record}

theorem Record.isEmpty_of_get? {b : UInt8} {summary : Summary}
    (h : r.children.get? b = some summary) : r.isEmpty = false := by
  rw [Bool.eq_false_iff]
  intro hempty
  rw [Record.isEmpty, Bool.and_eq_true, ByteMap.isEmpty_iff] at hempty
  rw [hempty.2 b] at h
  cases h

theorem Record.get?_withChild (r : Record) (b : UInt8) (next : Record) (c : UInt8) :
    (r.withChild b next).children.get? c =
      if c = b then (if next.isEmpty then none else some next.summary) else r.children.get? c := by
  rw [Record.withChild, Record.ofChildren]
  cases next.isEmpty with
  | true => exact ByteMap.get?_erase r.children b c
  | false => exact ByteMap.get?_insert r.children b c next.summary

theorem Record.isEmpty_withChild {b : UInt8} {next : Record} (h : next.isEmpty = false) :
    (r.withChild b next).isEmpty = false := by
  have hget : (r.withChild b next).children.get? b = some next.summary := by
    rw [Record.get?_withChild, if_pos rfl, h]
    rfl
  exact Record.isEmpty_of_get? hget

variable {depth : Nat}

/-- A record of the right shape holds something. -/
theorem isEmpty_of_shapeFault (h : r.shapeFault depth = none) : r.isEmpty = false := by
  rcases Nat.lt_or_eq_of_le (le_of_shapeFault h) with hlt | rfl
  · obtain ⟨_, hchildren, _⟩ := inner_of_shapeFault hlt h
    rw [Record.isEmpty, hchildren, Bool.and_false]
  · obtain ⟨id, rfl⟩ := leaf_of_shapeFault h
    rfl

theorem childless_of_shapeFault (h : r.shapeFault depth = none) (hdepth : identLength ≤ depth) :
    r.children.isEmpty = true := by
  obtain rfl := Nat.le_antisymm (le_of_shapeFault h) hdepth
  obtain ⟨id, rfl⟩ := leaf_of_shapeFault h
  rfl

end Records

/-! ## Loading -/

section Loading

/-- The error is not that a node was looked for in memory in vain. -/
def EngineError.FromStore (cause : EngineError) : Prop :=
  ∀ path, cause ≠ .notMaterialized path

theorem fromStore_ofStore (cause : StoreError) : (EngineError.ofStore cause).FromStore := by
  intro path h
  cases cause <;> cases h

/-- **A node that is read** agrees with its parent and has the shape of its depth. -/
theorem meets_loadChild (ns : UInt8) (s : Store) (path : Bytes) (summary : Summary) :
    Meets (Engine.loadChild ns s path summary)
      (fun r => r.summary = summary ∧ r.shapeFault path.length = none) EngineError.FromStore := by
  rw [Engine.loadChild]
  cases hload : s.loadNode ns path with
  | error cause => exact meets_error (fromStore_ofStore cause)
  | ok found =>
      cases found with
      | none => exact meets_error (by rintro _ ⟨⟩)
      | some r =>
          dsimp only
          split
          · next hsame =>
              obtain ⟨_, _, _, _, hshape⟩ := loadNode_eq_some_iff.mp hload
              exact meets_ok ⟨hsame, hshape⟩
          · exact meets_error (by rintro _ ⟨⟩)

namespace View

variable {v v' : View}

/-- The view after more nodes were read. -/
structure Extends (v v' : View) : Prop where
  linked : v'.Linked
  kept : ∀ q r, v.get? q = some r → v'.get? q = some r

theorem Extends.root_eq (h : v.Extends v') : v'.root = v.root :=
  Option.some.inj (h.kept [] v.root (get?_nil v))

/-- **A node that was read** is consistent with those in memory. -/
theorem Linked.extends_set (hv : v.Linked) {path : Bytes} {b : UInt8} {parent r : Record}
    (hparent : v.get? path = some parent) (hlisted : parent.children.get? b = some r.summary)
    (hshape : r.shapeFault (path ++ [b]).length = none) (hnew : v.get? (path ++ [b]) = none) :
    v.Extends (v.set (path ++ [b]) r) := by
  have hset : ∀ q, (v.set (path ++ [b]) r).get? q =
      if q = path ++ [b] then some r else v.get? q := by
    intro q
    rw [get?_set, if_pos (Or.inr (isEmpty_of_shapeFault hshape))]
  have hkept : ∀ q found, v.get? q = some found → (v.set (path ++ [b]) r).get? q = some found := by
    intro q found hget
    rw [hset, if_neg]
    · exact hget
    · rintro rfl
      rw [hnew] at hget
      cases hget
  refine ⟨⟨fun q c found hget => ?_, fun q found hget hlen => ?_⟩, hkept⟩
  · rw [hset] at hget
    by_cases hq : q ++ [c] = path ++ [b]
    · rw [if_pos hq] at hget
      obtain ⟨rfl, hc⟩ := List.append_inj' hq rfl
      obtain rfl := List.singleton_inj.mp hc
      obtain rfl := Option.some.inj hget
      exact ⟨parent, hkept q parent hparent, hlisted⟩
    · rw [if_neg hq] at hget
      obtain ⟨above, habove, hchild⟩ := hv.listed q c found hget
      exact ⟨above, hkept q above habove, hchild⟩
  · rw [hset] at hget
    by_cases hq : q = path ++ [b]
    · rw [if_pos hq] at hget
      obtain rfl := Option.some.inj hget
      exact childless_of_shapeFault hshape (hq ▸ hlen)
    · rw [if_neg hq] at hget
      exact hv.childless q found hget hlen

end View

/-- **Bringing a path into memory**, from any store: the nodes in memory stay and new
ones are consistent with them.  It fails for what the store holds, or all listed nodes
on the path are there. -/
theorem materialize_brings (ns : UInt8) (s : Store) :
    ∀ (rest path : Bytes) (r : Record) (v : View), v.Linked → v.get? path = some r →
      v.Extends (Engine.materialize ns s path r rest v).2 ∧
        Meets (Engine.materialize ns s path r rest v).1
          (fun _ => (Engine.materialize ns s path r rest v).2.Materialized path r rest)
          EngineError.FromStore
  | [], _, _, _, hv, _ => ⟨⟨hv, fun _ _ hget => hget⟩, meets_ok trivial⟩
  | b :: rest, path, r, v, hv, hpath => by
      rw [Engine.materialize]
      cases hlisted : r.children.get? b with
      | none =>
          refine ⟨⟨hv, fun _ _ hget => hget⟩, meets_ok fun hcontains => ?_⟩
          rw [ByteMap.contains, hlisted] at hcontains
          cases hcontains
      | some summary =>
          dsimp only
          cases hget : v.get? (path ++ [b]) with
          | some next =>
              obtain ⟨hextends, hmeets⟩ := materialize_brings ns s rest (path ++ [b]) next v hv hget
              refine ⟨hextends, fun u hu _ => ?_, hmeets.error⟩
              exact ⟨next, hextends.kept _ _ hget, hmeets.ok u hu⟩
          | none =>
              have hload := meets_loadChild ns s (path ++ [b]) summary
              dsimp only
              cases hread : Engine.loadChild ns s (path ++ [b]) summary with
              | error cause =>
                  exact ⟨⟨hv, fun _ _ hget => hget⟩, meets_error (hload.error cause hread)⟩
              | ok next =>
                  obtain ⟨hsummary, hshape⟩ := hload.ok next hread
                  have hset := hv.extends_set hpath (hsummary ▸ hlisted) hshape hget
                  have hself : (v.set (path ++ [b]) next).get? (path ++ [b]) = some next := by
                    rw [View.get?_set, if_pos rfl, if_pos (Or.inr (isEmpty_of_shapeFault hshape))]
                  obtain ⟨hextends, hmeets⟩ := materialize_brings ns s rest (path ++ [b]) next
                    (v.set (path ++ [b]) next) hset.linked hself
                  refine ⟨⟨hextends.linked, fun q found hq => ?_⟩, fun u hu _ => ?_, hmeets.error⟩
                  · exact hextends.kept q found (hset.kept q found hq)
                  · exact ⟨next, hextends.kept _ _ hself, hmeets.ok u hu⟩

end Loading

/-! ## Changing -/

section Computing

variable {v : View} {id : Ident}

theorem materialized_empty (v : View) (path rest : Bytes) :
    v.Materialized path Record.empty rest := by
  cases rest with
  | nil => trivial
  | cons b rest =>
      intro hcontains
      cases hcontains

/-- The child that a change goes on with: the node in memory, or one that holds
nothing. -/
theorem childForChange_materialized {path : Bytes} {r : Record} {b : UInt8} {rest : Bytes}
    (h : v.Materialized path r (b :: rest)) :
    ∃ next, v.childForChange path r b = .ok next ∧ v.Materialized (path ++ [b]) next rest := by
  rw [View.childForChange]
  cases hcontains : r.children.contains b with
  | false => exact ⟨Record.empty, rfl, materialized_empty v (path ++ [b]) rest⟩
  | true =>
      obtain ⟨next, hget, hnext⟩ := h hcontains
      rw [hget]
      exact ⟨next, rfl, hnext⟩

/-- **Insertion** finds all nodes that it looks for. -/
theorem insertion_rewrites :
    ∀ (rest path : Bytes) (r : Record), v.Materialized path r rest →
      ∃ found, v.insertion id path r rest = .ok found ∧
        ∀ r' change, found = some (r', change) →
          r'.isEmpty = false ∧ v.Rewrites path r rest r' change
  | [], path, r, _ => by
      rw [View.insertion]
      split
      · exact ⟨none, rfl, by simp⟩
      · refine ⟨_, rfl, fun r' change hfound => ?_⟩
        cases hfound
        exact ⟨rfl, .leaf rfl⟩
  | b :: rest, path, r, h => by
      obtain ⟨next, hchild, hnext⟩ := childForChange_materialized h
      obtain ⟨found, hrun, hfound⟩ := insertion_rewrites rest (path ++ [b]) next hnext
      rw [View.insertion, hchild]
      dsimp only
      rw [hrun]
      cases found with
      | none => exact ⟨none, rfl, by simp⟩
      | some made =>
          obtain ⟨next', change'⟩ := made
          obtain ⟨hholds, hrest⟩ := hfound next' change' rfl
          refine ⟨_, rfl, fun r' change hmade => ?_⟩
          have hwith : Record.ofChildren (r.children.insert b next'.summary) =
              r.withChild b next' := by
            rw [Record.withChild, if_neg (Bool.eq_false_iff.mp hholds)]
          rw [hwith] at hmade
          cases hmade
          exact ⟨Record.isEmpty_withChild hholds, .node hchild hrest⟩

/-- **Deletion** finds all nodes that it looks for. -/
theorem deletion_rewrites :
    ∀ (rest path : Bytes) (r : Record), v.Materialized path r rest →
      ∃ found, v.deletion id path r rest = .ok found ∧
        ∀ r' change, found = some (r', change) → v.Rewrites path r rest r' change
  | [], path, r, _ => by
      rw [View.deletion]
      split
      · refine ⟨_, rfl, fun r' change hfound => ?_⟩
        cases hfound
        exact .leaf rfl
      · exact ⟨none, rfl, by simp⟩
  | b :: rest, path, r, h => by
      obtain ⟨next, hchild, hnext⟩ := childForChange_materialized h
      obtain ⟨found, hrun, hfound⟩ := deletion_rewrites rest (path ++ [b]) next hnext
      rw [View.deletion]
      split
      · exact ⟨none, rfl, by simp⟩
      · rw [hchild]
        dsimp only
        rw [hrun]
        cases found with
        | none => exact ⟨none, rfl, by simp⟩
        | some made =>
            obtain ⟨next', change'⟩ := made
            refine ⟨_, rfl, fun r' change hmade => ?_⟩
            cases hmade
            exact .node hchild (hfound next' change' rfl)

end Computing

namespace View

variable {v : View} {path rest : Bytes} {r r' : Record} {change : Change}

/-- What the view has at `path`: the node `r`, or none and `r` holds nothing. -/
def Stands (v : View) (path : Bytes) (r : Record) : Prop :=
  v.get? path = some r ∨ v.get? path = none ∧ r = Record.empty

/-- A child that is not listed is not in memory. -/
theorem Linked.stands_next (hv : v.Linked) (hr : v.Stands path r) {b : UInt8} {next : Record}
    (hnext : v.childForChange path r b = .ok next) : v.Stands (path ++ [b]) next := by
  rw [childForChange] at hnext
  split at hnext
  · split at hnext
    · next found hget => exact Or.inl (hget.trans (congrArg some (Except.ok.inj hnext)))
    · cases hnext
  · next hcontains =>
      right
      refine ⟨?_, (Except.ok.inj hnext).symm⟩
      by_contra hsome
      obtain ⟨found, hget⟩ := Option.ne_none_iff_exists'.mp hsome
      obtain ⟨parent, hparent, hlisted⟩ := hv.listed path b found hget
      rcases hr with hr | ⟨hr, _⟩
      · obtain rfl := Option.some.inj (hparent.symm.trans hr)
        exact hcontains (ByteMap.contains_iff.mpr ⟨_, hlisted⟩)
      · rw [hparent] at hr
        cases hr

namespace Rewrites

/-- The first node of a change is the one at its start. -/
theorem eq_cons (h : v.Rewrites path r rest r' change) :
    ∃ below, change = (path, r') :: below ∧
      ∀ node ∈ below, path.length < node.1.length ∧
        node.1.length ≤ path.length + rest.length := by
  induction h with
  | leaf => exact ⟨[], rfl, List.forall_mem_nil _⟩
  | @node path _ b rest _ next' _ _ _ ih =>
      obtain ⟨below, rfl, hbelow⟩ := ih
      have hlong : (path ++ [b]).length = path.length + 1 := List.length_append
      refine ⟨_, rfl, List.forall_mem_cons.mpr ⟨?_, fun node hnode => ?_⟩⟩
      · rw [hlong, List.length_cons]
        omega
      · have := hbelow node hnode
        rw [List.length_cons]
        omega

theorem distinct (h : v.Rewrites path r rest r' change) : (change.map (·.1)).Nodup := by
  induction h with
  | leaf => exact List.nodup_singleton _
  | @node path _ b _ _ _ change _ hrest ih =>
      refine List.nodup_cons.mpr ⟨fun hmem => ?_, ih⟩
      obtain ⟨below, rfl, hbelow⟩ := hrest.eq_cons
      obtain ⟨node, hnode, heq⟩ := List.mem_map.mp hmem
      rcases List.mem_cons.mp hnode with rfl | hnode
      · simp at heq
      · have hsame : node.1 = path := heq
        have hlong := (hbelow node hnode).1
        rw [hsame, List.length_append, List.length_singleton] at hlong
        omega

/-- A changed node below the first one is listed by its parent's new record. -/
theorem parent (h : v.Rewrites path r rest r' change) {q : Bytes} {b : UInt8} {c : Record}
    (hmem : (q ++ [b], c) ∈ change) (hlow : path.length ≤ q.length) (hholds : c.isEmpty = false) :
    ∃ p, (q, p) ∈ change ∧ p.children.get? b = some c.summary := by
  have hq : (q ++ [b]).length = q.length + 1 := List.length_append
  induction h with
  | leaf =>
      obtain ⟨rfl, _⟩ := Prod.mk.inj (List.mem_singleton.mp hmem)
      omega
  | @node path r b' _ _ next' change _ hrest ih =>
      have hlong : (path ++ [b']).length = path.length + 1 := List.length_append
      rcases List.mem_cons.mp hmem with heq | hmem
      · obtain ⟨rfl, _⟩ := Prod.mk.inj heq
        omega
      · by_cases hlen : path.length < q.length
        · obtain ⟨p, hp, hlisted⟩ := ih hmem (hlong ▸ hlen)
          exact ⟨p, List.mem_cons_of_mem _ hp, hlisted⟩
        · obtain ⟨below, rfl, hbelow⟩ := hrest.eq_cons
          rcases List.mem_cons.mp hmem with heq | hdeep
          · obtain ⟨hpath, rfl⟩ := Prod.mk.inj heq
            obtain ⟨rfl, hb⟩ := List.append_inj' hpath rfl
            obtain rfl := List.singleton_inj.mp hb
            refine ⟨_, List.mem_cons_self, ?_⟩
            rw [Record.get?_withChild, if_pos rfl, hholds]
            rfl
          · have := (hbelow _ hdeep).1
            dsimp only at this
            omega

/-- What a changed node was before: all its children but one stay, and the last node
of the path gets none. -/
theorem before (h : v.Rewrites path r rest r' change) (hv : v.Linked) (hr : v.Stands path r)
    {q : Bytes} {p' : Record} (hmem : (q, p') ∈ change) :
    ∃ p, v.Stands q p ∧
      (p'.children.isEmpty = true ∧ q.length = path.length + rest.length ∨
        ∃ b, q ++ [b] ∈ change.map (·.1) ∧
          ∀ c, c ≠ b → p'.children.get? c = p.children.get? c) := by
  induction h with
  | @leaf path r _ hchildless =>
      obtain ⟨rfl, rfl⟩ := Prod.mk.inj (List.mem_singleton.mp hmem)
      exact ⟨r, hr, Or.inl ⟨hchildless, rfl⟩⟩
  | @node path r b rest _ next' change hnext hrest ih =>
      rcases List.mem_cons.mp hmem with heq | hmem
      · obtain ⟨rfl, rfl⟩ := Prod.mk.inj heq
        refine ⟨r, hr, Or.inr ⟨b, ?_, fun c hc => ?_⟩⟩
        · obtain ⟨below, rfl, _⟩ := hrest.eq_cons
          exact List.mem_cons_of_mem _ List.mem_cons_self
        · rw [Record.get?_withChild, if_neg hc]
      · obtain ⟨p, hp, hcases⟩ := ih (hv.stands_next hr hnext) hmem
        rcases hcases with ⟨hchildless, hlen⟩ | ⟨c, hc, hkept⟩
        · refine ⟨p, hp, Or.inl ⟨hchildless, ?_⟩⟩
          rw [hlen, List.length_append, List.length_singleton, List.length_cons]
          omega
        · exact ⟨p, hp, Or.inr ⟨c, List.mem_cons_of_mem _ hc, hkept⟩⟩

end Rewrites

theorem get?_applyChange_of_not_mem {q : Bytes} (h : q ∉ change.map (·.1)) :
    (v.applyChange change).get? q = v.get? q := by
  induction change generalizing v with
  | nil => rfl
  | cons node change ih =>
      obtain ⟨hne, hrest⟩ := not_or.mp (mt List.mem_cons.mpr h)
      have hstep := ih (v := v.set node.1 node.2) hrest
      rw [get?_set, if_neg hne] at hstep
      exact hstep

theorem get?_applyChange_of_mem {q : Bytes} {p : Record} (hdistinct : (change.map (·.1)).Nodup)
    (hmem : (q, p) ∈ change) :
    (v.applyChange change).get? q = if q = [] ∨ p.isEmpty = false then some p else none := by
  induction change generalizing v with
  | nil => cases hmem
  | cons node change ih =>
      obtain ⟨hnew, hrest⟩ := List.nodup_cons.mp hdistinct
      rcases List.mem_cons.mp hmem with rfl | hmem
      · have hlast : (v.applyChange ((q, p) :: change)).get? q = (v.set q p).get? q :=
          get?_applyChange_of_not_mem hnew
        rw [hlast, get?_set, if_pos rfl]
      · exact ih hrest hmem

namespace Rewrites

variable (h : v.Rewrites [] v.root rest r' change)
include h

/-- A changed node is in memory afterwards unless it holds nothing. -/
theorem get?_of_mem {q : Bytes} {p : Record} (hmem : (q, p) ∈ change) (hholds : p.isEmpty = false) :
    (v.applyChange change).get? q = some p := by
  rw [get?_applyChange_of_mem h.distinct hmem, if_pos (Or.inr hholds)]

theorem of_get? {q : Bytes} {p found : Record} (hmem : (q, p) ∈ change)
    (hget : (v.applyChange change).get? q = some found) :
    found = p ∧ (q = [] ∨ p.isEmpty = false) := by
  rw [get?_applyChange_of_mem h.distinct hmem] at hget
  split at hget
  · next hcases => exact ⟨(Option.some.inj hget).symm, hcases⟩
  · cases hget

variable (hv : v.Linked) (hlen : rest.length = identLength)
include hv hlen

/-- A node that stays and was listed by a changed one is listed by it still. -/
theorem listed_of_kept {q : Bytes} {b : UInt8} {p p' c : Record} (hp : v.get? q = some p)
    (hlisted : p.children.get? b = some c.summary) (hmem : (q, p') ∈ change)
    (hkept : q ++ [b] ∉ change.map (·.1)) : p'.children.get? b = some c.summary := by
  obtain ⟨old, hold, hcases⟩ := h.before hv (Or.inl (get?_nil v)) hmem
  have hsame : old = p := by
    rcases hold with hold | ⟨hnone, _⟩
    · exact Option.some.inj (hold.symm.trans hp)
    · rw [hp] at hnone
      cases hnone
  subst hsame
  rcases hcases with ⟨_, hfull⟩ | ⟨b', hb', hothers⟩
  · -- nothing was in memory below the leaf
    have hchildless := hv.childless _ old hp (by
      rw [hfull, hlen, List.length_nil]
      omega)
    rw [ByteMap.isEmpty_iff.mp hchildless b] at hlisted
    cases hlisted
  · have hne : b ≠ b' := by
      rintro rfl
      exact hkept hb'
    rw [hothers b hne, hlisted]

/-- A changed node at the depth of leaves has no children. -/
theorem childless_of_deep {q : Bytes} {p : Record} (hmem : (q, p) ∈ change)
    (hdeep : identLength ≤ q.length) : p.children.isEmpty = true := by
  obtain ⟨_, _, ⟨hchildless, _⟩ | ⟨b, hb, _⟩⟩ := h.before hv (Or.inl (get?_nil v)) hmem
  · exact hchildless
  · obtain ⟨node, hnode, heq⟩ := List.mem_map.mp hb
    obtain ⟨below, rfl, hbelow⟩ := h.eq_cons
    rcases List.mem_cons.mp hnode with rfl | hnode
    · simp at heq
    · have hshort := (hbelow node hnode).2
      rw [heq, hlen, List.length_append, List.length_singleton, List.length_nil] at hshort
      omega

/-- **The view that took a change over** is consistent. -/
theorem linked : (v.applyChange change).Linked where
  listed q b c hget := by
    by_cases hchanged : q ++ [b] ∈ change.map (·.1)
    · obtain ⟨⟨_, c'⟩, hmem, rfl⟩ := List.mem_map.mp hchanged
      obtain ⟨rfl, hholds⟩ := h.of_get? hmem hget
      obtain ⟨p, hp, hlisted⟩ := h.parent hmem (Nat.zero_le _) (hholds.resolve_left (by simp))
      exact ⟨p, h.get?_of_mem hp (Record.isEmpty_of_get? hlisted), hlisted⟩
    · rw [get?_applyChange_of_not_mem hchanged] at hget
      obtain ⟨p, hp, hlisted⟩ := hv.listed q b c hget
      by_cases habove : q ∈ change.map (·.1)
      · obtain ⟨⟨_, p'⟩, hmem, rfl⟩ := List.mem_map.mp habove
        have hstill := h.listed_of_kept hv hlen hp hlisted hmem hchanged
        exact ⟨p', h.get?_of_mem hmem (Record.isEmpty_of_get? hstill), hstill⟩
      · exact ⟨p, (get?_applyChange_of_not_mem habove).trans hp, hlisted⟩
  childless q found hget hdeep := by
    by_cases hchanged : q ∈ change.map (·.1)
    · obtain ⟨⟨_, p'⟩, hmem, rfl⟩ := List.mem_map.mp hchanged
      obtain ⟨rfl, _⟩ := h.of_get? hmem hget
      exact h.childless_of_deep hv hlen hmem hdeep
    · rw [get?_applyChange_of_not_mem hchanged] at hget
      exact hv.childless q found hget hdeep

end Rewrites

end View

/-! ## Calls -/

section Calls

/-- Where a whole path is in memory, the computation of a change succeeds, and the
change is one along the path. -/
def ChangesAlong (id : Ident)
    (compute : View → Except EngineError (Option (Record × Change))) : Prop :=
  ∀ v : View, v.Materialized [] v.root id.bytes →
    ∃ found, compute v = .ok found ∧
      ∀ r' change, found = some (r', change) → v.Rewrites [] v.root id.bytes r' change

theorem changesAlong_insertion (id : Ident) :
    ChangesAlong id fun v => v.insertion id [] v.root id.bytes := by
  intro v hv
  obtain ⟨found, hrun, hfound⟩ : ∃ found, v.insertion id [] v.root id.bytes = .ok found ∧ _ :=
    insertion_rewrites id.bytes [] v.root hv
  exact ⟨found, hrun, fun r' change hmade => (hfound r' change hmade).2⟩

theorem changesAlong_deletion (id : Ident) :
    ChangesAlong id fun v => v.deletion id [] v.root id.bytes :=
  fun v hv => deletion_rewrites id.bytes [] v.root hv

theorem View.linked_root (root : Record) : View.Linked ⟨root, ∅⟩ where
  listed path b r hget := absurd (View.get?_unloaded (v := ⟨root, ∅⟩) hget).1 (by simp)
  childless path r hget hdeep := by
    rw [(View.get?_unloaded (v := ⟨root, ∅⟩) hget).1] at hdeep
    exact absurd hdeep (by decide)

theorem View.Linked.countMutation {e : Engine} (h : e.view.Linked) :
    e.countMutation.view.Linked := by
  rcases (Engine.countMutation_cases e).2 with hview | hview
  · exact hview ▸ h
  · exact hview ▸ View.linked_root e.view.root

/-- What a failed mutation leaves: the store and the root as they were.  And it did not
look for a node in memory in vain. -/
structure Engine.FailsCleanly (e : Engine) (s : Store) (outcome : Outcome Bool) : Prop where
  cause : ∀ cause, outcome.result = .error cause → cause.FromStore
  store : ∀ cause, outcome.result = .error cause → outcome.store = s
  root : ∀ cause, outcome.result = .error cause → outcome.engine.view.root = e.view.root

theorem failsCleanly_of_ok {e : Engine} {s : Store} {outcome : Outcome Bool} {changed : Bool}
    (h : outcome.result = .ok changed) : e.FailsCleanly s outcome := by
  have hnot : ∀ cause, outcome.result ≠ .error cause := fun cause herror =>
    nomatch herror.symm.trans h
  exact ⟨fun cause herror => absurd herror (hnot cause),
    fun cause herror => absurd herror (hnot cause),
    fun cause herror => absurd herror (hnot cause)⟩

/-- **One mutation**, over any store: the nodes in memory stay consistent, and if it
fails it does so cleanly. -/
theorem mutate_linked {e : Engine} (he : e.view.Linked) {id : Ident}
    {compute : View → Except EngineError (Option (Record × Change))}
    (hcompute : ChangesAlong id compute) (s : Store) :
    (e.mutate compute s id).engine.view.Linked ∧ e.FailsCleanly s (e.mutate compute s id) := by
  obtain ⟨hextends, hmeets⟩ :=
    materialize_brings e.config.ns s id.bytes [] e.view.root e.view he (View.get?_nil e.view)
  rw [Engine.mutate]
  generalize Engine.materialize e.config.ns s [] e.view.root id.bytes e.view = loading at *
  obtain ⟨loaded, v⟩ := loading
  have hroot : v.root = e.view.root := hextends.root_eq
  cases loaded with
  | error cause =>
      refine ⟨hextends.linked, ⟨fun _ herror => ?_, fun _ _ => rfl, fun _ _ => hroot⟩⟩
      exact Except.error.inj herror ▸ hmeets.error cause rfl
  | ok u =>
      obtain ⟨found, hrun, hchange⟩ := hcompute v (hroot ▸ hmeets.ok u rfl)
      dsimp only
      rw [hrun]
      cases found with
      | none => exact ⟨hextends.linked, failsCleanly_of_ok rfl⟩
      | some made =>
          obtain ⟨r', change⟩ := made
          have hlinked := (hchange r' change rfl).linked hextends.linked id.length_eq
          dsimp only
          rw [Engine.persist]
          cases hcommit : s.commitsFail with
          | false =>
              rw [s.commit_eq_ok hcommit]
              exact ⟨View.Linked.countMutation hlinked, failsCleanly_of_ok rfl⟩
          | true =>
              rw [s.commit_eq_error hcommit]
              refine ⟨View.linked_root v.root, ?_⟩
              refine ⟨fun _ herror => ?_, fun _ _ => rfl, fun _ _ => hroot⟩
              exact Except.error.inj herror ▸ fromStore_ofStore _

theorem insert_linked {e : Engine} (he : e.view.Linked) (s : Store) (id : Ident) :
    (e.insert s id).engine.view.Linked ∧ e.FailsCleanly s (e.insert s id) :=
  mutate_linked he (changesAlong_insertion id) s

theorem delete_linked {e : Engine} (he : e.view.Linked) (s : Store) (id : Ident) :
    (e.delete s id).engine.view.Linked ∧ e.FailsCleanly s (e.delete s id) :=
  mutate_linked he (changesAlong_deletion id) s

/-- Forgetting the nodes below a path keeps the others consistent. -/
theorem linked_dropStrictlyUnder {v : View} (hv : v.Linked) (path : Bytes) :
    View.Linked { v with loaded := v.loaded.dropStrictlyUnder path } := by
  have hkept : ∀ {q r}, View.get? { v with loaded := v.loaded.dropStrictlyUnder path } q = some r →
      ¬(path <+: q ∧ q ≠ path) ∧ v.get? q = some r := by
    intro q r hget
    rw [Engine.get?_dropStrictlyUnder] at hget
    split at hget
    · cases hget
    · next hnot => exact ⟨hnot, hget⟩
  constructor
  · intro q b r hget
    obtain ⟨hnot, hold⟩ := hkept hget
    obtain ⟨parent, hparent, hlisted⟩ := hv.listed q b r hold
    refine ⟨parent, ?_, hlisted⟩
    have hstays := fun hdropped => hnot (Engine.dropped_append hdropped b)
    rw [Engine.get?_dropStrictlyUnder, if_neg hstays]
    exact hparent
  · intro q r hget
    exact hv.childless q r (hkept hget).2

theorem reload_linked {e e' : Engine} {s : Store} (h : e.reload s = .ok e') : e'.view.Linked := by
  rw [Engine.reload] at h
  split at h
  · cases h
  · exact Except.ok.inj h ▸ View.linked_root _

/-- **One call**, over any store, keeps the nodes in memory consistent. -/
theorem perform_linked {sys : System} (h : sys.engine.view.Linked) (step : Step) :
    (sys.perform step).2.engine.view.Linked := by
  have hopened : ∀ {e : Engine} (s : Store), (sys.opened s (e.reload s)).2.engine.view.Linked := by
    intro e s
    cases hreload : e.reload s with
    | error cause => exact h
    | ok e' => exact reload_linked hreload
  obtain ⟨call, refuses⟩ := step
  cases call with
  | insert id => exact (insert_linked h (sys.store.refusing refuses) id).1
  | delete id => exact (delete_linked h (sys.store.refusing refuses) id).1
  | unload path =>
      change (sys.engine.unloadUnder path).2.view.Linked
      rw [Engine.unloadUnder]
      split
      · exact h
      · exact linked_dropStrictlyUnder h path
  | loaded => exact h
  | reload => exact hopened (sys.store.refusing refuses)
  | reopen threshold => exact hopened (sys.store.refusing refuses)
  | ask query => exact h

/-- Engines that were opened on some store and called again and again since then,
with a store that holds anything at each call. -/
inductive Engine.Arises : Engine → Prop
  | opened {config : EngineConfig} {s : Store} {e : Engine}
      (hopen : Engine.openOn config s = .ok e) : Arises e
  | called {e : Engine} (h : Arises e) (s : Store) (step : Step) :
      Arises (System.perform ⟨e, s⟩ step).2.engine

/-- **Every engine** that was opened and called holds consistent nodes in memory. -/
theorem arises_linked {e : Engine} (h : e.Arises) : e.view.Linked := by
  induction h with
  | opened hopen => exact reload_linked hopen
  | called _ s step ih =>
      have hsys : View.Linked (System.mk _ s).engine.view := ih
      exact perform_linked hsys step

end Calls

/-! ## One damaged record -/

section Damage

/-- The store with `value` for the record of the node at `path`, or with none there. -/
def Store.altered (s : Store) (ns : UInt8) (path : Bytes) (value : Option Bytes) : Store :=
  { s with
    entries := value.elim (s.entries.erase (nodeKey ns path)) (s.entries.insert (nodeKey ns path)) }

variable {s : Store} {ns : UInt8} {path q : Bytes} {value : Option Bytes}

theorem Store.getElem?_altered : (s.altered ns path value).entries[nodeKey ns q]? =
    if q = path then value else s.entries[nodeKey ns q]? := by
  have hcmp : compare (nodeKey ns path) (nodeKey ns q) = .eq ↔ q = path :=
    Std.LawfulEqOrd.compare_eq_iff_eq.trans
      ⟨fun h => (List.cons.inj h).2.symm, fun h => congrArg (nodeKey ns) h.symm⟩
  cases value with
  | none =>
      simp only [Store.altered, Option.elim_none, Std.TreeMap.getElem?_erase, hcmp]
  | some value =>
      simp only [Store.altered, Option.elim_some, Std.TreeMap.getElem?_insert, hcmp]

theorem Store.loadNode_altered (h : q ≠ path) :
    (s.altered ns path value).loadNode ns q = s.loadNode ns q := by
  rw [Store.loadNode, Store.get?, Store.getElem?_altered, if_neg h]
  rfl

theorem Engine.loadChild_altered (h : q ≠ path) (summary : Summary) :
    Engine.loadChild ns (s.altered ns path value) q summary =
      Engine.loadChild ns s q summary := by
  rw [Engine.loadChild, Store.loadNode_altered h]
  rfl

/-- A listed node without a record is an error. -/
theorem Engine.loadChild_altered_none (hreads : s.readsFail = false) (summary : Summary) :
    Engine.loadChild ns (s.altered ns path none) path summary =
      .error (.missingNode path.toHex) := by
  have hget : (s.altered ns path none).get? (nodeKey ns path) = .ok none := by
    rw [Store.get?, Store.getElem?_altered, if_pos rfl, if_neg]
    exact Bool.eq_false_iff.mp hreads
  rw [Engine.loadChild, Store.loadNode, hget]

/-- The engine that was just opened on a store of the records of `held`. -/
def Engine.fresh (config : EngineConfig) (held : Finset Ident) : Engine :=
  ⟨config, ⟨canonical held [], ∅⟩, 0⟩

/-- Opening reads the root's record alone. -/
theorem Engine.openOn_altered {config : EngineConfig} {held : Finset Ident}
    (h : s.Holds config.ns held) (hpath : path ≠ []) :
    Engine.openOn config (s.altered config.ns path value) = .ok (Engine.fresh config held) := by
  have hroot : (s.altered config.ns path value).loadNode config.ns [] = s.loadNode config.ns [] :=
    Store.loadNode_altered hpath.symm
  have hreload : Engine.openOn config (s.altered config.ns path value) =
      Engine.openOn config s := by
    rw [Engine.openOn, Engine.reload, Engine.new, hroot]
    rfl
  exact hreload.trans (Engine.reload_of_holds (e := Engine.new config) h)

section Reading

variable {r next : Record} {b : UInt8} {rest : Bytes} {v : View} {summary : Summary}

/-- A node that is read is taken into memory, and reading goes on below it. -/
theorem Engine.materialize_of_read (hq : path ++ [b] = q)
    (hlisted : r.children.get? b = some summary) (hnew : v.get? q = none)
    (hload : Engine.loadChild ns s q summary = .ok next) :
    Engine.materialize ns s path r (b :: rest) v =
      Engine.materialize ns s q next rest (v.set q next) := by
  rw [Engine.materialize, hlisted, hq]
  dsimp only
  rw [hnew, hload]

/-- A node that cannot be read ends the reading. -/
theorem Engine.materialize_of_unread {cause : EngineError} (hq : path ++ [b] = q)
    (hlisted : r.children.get? b = some summary) (hnew : v.get? q = none)
    (hload : Engine.loadChild ns s q summary = .error cause) :
    Engine.materialize ns s path r (b :: rest) v = (.error cause, v) := by
  rw [Engine.materialize, hlisted, hq]
  dsimp only
  rw [hnew, hload]

end Reading

/-- A mutation whose path cannot be read keeps what was read of it. -/
theorem Engine.insert_of_unread {e : Engine} {id : Ident} {cause : EngineError} {v : View}
    (h : Engine.materialize e.config.ns s [] e.view.root id.bytes e.view = (.error cause, v)) :
    e.insert s id = ⟨.error cause, { e with view := v }, s⟩ := by
  rw [Engine.insert, Engine.mutate, h]

end Damage

/-- **Insertions and deletions fail cleanly.**  An engine was opened on some store and
called any number of times, and at each call the store held anything: records may have
been missing, unreadable, of a wrong shape or at odds with their parents.  Now an
identifier is inserted or deleted, over a store that again holds anything.  The change
never looks for a node in memory in vain.  If it ends with an error, be it from reading
the path or from the commit, the store is as it was, and so is the root in memory: its
digest, its count and what it says of its children, which is what the children that are
in memory are.  Counts are words, whatever they add up to. -/
theorem mutations_fail_cleanly {e : Engine} (h : e.Arises) (s : Store) (id : Ident) :
    ∀ outcome ∈ [e.insert s id, e.delete s id],
      (∀ path, outcome.result ≠ .error (.notMaterialized path)) ∧
        ∀ cause, outcome.result = .error cause →
          outcome.store = s ∧
            outcome.engine.rootDigest = e.rootDigest ∧
            outcome.engine.itemCount = e.itemCount ∧
            outcome.engine.view.root.children = e.view.root.children ∧
            ∀ b child, outcome.engine.view.get? [b] = some child →
              e.view.root.children.get? b = some child.summary := by
  have hlinked := arises_linked h
  have hclean : ∀ outcome : Outcome Bool,
      outcome.engine.view.Linked ∧ e.FailsCleanly s outcome →
        (∀ path, outcome.result ≠ .error (.notMaterialized path)) ∧
          ∀ cause, outcome.result = .error cause →
            outcome.store = s ∧
              outcome.engine.rootDigest = e.rootDigest ∧
              outcome.engine.itemCount = e.itemCount ∧
              outcome.engine.view.root.children = e.view.root.children ∧
              ∀ b child, outcome.engine.view.get? [b] = some child →
                e.view.root.children.get? b = some child.summary := by
    rintro outcome ⟨hlast, hfails⟩
    refine ⟨fun path herror => hfails.cause _ herror path rfl, fun cause herror => ?_⟩
    have hroot := hfails.root cause herror
    refine ⟨hfails.store cause herror, congrArg Record.digest hroot,
      congrArg Record.itemCount hroot, congrArg Record.children hroot, fun b child hchild => ?_⟩
    obtain ⟨parent, hparent, hlisted⟩ := hlast.listed [] b child hchild
    obtain rfl := Option.some.inj hparent
    exact hroot ▸ hlisted
  intro outcome houtcome
  rcases List.mem_pair.mp houtcome with rfl | rfl
  · exact hclean _ (insert_linked hlinked s id)
  · exact hclean _ (delete_linked hlinked s id)

/-- One identifier was inserted and the record two bytes down is gone.  Inserting the
identifier again reads the first node of its path, and fails at the second. -/
theorem mutations_fail_cleanly_missing_record :
    let before := ((System.blank {}).run (reliably [.insert (constantIdent 0)])).2.store
    let s := before.altered 8 [0, 0] none
    ∃ e, Engine.openOn {} s = .ok e ∧ e.Arises ∧
      (e.insert s (constantIdent 0)).result = .error (.missingNode "0000") ∧
      (e.insert s (constantIdent 0)).engine.view.get? [0] = some (canonical {constantIdent 0} [0]) ∧
      (e.insert s (constantIdent 0)).store = s ∧
      (e.insert s (constantIdent 0)).engine.rootDigest = e.rootDigest := by
  intro before s
  have hholds : before.Holds 8 {constantIdent 0} :=
    (System.reliably_coherent (coherent_of_opened (openedBlank_blank {})).1
      [.insert (constantIdent 0)]).store
  have hocc : ∀ path, path <+: (constantIdent 0).bytes → Occurs {constantIdent 0} path :=
    fun path hpre => ⟨constantIdent 0, Finset.mem_singleton_self _, hpre⟩
  have hfirst : Occurs {constantIdent 0} [0] := hocc [0] (List.prefix_append [0] _)
  have hsecond : Occurs {constantIdent 0} [0, 0] := hocc [0, 0] (List.prefix_append [0, 0] _)
  have hopen : Engine.openOn {} s = .ok (Engine.fresh {} {constantIdent 0}) :=
    Engine.openOn_altered hholds (by decide)
  have hread : Engine.loadChild 8 s [0] (canonical {constantIdent 0} [0]).summary =
      .ok (canonical {constantIdent 0} [0]) := by
    rw [Engine.loadChild_altered (by decide)]
    exact loadChild_of_holds hholds hfirst
  have hmissing : Engine.loadChild 8 s [0, 0] (canonical {constantIdent 0} [0, 0]).summary =
      .error (.missingNode "0000") :=
    Engine.loadChild_altered_none hholds.reads _
  let v := View.set ⟨canonical {constantIdent 0} [], ∅⟩ [0] (canonical {constantIdent 0} [0])
  have hlisted : ∀ {path q b}, path ++ [b] = q → Occurs {constantIdent 0} q →
      (canonical {constantIdent 0} path).children.get? b =
        some (canonical {constantIdent 0} q).summary := by
    rintro path _ b rfl hnext
    exact (get?_canonical_children _ _ _).trans (if_pos hnext)
  have hmaterialize : Engine.materialize 8 s [] (canonical {constantIdent 0} [])
      (0 :: 0 :: List.replicate 28 0) ⟨canonical {constantIdent 0} [], ∅⟩ =
      (.error (.missingNode "0000"), v) := by
    have hnone : View.get? ⟨canonical {constantIdent 0} [], ∅⟩ [0] = none :=
      Std.TreeMap.getElem?_emptyc
    have hnew : v.get? [0, 0] = none := by
      rw [View.get?_set, if_neg (by decide)]
      exact Std.TreeMap.getElem?_emptyc
    have hq : [] ++ [0] = ([0] : Bytes) := rfl
    have hq' : [0] ++ [0] = ([0, 0] : Bytes) := rfl
    rw [Engine.materialize_of_read hq (hlisted hq hfirst) hnone hread]
    exact Engine.materialize_of_unread hq' (hlisted hq' hsecond) hnew hmissing
  have hinsert : (Engine.fresh {} {constantIdent 0}).insert s (constantIdent 0) =
      ⟨.error (.missingNode "0000"), { Engine.fresh {} {constantIdent 0} with view := v }, s⟩ :=
    Engine.insert_of_unread hmaterialize
  have harises := Engine.Arises.opened hopen
  obtain ⟨_, hfails⟩ := mutations_fail_cleanly harises s (constantIdent 0) _ List.mem_cons_self
  obtain ⟨hstore, hdigest, _⟩ := hfails _ (congrArg Outcome.result hinsert)
  refine ⟨_, hopen, harises, congrArg Outcome.result hinsert, ?_, hstore, hdigest⟩
  rw [hinsert]
  dsimp only
  rw [View.get?_set, if_pos rfl, if_pos (Or.inr (canonical_isEmpty_of_occurs hfirst))]

end MerkleSync
