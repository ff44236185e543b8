import MerkleSync.Engine.Mutation
import MerkleSync.Proofs.Canonical
import MerkleSync.Proofs.RecordRoundTrip

/-!
# Store and view of a set

A store holds a set under a namespace if its records there are those of the
set's trie, in their stored form.  A view shows a set if each node in memory is
the node of that trie; the nodes in memory are closed under parents.  An engine
is coherent if its store holds and its view shows the same set.

**Results.**
* `loadNode_of_holds`, `loadChild_of_holds`: what is read is the trie's node,
  and it agrees with what its parent says of it.
* `materialize_of_shows`: bringing a path into memory succeeds and changes
  nothing else.
-/

namespace MerkleSync

/-- The records under the namespace are those of the trie of `held`. -/
structure Store.Holds (s : Store) (ns : UInt8) (held : Finset Ident) : Prop where
  reads : s.readsFail = false
  records : ∀ path, s.entries[nodeKey ns path]? =
    if Occurs held path then some (canonical held path).encode else none

/-- The nodes in memory are those of the trie of `held`, closed under parents. -/
structure View.Shows (v : View) (held : Finset Ident) : Prop where
  node : ∀ path r, v.get? path = some r →
    (path = [] ∨ Occurs held path) ∧ r = canonical held path
  closed : ∀ path b, (v.get? (path ++ [b])).isSome → (v.get? path).isSome

/-- The store holds and the view shows the same set. -/
structure Engine.Coherent (e : Engine) (s : Store) (held : Finset Ident) : Prop where
  store : s.Holds e.config.ns held
  view : e.view.Shows held

namespace View

variable (v : View)

@[simp] theorem get?_nil : v.get? [] = some v.root := rfl

theorem get?_of_ne_nil {path : Bytes} (h : path ≠ []) : v.get? path = v.loaded[path]? := by
  rw [get?, if_neg (by simpa using h)]

theorem get?_set (path : Bytes) (r : Record) (q : Bytes) :
    (v.set path r).get? q =
      if q = path then (if path = [] ∨ r.isEmpty = false then some r else none) else v.get? q := by
  have hcmp : ∀ a b : Bytes, compare a b = .eq ↔ b = a := fun a b =>
    Std.LawfulEqOrd.compare_eq_iff_eq.trans eq_comm
  by_cases hpath : path = []
  · subst hpath
    by_cases hq : q = []
    · subst hq
      simp [set, get?]
    · simp [set, get?, hq]
  · by_cases hq : q = []
    · subst hq
      have hset : (v.set path r).root = v.root := by
        unfold set
        split
        · next h => exact absurd (List.isEmpty_iff.mp h) hpath
        · split <;> rfl
      rw [get?_nil, hset, if_neg (Ne.symm hpath), get?_nil]
    · rw [get?_of_ne_nil _ hq, get?_of_ne_nil v hq]
      cases hr : r.isEmpty with
      | true =>
          simp only [set, List.isEmpty_iff, hpath, if_false, hr, if_true, Std.TreeMap.getElem?_erase,
            hcmp]
          split <;> simp
      | false =>
          simp only [set, List.isEmpty_iff, hpath, if_false, hr, Bool.false_eq_true,
            Std.TreeMap.getElem?_insert, hcmp]
          split <;> simp

variable {v}

theorem get?_unloaded {path : Bytes} {r : Record} (h : v.unloaded.get? path = some r) :
    path = [] ∧ r = v.root := by
  by_cases hpath : path = []
  · subst hpath
    exact ⟨rfl, (Option.some.inj h).symm⟩
  · rw [get?_of_ne_nil _ hpath] at h
    simp [unloaded] at h

namespace Shows

variable {held : Finset Ident}

theorem root_eq (h : v.Shows held) : v.root = canonical held [] :=
  (h.node [] v.root (get?_nil v)).2

theorem eq_canonical (h : v.Shows held) {path : Bytes} {r : Record} (hget : v.get? path = some r) :
    r = canonical held path :=
  (h.node path r hget).2

/-- A node in memory brings all nodes above it into memory. -/
theorem isSome_of_isPrefix (h : v.Shows held) {path q : Bytes} (hpre : q <+: path)
    (hsome : (v.get? path).isSome) : (v.get? q).isSome := by
  obtain ⟨rest, rfl⟩ := hpre
  induction rest using List.reverseRecOn with
  | nil => rwa [List.append_nil] at hsome
  | append_singleton rest b ih =>
      rw [← List.append_assoc] at hsome
      exact ih (h.closed _ b hsome)

/-- The root alone shows the same set. -/
theorem unloaded (h : v.Shows held) : v.unloaded.Shows held where
  node path r hget := by
    obtain ⟨rfl, rfl⟩ := get?_unloaded hget
    exact ⟨Or.inl rfl, h.root_eq⟩
  closed path b hsome := by
    obtain ⟨r, hget⟩ := Option.isSome_iff_exists.mp hsome
    exact absurd (get?_unloaded hget).1 (by simp)

/-- Adding a node of the trie below a node in memory. -/
theorem set_canonical (h : v.Shows held) {path : Bytes} {b : UInt8}
    (hparent : (v.get? path).isSome) (hocc : Occurs held (path ++ [b])) :
    (v.set (path ++ [b]) (canonical held (path ++ [b]))).Shows held := by
  have hset : ∀ q, (v.set (path ++ [b]) (canonical held (path ++ [b]))).get? q =
      if q = path ++ [b] then some (canonical held (path ++ [b])) else v.get? q := by
    intro q
    rw [get?_set, if_pos (Or.inr (canonical_isEmpty_of_occurs hocc))]
  constructor
  · intro q r hget
    rw [hset] at hget
    by_cases hq : q = path ++ [b]
    · rw [if_pos hq] at hget
      subst hq
      exact ⟨Or.inr hocc, (Option.some.inj hget).symm⟩
    · rw [if_neg hq] at hget
      exact h.node q r hget
  · intro q c hsome
    rw [hset] at hsome ⊢
    by_cases hq : q = path ++ [b]
    · rw [if_pos hq]
      rfl
    · rw [if_neg hq]
      by_cases hqc : q ++ [c] = path ++ [b]
      · have hqp : q = path := (List.append_inj' hqc rfl).1
        exact hqp ▸ hparent
      · rw [if_neg hqc] at hsome
        exact h.closed q c hsome

end Shows
end View

section Loading

variable {s : Store} {ns : UInt8} {held : Finset Ident}

theorem readRecord_canonical {path : Bytes} (hocc : Occurs held path) (key : Bytes) :
    readRecord key path.length (canonical held path).encode = .ok (canonical held path) := by
  simp only [readRecord, Record.decode_encode, checkShape_canonical hocc]

/-- **What is read is the node of the trie.** -/
theorem loadNode_of_holds (h : s.Holds ns held) (path : Bytes) :
    s.loadNode ns path = .ok (if Occurs held path then some (canonical held path) else none) := by
  have hget : s.get? (nodeKey ns path) =
      .ok (if Occurs held path then some (canonical held path).encode else none) := by
    rw [Store.get?, h.reads, h.records]
    rfl
  rw [Store.loadNode, hget]
  by_cases hocc : Occurs held path
  · rw [if_pos hocc, if_pos hocc]
    simp only [readRecord_canonical hocc]
    rfl
  · rw [if_neg hocc, if_neg hocc]

/-- A node that occurs agrees with what its parent says of it. -/
theorem loadChild_of_holds (h : s.Holds ns held) {path : Bytes} (hocc : Occurs held path) :
    Engine.loadChild ns s path (canonical held path).summary = .ok (canonical held path) := by
  rw [Engine.loadChild, loadNode_of_holds h, if_pos hocc]
  simp

/-- **Bringing a path into memory** adds the nodes on it that occur, and keeps
those that are there. -/
theorem materialize_of_shows (hs : s.Holds ns held) :
    ∀ (rest path : Bytes) (v : View), v.Shows held → (v.get? path).isSome →
      ∃ v', Engine.materialize ns s path (canonical held path) rest v = (.ok (), v') ∧
        v'.Shows held ∧
        (∀ q, (v.get? q).isSome → (v'.get? q).isSome) ∧
        (∀ q, path <+: q → q <+: path ++ rest → Occurs held q → (v'.get? q).isSome)
  | [], path, v, hv, hpath => by
      refine ⟨v, rfl, hv, fun _ hq => hq, fun q hlow hhigh _ => ?_⟩
      rw [List.append_nil] at hhigh
      rwa [hhigh.eq_of_length_le hlow.length_le]
  | b :: rest, path, v, hv, hpath => by
      have hsplit : path ++ b :: rest = (path ++ [b]) ++ rest := by simp
      -- a beginning of the path strictly below `path` goes on with `b`
      have hbelow : ∀ q, path <+: q → q <+: path ++ b :: rest → q = path ∨ path ++ [b] <+: q := by
        rintro q ⟨more, rfl⟩ hhigh
        rw [List.prefix_append_right_inj] at hhigh
        cases more with
        | nil => exact Or.inl (List.append_nil path)
        | cons c more =>
            rw [List.cons_prefix_cons] at hhigh
            exact Or.inr ⟨more, by simp [hhigh.1]⟩
      rw [Engine.materialize, get?_canonical_children]
      by_cases hocc : Occurs held (path ++ [b])
      · rw [if_pos hocc]
        cases hget : v.get? (path ++ [b]) with
        | some next =>
            simp only [hv.eq_canonical hget]
            obtain ⟨v', hrun, hshows, hkeep, hcover⟩ :=
              materialize_of_shows hs rest (path ++ [b]) v hv (by rw [hget]; rfl)
            refine ⟨v', hrun, hshows, hkeep, fun q hlow hhigh hq => ?_⟩
            rcases hbelow q hlow hhigh with rfl | hlow'
            · exact hkeep q hpath
            · exact hcover q hlow' (hsplit ▸ hhigh) hq
        | none =>
            simp only [loadChild_of_holds hs hocc]
            have hset := hv.set_canonical hpath hocc
            have hself : ((v.set (path ++ [b]) (canonical held (path ++ [b]))).get?
                (path ++ [b])).isSome := by
              rw [View.get?_set, if_pos rfl, if_pos (Or.inr (canonical_isEmpty_of_occurs hocc))]
              rfl
            obtain ⟨v', hrun, hshows, hkeep, hcover⟩ :=
              materialize_of_shows hs rest (path ++ [b]) _ hset hself
            have hkeep' : ∀ q, (v.get? q).isSome → (v'.get? q).isSome := by
              intro q hq
              refine hkeep q ?_
              rw [View.get?_set]
              split
              · next heq => rw [heq, hget] at hq; cases hq
              · exact hq
            refine ⟨v', hrun, hshows, hkeep', fun q hlow hhigh hq => ?_⟩
            rcases hbelow q hlow hhigh with rfl | hlow'
            · exact hkeep' q hpath
            · exact hcover q hlow' (hsplit ▸ hhigh) hq
      · rw [if_neg hocc]
        refine ⟨v, rfl, hv, fun _ hq => hq, fun q hlow hhigh hq => ?_⟩
        rcases hbelow q hlow hhigh with rfl | hlow'
        · exact hpath
        · exact absurd (hq.of_isPrefix hlow') hocc

end Loading
end MerkleSync
