import MerkleSync.Proofs.DigestBinding
import MerkleSync.Proofs.History
import MerkleSync.Proofs.QueryMeaning

/-!
# Equal digests, equal sets

Two engines that show nodes of the same digest at one path hold the same
identifiers below it.  Otherwise the strings that were hashed for what the two
engines show contain a collision, which is found by going down both tries.

**Results.**
* `hashes_iff_hashed`: the strings behind the answers of a coherent engine are
  those of the trie of its set.
* `collisionFree_or_collision`: either no two strings collide, or some do.
* `equal_digests_bind`: equal digests of any two engines.
-/

namespace MerkleSync

/-- The byte strings that are hashed for what an engine shows: for its
identifiers, for its nodes with children, and for the siblings along the path
`scope`. -/
inductive Engine.Hashes (e : Engine) (s : Store) (scope : Bytes) : Bytes → Prop
  | leaf {id : Ident} (hid : e.contains s id = .ok true) : Engine.Hashes e s scope id.bytes
  | inner {path : Bytes} {info : NodeInfo} (hinfo : e.nodeInfo s path = .ok (some info))
      (hsome : info.children.isEmpty = false) :
      Engine.Hashes e s scope (Digest.concat (info.children.values.map (·.digest)))
  | siblings {path : Bytes} {b : UInt8} {info : NodeInfo}
      (hinfo : e.nodeInfo s path = .ok (some info)) (hscope : path ++ [b] <+: scope)
      (hsome : (info.children.erase b).isEmpty = false) :
      Engine.Hashes e s scope (Digest.concat ((info.children.erase b).values.map (·.digest)))

/-- Two different strings have the same digest, or one has the empty digest. -/
def Collision (hashed : Bytes → Prop) : Prop :=
  (∃ x y, hashed x ∧ hashed y ∧ x ≠ y ∧ Digest.of x = Digest.of y) ∨
    ∃ x, hashed x ∧ Digest.of x = Digest.empty

theorem collisionFree_or_collision (hashed : Bytes → Prop) :
    CollisionFree hashed ∨ Collision hashed := by
  by_cases hcollision : Collision hashed
  · exact Or.inr hcollision
  · refine Or.inl ⟨fun x y hx hy hsame => ?_, fun x hx hempty => ?_⟩
    · by_contra hne
      exact hcollision (Or.inl ⟨x, y, hx, hy, hne, hsame⟩)
    · exact hcollision (Or.inr ⟨x, hx, hempty⟩)

section Shown

variable {held : Finset Ident} {path : Bytes}

theorem infoOf_of_occurs (h : path = [] ∨ Occurs held path) :
    infoOf held path = some ⟨path, (canonical held path).itemCount, (canonical held path).digest,
      (canonical held path).children⟩ := by
  rw [infoOf, nodeOf, if_pos h]
  rfl

/-- Only inner nodes that occur have children. -/
theorem occurs_of_children (h : (canonical held path).children.isEmpty = false) :
    path.length < identLength ∧ Occurs held path := by
  obtain ⟨b, hb⟩ : ∃ b, Occurs held (path ++ [b]) := by
    by_contra hnone
    rw [not_exists] at hnone
    refine Bool.eq_false_iff.mp h (ByteMap.isEmpty_iff.mpr fun b => ?_)
    rw [get?_canonical_children, if_neg (hnone b)]
  have hlen := hb.length_le
  rw [List.length_append, List.length_singleton] at hlen
  exact ⟨hlen, hb.of_isPrefix (List.prefix_append path [b])⟩

theorem isEmpty_of_isEmpty_erase {m : ByteMap Summary} {b : UInt8}
    (h : (m.erase b).isEmpty = false) : m.isEmpty = false := by
  rw [Bool.eq_false_iff] at h ⊢
  intro hempty
  refine h (ByteMap.isEmpty_iff.mpr fun c => ?_)
  rw [ByteMap.get?_erase, ByteMap.isEmpty_iff.mp hempty c, ite_self]

variable {e : Engine} {s : Store} {scope data : Bytes}

/-- **What is hashed for the answers** of a coherent engine is what is hashed for
the trie of its set. -/
theorem hashes_iff_hashed (h : e.Coherent s held) :
    e.Hashes s scope data ↔ Hashed held scope data := by
  have hchildren : ∀ {path info}, e.nodeInfo s path = .ok (some info) →
      info.children = (canonical held path).children := by
    intro path info hinfo
    rw [Engine.nodeInfo_of_coherent h] at hinfo
    exact (infoOf_eq_some (Except.ok.inj hinfo)).2.2
  have hshown : ∀ {path}, Occurs held path → ∃ info, e.nodeInfo s path = .ok (some info) ∧
      info.children = (canonical held path).children := by
    intro path hocc
    rw [Engine.nodeInfo_of_coherent h, infoOf_of_occurs (Or.inr hocc)]
    exact ⟨_, rfl, rfl⟩
  constructor
  · intro hdata
    cases hdata with
    | leaf hid =>
        rw [Engine.contains_of_coherent h] at hid
        exact .leaf (of_decide_eq_true (Except.ok.inj hid))
    | inner hinfo hsome =>
        rw [hchildren hinfo] at hsome ⊢
        obtain ⟨hlen, hocc⟩ := occurs_of_children hsome
        exact .inner hlen hocc
    | siblings hinfo hscope hsome =>
        rw [hchildren hinfo] at hsome ⊢
        exact .siblings hscope hsome
  · intro hdata
    cases hdata with
    | @leaf id hid =>
        refine .leaf ?_
        rw [Engine.contains_of_coherent h, decide_eq_true hid]
    | @inner path hlen hocc =>
        obtain ⟨info, hinfo, hsame⟩ := hshown hocc
        rw [← hsame]
        refine .inner hinfo ?_
        rw [hsame, canonical_of_lt held hlen]
        exact canonicalChildren_isEmpty_of_occurs hlen hocc
    | @siblings path b hscope hsome =>
        obtain ⟨info, hinfo, hsame⟩ := hshown (occurs_of_children (isEmpty_of_isEmpty_erase hsome)).2
        rw [← hsame] at hsome ⊢
        exact .siblings hinfo hscope hsome

end Shown

/-- The byte strings that are hashed for what two systems show. -/
def ShownByEither (near far : System) (scope : Bytes) (data : Bytes) : Prop :=
  near.engine.Hashes near.store scope data ∨ far.engine.Hashes far.store scope data

/-- Equal digests at one path mean equal sets below it, or a collision. -/
theorem agree_or_collision {near far : System} {A B : Finset Ident} (hA : near.Coherent A)
    (hB : far.Coherent B) (scope : Bytes) {path : Bytes}
    (hdigest : (canonical A path).digest = (canonical B path).digest) :
    AgreeUnder path A B ∨ Collision (ShownByEither near far scope) := by
  refine (collisionFree_or_collision (ShownByEither near far scope)).imp_left fun hfree => ?_
  exact agree_of_digest_eq hfree (fun x hx => Or.inl ((hashes_iff_hashed hA).mpr hx))
    (fun x hx => Or.inr ((hashes_iff_hashed hB).mpr hx)) hdigest

/-- **Equal digests bind the sets.**  Two engines have any histories from blank
namespaces, which leave the sets `A` and `B`.  Where both show a node at a path,
with the same digest, the two sets have the same members that start with it; or
two different strings among those hashed for the identifiers and the nodes that
the engines show have the same digest, or one of them the empty digest.  The
same holds of the whole sets and the digests of the roots. -/
theorem equal_digests_bind {config config' : EngineConfig} {sys sys' : System}
    (h : OpenedBlank config sys) (h' : OpenedBlank config' sys') (steps steps' : List Step) :
    let near := (sys.run steps).2
    let far := (sys'.run steps').2
    let A := setLeft ∅ (sys.run steps).1
    let B := setLeft ∅ (sys'.run steps').1
    (∀ path info info', near.engine.nodeInfo near.store path = .ok (some info) →
        far.engine.nodeInfo far.store path = .ok (some info') → info.digest = info'.digest →
          (∀ id : Ident, path <+: id.bytes → (id ∈ A ↔ id ∈ B)) ∨
            Collision (ShownByEither near far [])) ∧
      (near.engine.rootDigest = far.engine.rootDigest →
        A = B ∨ Collision (ShownByEither near far [])) := by
  intro near far A B
  have hA : near.Coherent A := (run_of_opened h steps).1
  have hB : far.Coherent B := (run_of_opened h' steps').1
  constructor
  · intro path info info' hinfo hinfo' hdigest
    rw [Engine.nodeInfo_of_coherent hA] at hinfo
    rw [Engine.nodeInfo_of_coherent hB] at hinfo'
    rw [(infoOf_eq_some (Except.ok.inj hinfo)).2.1,
      (infoOf_eq_some (Except.ok.inj hinfo')).2.1] at hdigest
    exact agree_or_collision hA hB [] hdigest
  · intro hdigest
    rw [Engine.rootDigest, Engine.rootDigest, hA.view.root_eq, hB.view.root_eq] at hdigest
    refine (agree_or_collision hA hB [] hdigest).imp_left fun hagree => ?_
    ext id
    exact hagree id List.nil_prefix

/-- The node of one identifier, in a trie of it alone and in one with another
identifier elsewhere. -/
theorem equal_digests_bind_below_first_byte :
    let near := ((System.blank {}).run (reliably [.insert (constantIdent 0)])).2
    let far := ((System.blank { ns := 255 }).run
      (reliably [.insert (constantIdent 7), .insert (constantIdent 0)])).2
    ∃ info info', near.engine.nodeInfo near.store [0] = .ok (some info) ∧
      far.engine.nodeInfo far.store [0] = .ok (some info') ∧ info.digest = info'.digest ∧
        ((∀ id : Ident, [0] <+: id.bytes → (id ∈ ({constantIdent 0} : Finset Ident) ↔
            id ∈ ({constantIdent 0, constantIdent 7} : Finset Ident))) ∨
          Collision (ShownByEither near far [])) := by
  intro near far
  have hnear : OpenedBlank {} (System.blank {}) := openedBlank_blank {}
  have hfar : OpenedBlank { ns := 255 } (System.blank { ns := 255 }) := openedBlank_blank _
  have hA : setLeft ∅ ((System.blank {}).run (reliably [.insert (constantIdent 0)])).1 =
      {constantIdent 0} := by
    rw [System.setLeft_reliably (coherent_of_opened hnear).1]
    decide
  have hB : setLeft ∅ ((System.blank { ns := 255 }).run
      (reliably [.insert (constantIdent 7), .insert (constantIdent 0)])).1 =
      {constantIdent 0, constantIdent 7} := by
    rw [System.setLeft_reliably (coherent_of_opened hfar).1]
    decide
  have hbind := equal_digests_bind hnear hfar (reliably [.insert (constantIdent 0)])
    (reliably [.insert (constantIdent 7), .insert (constantIdent 0)])
  have hcoherent : near.Coherent {constantIdent 0} :=
    System.reliably_coherent (coherent_of_opened hnear).1 [.insert (constantIdent 0)]
  have hcoherent' : far.Coherent {constantIdent 0, constantIdent 7} :=
    System.reliably_coherent (coherent_of_opened hfar).1
      [.insert (constantIdent 7), .insert (constantIdent 0)]
  rw [hA, hB] at hbind
  have hinfo := Engine.nodeInfo_of_coherent hcoherent [0]
  have hinfo' := Engine.nodeInfo_of_coherent hcoherent' [0]
  rw [infoOf_of_occurs (Or.inr (by decide))] at hinfo hinfo'
  have hsame : canonical {constantIdent 0} [0] =
      canonical {constantIdent 0, constantIdent 7} [0] := by
    refine canonical_congr [0] fun id hid => ?_
    have hne : id ≠ constantIdent 7 := by
      rintro rfl
      exact absurd hid (by decide)
    simp [hne]
  have hdigest := congrArg Record.digest hsame
  exact ⟨_, _, hinfo, hinfo', hdigest, hbind.1 [0] _ _ hinfo hinfo' hdigest⟩

end MerkleSync
