import Geth.Mpt.Trie
import Geth.Mpt.Verify.Codec

/-!
# Which tree a live node stands for

Parts of a live trie are loaded, parts are only there as hashes. `Rep` says that a live node stands
for a tree: below a hash node everything is in the database, cached hashes are the hashes of the
tree, and a node without the dirty flag is in the database with all that is below it. The root is
special because it has a hash however small it is.
-/

namespace Geth.Mpt

open Lib Rlp

/-- The encodings `E` a run deals with: the hash has no collision on them, none of them has the zero
hash, which the database reserves, and their lengths are machine integers. -/
structure HashOn (keccak : Bytes → Hash) (E : Set Bytes) : Prop where
  inj : Set.InjOn keccak E
  ne_zero : ∀ b ∈ E, keccak b ≠ Hash.zero
  small : ∀ b ∈ E, b.length < 2 ^ 63

/-! ## The database -/

namespace Database

/-- The blob the database has for a hash. -/
def blob (db : Database) (h : Hash) : Option Bytes :=
  match db.nodes.lookup h with
  | some n => some n.rlp
  | none => db.diskdb h

/-- The database has only blobs from `E`, each under its hash, and nodes of canonical trees. -/
structure Sound (keccak : Bytes → Hash) (E : Set Bytes) (db : Database) : Prop where
  blob : ∀ {h b}, db.blob h = some b → keccak b = h ∧ b ∈ E
  node : ∀ {h n}, db.nodes.lookup h = some (.node n) → ∃ t, CanonTree t ∧ n = collapse keccak t

/-- No blob is lost. -/
def Keeps (db db' : Database) : Prop :=
  ∀ ⦃h b⦄, db.blob h = some b → db'.blob h = some b

theorem Keeps.refl (db : Database) : db.Keeps db := fun _ _ h => h

theorem Keeps.trans {db db' db'' : Database} (h : db.Keeps db') (h' : db'.Keeps db'') :
    db.Keeps db'' := fun _ _ hb => h' (h hb)

end Database

section

variable (keccak : Bytes → Hash)

/-- The database has the encoding of the tree. -/
def Holds (db : Database) (t : Tree) : Prop :=
  db.blob (keccak (encTree keccak t)) = some (encTree keccak t)

/-- A parent refers to the tree by its hash. -/
def ByHash (t : Tree) : Prop :=
  ref keccak (collapse keccak t) = .hash (keccak (encTree keccak t))

/-- The database has everything below the tree. -/
def Below (db : Database) : Tree → Prop
  | .nil => True
  | .value _ => True
  | .short _ t => (ByHash keccak t → Holds keccak db t) ∧ Below db t
  | .full ts => ∀ i, (ByHash keccak (ts i) → Holds keccak db (ts i)) ∧ Below db (ts i)

/-- The database has the tree. -/
def Stored (db : Database) (root : Bool) (t : Tree) : Prop :=
  (root = true ∨ ByHash keccak t → Holds keccak db t) ∧ Below keccak db t

/-- What the flags of a node say about its tree is true. -/
structure Coherent (db : Database) (root : Bool) (t : Tree) (flags : NodeFlag) : Prop where
  hash : ∀ h, flags.hash = some h → h = keccak (encTree keccak t) ∧ (root = true ∨ ByHash keccak t)
  clean : flags.dirty = false → Stored keccak db root t

/-- The live node stands for the tree. -/
inductive Rep (db : Database) : Bool → LiveNode → Tree → Prop
  | nil {root : Bool} : Rep db root .nil .nil
  | value {root : Bool} {v : Bytes} : Rep db root (.value v) (.value v)
  | hash {root : Bool} {t : Tree} (hc : CanonTree t) (hs : Stored keccak db root t)
      (hr : root = true ∨ ByHash keccak t) : Rep db root (.hash (keccak (encTree keccak t))) t
  | short {root : Bool} {key : Hex} {n : LiveNode} {t : Tree} {flags : NodeFlag}
      (hn : Rep db false n t) (hf : Coherent keccak db root (.short key t) flags) :
      Rep db root (.short key n flags) (.short key t)
  | full {root : Bool} {ns : Fin 17 → LiveNode} {ts : Fin 17 → Tree} {flags : NodeFlag}
      (hn : ∀ i, Rep db false (ns i) (ts i)) (hf : Coherent keccak db root (.full ts) flags) :
      Rep db root (.full ns flags) (.full ts)

variable {keccak} {E : Set Bytes} {db db' : Database}

/-! ## References by hash -/

variable {t : Tree} {root : Bool} {n : LiveNode}

theorem byHash_iff (h : CanonTree t) : ByHash keccak t ↔ ¬ (encTree keccak t).length < 32 := by
  rw [ByHash, ref_of_canon h]
  split
  · next hsmall =>
    refine iff_of_false ?_ (not_not_intro hsmall)
    cases h <;> rw [collapse] <;> rintro ⟨⟩
  · next hbig => exact iff_of_true rfl hbig

theorem not_byHash_nil : ¬ ByHash keccak .nil := by
  simp [ByHash, collapse, ref]

theorem not_byHash_value (v : Bytes) : ¬ ByHash keccak (.value v) := by
  simp [ByHash, collapse, ref]

theorem stored_nil : Stored keccak db false .nil :=
  ⟨fun h => (h.resolve_left Bool.false_ne_true |> not_byHash_nil).elim, trivial⟩

theorem stored_value (v : Bytes) : Stored keccak db false (.value v) :=
  ⟨fun h => (h.resolve_left Bool.false_ne_true |> not_byHash_value v).elim, trivial⟩

theorem below_short {key : Hex} : Below keccak db (.short key t) ↔ Stored keccak db false t := by
  simp [Below, Stored]

theorem below_full {ts : Fin 17 → Tree} :
    Below keccak db (.full ts) ↔ ∀ i, Stored keccak db false (ts i) := by
  simp [Below, Stored]

/-! ## A growing database -/

theorem Holds.mono (hk : db.Keeps db') (h : Holds keccak db t) : Holds keccak db' t :=
  hk h

theorem Below.mono (hk : db.Keeps db') (h : Below keccak db t) :
    Below keccak db' t := by
  induction t with
  | nil => trivial
  | value v => trivial
  | short key t ih => exact ⟨fun hb => (h.1 hb).mono hk, ih h.2⟩
  | full ts ih => exact fun i => ⟨fun hb => ((h i).1 hb).mono hk, ih i (h i).2⟩

theorem Stored.mono (hk : db.Keeps db') (h : Stored keccak db root t) : Stored keccak db' root t :=
  ⟨fun hr => (h.1 hr).mono hk, h.2.mono hk⟩

theorem Coherent.mono {flags : NodeFlag} (hk : db.Keeps db') (h : Coherent keccak db root t flags) :
    Coherent keccak db' root t flags :=
  ⟨h.hash, fun hd => (h.clean hd).mono hk⟩

theorem Rep.mono (hk : db.Keeps db') (h : Rep keccak db root n t) : Rep keccak db' root n t := by
  induction h with
  | nil => exact .nil
  | value => exact .value
  | hash hc hs hr => exact .hash hc (hs.mono hk) hr
  | short hn hf ih => exact .short ih (hf.mono hk)
  | full hn hf ih => exact .full ih (hf.mono hk)

/-! ## Live nodes -/

theorem Trie.coherent_newFlag (tr : Trie) (root : Bool) (t : Tree) :
    Coherent keccak db root t tr.newFlag :=
  ⟨nofun, nofun⟩

theorem Coherent.withGen {flags : NodeFlag} (h : Coherent keccak db root t flags) (gen : UInt16) :
    Coherent keccak db root t { flags with gen := gen } :=
  ⟨h.hash, h.clean⟩

theorem Rep.isNil_iff (h : Rep keccak db root n t) : n.isNil = true ↔ t = .nil := by
  cases h with
  | nil => exact iff_of_true rfl rfl
  | value => exact iff_of_false Bool.false_ne_true nofun
  | hash hc hs hr => exact iff_of_false Bool.false_ne_true hc.ne_nil
  | short hn hf => exact iff_of_false Bool.false_ne_true nofun
  | full hn hf => exact iff_of_false Bool.false_ne_true nofun

theorem Rep.eq_nil (h : Rep keccak db root n .nil) : n = .nil := by
  cases h with
  | nil => rfl
  | hash hc hs hr => cases hc

theorem Rep.eq_value {v : Bytes} (h : Rep keccak db root n (.value v)) : n = .value v := by
  cases h with
  | value => rfl
  | hash hc hs hr => cases hc

theorem Rep.loadedRef (hc : CanonTree t) (hs : Stored keccak db false t)
    (hn : Rep keccak db false n t) :
    Rep keccak db false (loadedRef keccak t n) t := by
  rw [loadedRef_of_canon hc]
  split
  · exact hn
  · next hbig => exact .hash hc hs (.inr ((byHash_iff hc).mpr hbig))

theorem Rep.loaded (gen : UInt16) (hc : CanonTree t) :
    ∀ (root : Bool) (hash : Option Hash), Stored keccak db root t →
      (∀ h, hash = some h → h = keccak (encTree keccak t) ∧ (root = true ∨ ByHash keccak t)) →
      Rep keccak db root (loaded keccak gen hash t) t := by
  induction hc with
  | @leaf key v hkey hne hv =>
    intro root hash hs hh
    exact .short .value ⟨hh, fun _ => hs⟩
  | @ext key ts hkey hne hts ih =>
    intro root hash hs hh
    have hchild := below_short.mp hs.2
    exact .short (.loadedRef hts hchild (ih false none hchild nofun)) ⟨hh, fun _ => hs⟩
  | @branch ts hts hval htwo ih =>
    intro root hash hs hh
    refine .full (fun i => ?_) ⟨hh, fun _ => hs⟩
    have hchild := below_full.mp hs.2 i
    by_cases hne : ts i = .nil
    · rw [hne, Mpt.loaded]
      exact .nil
    · by_cases hi : i = 16
      · subst hi
        obtain ⟨v, -, hv⟩ := hval hne
        rw [hv, Mpt.loaded]
        exact .value
      · exact .loadedRef (hts i hi hne) hchild (ih i hi hne false none hchild nofun)

/-! ## Resolving hash nodes -/

theorem Database.Sound.holds_mem (hdb : db.Sound keccak E) (h : Holds keccak db t) :
    encTree keccak t ∈ E :=
  (hdb.blob h).2

theorem Database.Sound.node_eq (hE : HashOn keccak E) (hdb : db.Sound keccak E) (hc : CanonTree t)
    (h : Holds keccak db t) (gen : UInt16) :
    db.node (keccak (encTree keccak t)) gen =
      some (some (loaded keccak gen (some (keccak (encTree keccak t))) t)) := by
  have hmem := hdb.holds_mem h
  have hsmall := hE.small _ hmem
  have hdec : ∀ hash, mustDecodeNode hash (encTree keccak t) gen =
      some (loaded keccak gen hash t) := by
    intro hash
    exact mustDecodeNode_encTree gen hc hash (by omega)
  rw [Database.node, if_neg (hE.ne_zero _ hmem)]
  rw [Holds, Database.blob] at h
  cases hn : db.nodes.lookup (keccak (encTree keccak t)) with
  | none =>
    rw [hn] at h
    simp [h, hdec]
  | some n =>
    rw [hn] at h
    simp only [Option.some.injEq] at h ⊢
    cases n with
    | raw blob =>
      rw [CachedNode.rlp] at h
      rw [h, CachedNode.obj, hdec]
    | node n =>
      obtain ⟨t', hc', rfl⟩ := hdb.node hn
      rw [CachedNode.rlp] at h
      rw [CachedNode.obj, expandNode_collapse gen hc', ← hdec, ← h]
      -- The node in memory may come from another tree with the same encoding.
      refine (mustDecodeNode_encTree gen hc' _ ?_).symm
      rw [encTree, h]
      omega

theorem Trie.resolveHash_rep {tr : Trie} (hE : HashOn keccak E) (hdb : tr.db.Sound keccak E)
    (hc : CanonTree t) (hs : Stored keccak tr.db root t) (hr : root = true ∨ ByHash keccak t)
    (path : Hex) :
    ∃ n, tr.resolveHash (keccak (encTree keccak t)) path = .ok n ∧
      Rep keccak tr.db root n t ∧ ∀ h, n ≠ .hash h := by
  refine ⟨_, ?_, .loaded tr.cachegen hc root (some (keccak (encTree keccak t))) hs ?_, ?_⟩
  · rw [resolveHash, hdb.node_eq hE hc (hs.1 hr)]
  · intro h hh
    exact ⟨(Option.some.inj hh).symm, hr⟩
  · intro h
    cases hc <;> rw [loaded] <;> rintro ⟨⟩

end

end Geth.Mpt
