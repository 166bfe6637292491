import Geth.Mpt.Verify.Expand

/-!
# The encoding of a tree and its way back

A trie with all nodes loaded is a radix tree over nibbles. `collapse` is its canonical
Merkle-Patricia form: keys compact, and every subtree whose encoding has at least 32 bytes replaced
by the hash of it. Both ways a node leaves the database, expanding the collapsed node and decoding
its blob, give the same live node (`loaded`).
-/

namespace Geth.Mpt

open Lib Rlp

/-- A trie with all its nodes loaded. -/
abbrev Tree := RadixTree Nibble Bytes

/-- The canonical form of a trie that is not empty, with no empty values. -/
abbrev CanonTree (t : Tree) : Prop := RadixTree.Canon 16 (· ≠ []) t

section

variable (keccak : Bytes → Hash)

/-- How a parent refers to a collapsed node: by its hash, unless it is smaller than one. -/
def ref (n : RawNode) : RawNode :=
  match n with
  | .short .. | .full .. => if n.blob.length < 32 then n else .hash (keccak n.blob)
  | n => n

/-- The collapsed node of a tree. -/
def collapse : Tree → RawNode
  | .nil => .nil
  | .value v => .value v
  | .short key t => .short (hexToCompact key) (ref keccak (collapse t)) ()
  | .full ts => .full (fun i => ref keccak (collapse (ts i))) ()

/-- The encoding of a tree. -/
def encTree (t : Tree) : Bytes :=
  (collapse keccak t).blob

/-- The live node for a reference to the tree `t`, which is `n` when `t` is embedded. -/
def loadedRef (t : Tree) (n : LiveNode) : LiveNode :=
  match ref keccak (collapse keccak t) with
  | .hash h => .hash h
  | _ => n

/-- The live node that comes out of the database for a tree. -/
def loaded (cachegen : UInt16) (hash : Option Hash) : Tree → LiveNode
  | .nil => .nil
  | .value v => .value v
  | .short key t => .short key (loadedRef keccak t (loaded cachegen none t)) ⟨hash, cachegen, false⟩
  | .full ts =>
    .full (fun i => loadedRef keccak (ts i) (loaded cachegen none (ts i))) ⟨hash, cachegen, false⟩

variable {keccak}

variable {t : Tree}

theorem ref_of_canon (h : CanonTree t) : ref keccak (collapse keccak t) =
      if (encTree keccak t).length < 32 then collapse keccak t
      else .hash (keccak (encTree keccak t)) := by
  cases h <;> rw [encTree, collapse] <;> rfl

theorem loadedRef_of_canon (h : CanonTree t) (n : LiveNode) : loadedRef keccak t n =
      if (encTree keccak t).length < 32 then n else .hash (keccak (encTree keccak t)) := by
  unfold loadedRef
  rw [ref_of_canon h]
  by_cases hsmall : (encTree keccak t).length < 32
  · rw [if_pos hsmall, if_pos hsmall]
    cases h <;> rw [collapse]
  · rw [if_neg hsmall, if_neg hsmall]

theorem ref_isNil (n : RawNode) : (ref keccak n).isNil = n.isNil := by
  cases n with
  | nil => rfl
  | value v => rfl
  | hash h => rfl
  | short key val flags =>
    simp only [ref]
    split <;> rfl
  | full children flags =>
    simp only [ref]
    split <;> rfl

theorem collapse_isNil : (ref keccak (collapse keccak t)).isNil = true ↔ t = .nil := by
  rw [ref_isNil]
  cases t <;> simp [collapse, Node.isNil]

/-! ## The way back -/

theorem inlined_ref (hc : CanonTree t) : Inlined (ref keccak (collapse keccak t)) := by
  rw [ref_of_canon hc]
  split
  · next hsmall => exact .inr hsmall
  · exact .inl ⟨_, rfl⟩

/-- A reference stands for the live node for it, if what it refers to does. -/
theorem expands_ref {gen : UInt16} (hc : CanonTree t)
    (h : Expands gen none (collapse keccak t) (loaded keccak gen none t)) :
    Expands gen none (ref keccak (collapse keccak t))
      (loadedRef keccak t (loaded keccak gen none t)) := by
  rw [ref_of_canon hc, loadedRef_of_canon hc]
  split
  · exact h
  · exact .hash _

theorem ref_ne_nil (hc : CanonTree t) : ref keccak (collapse keccak t) ≠ .nil :=
  fun h => hc.ne_nil (collapse_isNil.1 (isNil_eq_true.2 h))

theorem expands_collapse (gen : UInt16) (hc : CanonTree t) (hash : Option Hash) :
    Expands gen hash (collapse keccak t) (loaded keccak gen hash t) := by
  induction hc generalizing hash with
  | @leaf key v hkey hne hv =>
    rw [collapse, loaded]
    exact .leaf hkey hne
  | @ext key ts hkey hne hts ih =>
    rw [collapse, loaded]
    exact .ext hkey (expands_ref hts (ih none)) (ref_ne_nil hts) (inlined_ref hts)
  | @branch ts hts hval htwo ih =>
    rw [collapse, loaded]
    refine .full (fun i hi => ?_) (fun i hi => ?_) ?_
    · by_cases hne : ts i = .nil
      · rw [hne]
        simp only [collapse, ref, loadedRef, loaded]
        exact .nil
      · exact expands_ref (hts i hi hne) (ih i hi hne none)
    · by_cases hne : ts i = .nil
      · rw [hne]
        exact inlined_nil
      · exact inlined_ref (hts i hi hne)
    · by_cases hne : ts 16 = .nil
      · rw [hne]
        exact .inl ⟨rfl, rfl⟩
      · obtain ⟨v, hv, heq⟩ := hval hne
        rw [heq]
        exact .inr ⟨v, hv, rfl, rfl⟩

theorem expandNode_collapse (gen : UInt16) (hc : CanonTree t) (hash : Option Hash) :
    expandNode gen hash (collapse keccak t) = some (loaded keccak gen hash t) :=
  (expands_collapse gen hc hash).expandNode (by cases hc <;> rw [collapse] <;> nofun)

theorem mustDecodeNode_encTree (gen : UInt16) (hc : CanonTree t) (hash : Option Hash)
    (hlen : (encTree keccak t).length < 2 ^ 64) :
    mustDecodeNode hash (encTree keccak t) gen = some (loaded keccak gen hash t) := by
  have hstands : (collapse keccak t).Stands := by cases hc <;> rw [collapse] <;> trivial
  rw [mustDecodeNode, encTree, (expands_collapse gen hc hash).decodeNode hstands hlen]

end

end Geth.Mpt
