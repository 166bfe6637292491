import Geth.Mpt.Verify.Hash
import Geth.Mpt.Verify.Update

/-!
# Runs of a trie

A run is a sequence of calls on one trie, with whatever else happens to its database in between. The
invariant of a run is that the root stands for a canonical tree that stores the map the calls have
built, and every call keeps it.
-/

namespace Geth.Mpt

open Lib Rlp Function List

/-- A call on a trie, or a change of its database by others. -/
inductive Op where
  | update (key value : Bytes)
  | delete (key : Bytes)
  | get (key : Bytes)
  | hash
  | commit
  | setCacheLimit (l : UInt16)
  | database (db : Database)

/-- The map after a call. An empty value deletes. -/
def Op.apply (m : Bytes → Option Bytes) : Op → Bytes → Option Bytes
  | .update key value => Function.update m key (if value = [] then none else some value)
  | .delete key => Function.update m key none
  | _ => m

/-- The map that a sequence of calls builds from the empty one. -/
def contents (ops : List Op) : Bytes → Option Bytes :=
  ops.foldl Op.apply fun _ => none

namespace Trie

variable (keccak : Bytes → Hash)

/-- The trie after a call. -/
def step (tr : Trie) : Op → Except TrieErr Trie
  | .update key value => tr.tryUpdate key value
  | .delete key => tr.tryDelete key
  | .get key => (tr.tryGetKey key).map Prod.snd
  | .hash => match tr.hash keccak with
    | some (_, tr) => .ok tr
    | none => .error .panic
  | .commit => match tr.commit keccak with
    | some (_, tr) => .ok tr
    | none => .error .panic
  | .setCacheLimit l => .ok (tr.setCacheLimit l)
  | .database db => .ok { tr with db := db }

/-- The calls of a run, one after another. -/
def run (tr : Trie) : List Op → Except TrieErr Trie
  | [] => .ok tr
  | op :: ops => match tr.step keccak op with
    | .ok tr => tr.run ops
    | .error err => .error err

/-- The assumptions on a call: what it writes is among the encodings `E`, and a database never loses
a node. -/
def Admits (E : Set Bytes) (tr : Trie) : Op → Prop
  | .commit => ∀ i ∈ tr.commitInserts keccak, i.node.blob ∈ E
  | .database db => tr.db.Keeps db ∧ db.Sound keccak E
  | _ => True

/-- The assumptions on a run. -/
def Admissible (E : Set Bytes) (tr : Trie) : List Op → Prop
  | [] => True
  | op :: ops => tr.Admits keccak E op ∧ match tr.step keccak op with
    | .ok tr => tr.Admissible E ops
    | .error _ => True

/-- `Admits` as a check, for finitely many encodings and a trie that has the database to itself. -/
def checkAdmits (L : List Bytes) (tr : Trie) : Op → Bool
  | .commit => (tr.commitInserts keccak).all fun i => i.node.blob ∈ L
  | .database _ => false
  | _ => true

/-- `Admissible` as a check. -/
def checkAdmissible (L : List Bytes) (tr : Trie) : List Op → Bool
  | [] => true
  | op :: ops => tr.checkAdmits keccak L op && match tr.step keccak op with
    | .ok tr => tr.checkAdmissible L ops
    | .error _ => true

variable {keccak} in
theorem admissible_of_check {L : List Bytes} {ops : List Op} :
    ∀ {tr : Trie}, tr.checkAdmissible keccak L ops = true →
      tr.Admissible keccak { b | b ∈ L } ops := by
  induction ops with
  | nil =>
    intro tr _
    trivial
  | cons op ops ih =>
    intro tr h
    rw [checkAdmissible, Bool.and_eq_true] at h
    refine ⟨?_, ?_⟩
    · cases op with
      | commit => simpa [Admits, checkAdmits] using h.1
      | database db => cases h.1
      | _ => trivial
    · have hrest := h.2
      cases hs : tr.step keccak op with
      | ok tr' =>
        rw [hs] at hrest
        exact ih hrest
      | error err => trivial

end Trie

section

variable {keccak : Bytes → Hash} {E : Set Bytes} {db : Database}

/-! ## Writing to the database -/

theorem Database.Sound.insert (hE : HashOn keccak E) (hdb : db.Sound keccak E) {t : Tree}
    (hc : CanonTree t) (hmem : encTree keccak t ∈ E) :
    (db.insert (keccak (encTree keccak t)) (.node (collapse keccak t))).Sound keccak E ∧
      db.Keeps (db.insert (keccak (encTree keccak t)) (.node (collapse keccak t))) ∧
      Holds keccak (db.insert (keccak (encTree keccak t)) (.node (collapse keccak t))) t := by
  -- Whatever the database has under the hash of the tree is the encoding of the tree.
  have hold : ∀ {b}, db.blob (keccak (encTree keccak t)) = some b → b = encTree keccak t := by
    intro b hb
    obtain ⟨hk, hbE⟩ := hdb.blob hb
    exact hE.inj hbE hmem hk
  rw [Database.insert]
  split
  · next hskip =>
    refine ⟨hdb, .refl db, ?_⟩
    rcases hskip with hzero | hthere
    · exact absurd hzero (hE.ne_zero _ hmem)
    · obtain ⟨n, hn⟩ := Option.isSome_iff_exists.mp hthere
      have hb : db.blob (keccak (encTree keccak t)) = some n.rlp := by rw [Database.blob, hn]
      rw [Holds, hb, hold hb]
  · set db' : Database :=
      { db with nodes := (keccak (encTree keccak t), .node (collapse keccak t)) :: db.nodes }
    have hsame : ∀ {h}, h ≠ keccak (encTree keccak t) → db'.nodes.lookup h = db.nodes.lookup h := by
      intro h hne
      rw [lookup_cons, beq_eq_false_iff_ne.mpr hne]
    have hself : db'.nodes.lookup (keccak (encTree keccak t)) =
        some (.node (collapse keccak t)) := by
      rw [lookup_cons, beq_self_eq_true]
    have hblob : ∀ {h}, h ≠ keccak (encTree keccak t) → db'.blob h = db.blob h := by
      intro h hne
      rw [Database.blob, hsame hne, Database.blob]
    have hholds : Holds keccak db' t := by
      rw [Holds, Database.blob, hself]
      rfl
    refine ⟨⟨?_, ?_⟩, ?_, hholds⟩
    · intro h b hb
      by_cases hh : h = keccak (encTree keccak t)
      · subst hh
        rw [hholds] at hb
        cases hb
        exact ⟨rfl, hmem⟩
      · rw [hblob hh] at hb
        exact hdb.blob hb
    · intro h n hn
      by_cases hh : h = keccak (encTree keccak t)
      · subst hh
        rw [hself] at hn
        cases hn
        exact ⟨t, hc, rfl⟩
      · rw [hsame hh] at hn
        exact hdb.node hn
    · intro h b hb
      by_cases hh : h = keccak (encTree keccak t)
      · subst hh
        rw [hold hb]
        exact hholds
      · rwa [hblob hh]

theorem Database.Sound.insertAll (hE : HashOn keccak E) (ins : List Insert) :
    ∀ {db : Database}, db.Sound keccak E → (∀ i ∈ ins, i.Authentic keccak) →
      (∀ i ∈ ins, i.node.blob ∈ E) →
      (db.insertAll ins).Sound keccak E ∧ db.Keeps (db.insertAll ins) ∧
        Held (db.insertAll ins) ins := by
  induction ins with
  | nil =>
    intro db hdb _ _
    exact ⟨hdb, .refl db, nofun⟩
  | cons i ins ih =>
    intro db hdb hauth hmem
    obtain ⟨t, hc, hhash, hnode⟩ := hauth i mem_cons_self
    have hblob : i.node.blob = encTree keccak t := by
      rw [← simplifyNode_blob, hnode, encTree]
    have hE' := hmem i mem_cons_self
    rw [hblob] at hE'
    obtain ⟨hsound, hkeeps, hholds⟩ := hdb.insert hE hc hE'
    obtain ⟨hsound', hkeeps', hheld⟩ := ih hsound (fun j hj => hauth j (mem_cons_of_mem _ hj))
      (fun j hj => hmem j (mem_cons_of_mem _ hj))
    have hcons : db.insertAll (i :: ins) =
        (db.insert (keccak (encTree keccak t)) (.node (collapse keccak t))).insertAll ins := by
      rw [Database.insertAll, foldl_cons, hhash, hnode]
      rfl
    rw [hcons]
    refine ⟨hsound', hkeeps.trans hkeeps', fun j hj => ?_⟩
    rcases mem_cons.mp hj with rfl | hj
    · rw [hhash, hblob]
      exact hkeeps' hholds
    · exact hheld j hj

/-! ## The invariant -/

/-- The tree is canonical and stores the map, and nothing but keys of bytes. -/
structure Stores (t : Tree) (m : Bytes → Option Bytes) : Prop where
  canon : t ≠ .nil → CanonTree t
  lookup : ∀ key, t.lookup (keybytesToHex key) = m key
  only : ∀ x, t.lookup x ≠ none → ∃ key, x = keybytesToHex key

theorem stores_nil : Stores .nil fun _ => none :=
  ⟨fun h => absurd rfl h, fun _ => RadixTree.lookup_nil _,
    fun x h => absurd (RadixTree.lookup_nil x) h⟩

variable {m : Bytes → Option Bytes}

theorem Stores.slot {t : Tree} (h : Stores t m) (key : Bytes) :
    SlotTree (keybytesToHex key) t := by
  intro hne
  rw [if_neg (keybytesToHex_ne_nil key)]
  exact h.canon hne

theorem Stores.unique {t t' : Tree} (h : Stores t m)
    (h' : Stores t' m) : t = t' := by
  have hle : ∀ {t t' : Tree}, Stores t m → Stores t' m → ∀ {x}, t.lookup x ≠ none →
      t.lookup x = t'.lookup x := by
    intro t t' h h' x hx
    obtain ⟨key, rfl⟩ := h.only x hx
    rw [h.lookup, h'.lookup]
  have heq : ∀ x, t.lookup x = t'.lookup x := by
    intro x
    by_cases hx : t.lookup x = none
    · by_contra hne
      exact hne (hle h' h fun hx' => hne (hx.trans hx'.symm)).symm
    · exact hle h h' hx
  by_cases hnil : t = .nil
  · by_contra hne
    obtain ⟨x, hx⟩ := (h'.canon fun h => hne (hnil.trans h.symm)).exists_lookup
    rw [← heq, hnil, RadixTree.lookup_nil] at hx
    exact hx rfl
  · by_cases hnil' : t' = .nil
    · obtain ⟨x, hx⟩ := (h.canon hnil).exists_lookup
      rw [heq, hnil', RadixTree.lookup_nil] at hx
      exact absurd rfl hx
    · exact (h.canon hnil).unique (h'.canon hnil') heq

theorem Stores.nil_iff {t : Tree} (h : Stores t m) :
    t = .nil ↔ ∀ key, m key = none := by
  constructor
  · rintro rfl key
    rw [← h.lookup, RadixTree.lookup_nil]
  · intro hm
    have : m = fun _ => none := funext hm
    subst this
    exact h.unique stores_nil

theorem Stores.update {t t' : Tree} {key : Bytes} {o : Option Bytes}
    (h : Stores t m) (hs : SetsTree (keybytesToHex key) o t t') :
    Stores t' (update m key o) := by
  refine ⟨fun hne => hs.slot.canon (keybytesToHex_ne_nil key) hne, fun k => ?_, fun x hx => ?_⟩
  · rw [hs.lookup, update_apply, h.lookup]
    simp [keybytesToHex_inj]
  · rw [hs.lookup] at hx
    split at hx
    · next hk => exact ⟨key, hk⟩
    · exact h.only x hx

/-- The trie stands for the map. -/
structure Inv (keccak : Bytes → Hash) (E : Set Bytes) (tr : Trie) (m : Bytes → Option Bytes) :
    Prop where
  sound : tr.db.Sound keccak E
  tree : ∃ t, Rep keccak tr.db true tr.root t ∧ Stores t m

theorem Inv.of_empty {tr : Trie} (hdb : tr.db.Sound keccak E) (hroot : tr.root = .nil) :
    Inv keccak E tr fun _ => none :=
  ⟨hdb, .nil, by rw [hroot]; exact .nil, stores_nil⟩

theorem stepsFor_le_fuelFor (n : LiveNode) (key : Hex) : stepsFor n key ≤ Trie.fuelFor key :=
  stepsFor_le n key

variable {tr : Trie} {m : Bytes → Option Bytes}

theorem Inv.tryGetKey (hE : HashOn keccak E) (h : Inv keccak E tr m) (key : Bytes) :
    ∃ tr', tr.tryGetKey key = .ok (m key, tr') ∧ Inv keccak E tr' m := by
  obtain ⟨t, hrep, hst⟩ := h.tree
  obtain ⟨n', d, hget, hn'⟩ := Trie.tryGet_rep hE h.sound _ [] hrep (hst.slot key)
    (terminated_keybytesToHex key) (stepsFor_le_fuelFor _ _)
  rw [hst.lookup] at hget
  rw [Trie.tryGetKey]
  simp only [hget]
  cases d with
  | true => exact ⟨_, rfl, h.sound, t, hn', hst⟩
  | false => exact ⟨_, rfl, h⟩

theorem Inv.tryDelete (hE : HashOn keccak E) (h : Inv keccak E tr m) (key : Bytes) :
    ∃ tr', tr.tryDelete key = .ok tr' ∧ Inv keccak E tr' (update m key none) := by
  obtain ⟨t, hrep, hst⟩ := h.tree
  obtain ⟨d, n', t', hdel, hn', hsets, -, -⟩ := Trie.delete_rep hE h.sound _ [] hrep
    (hst.slot key) (terminated_keybytesToHex key) (stepsFor_le_fuelFor _ _)
  rw [Trie.tryDelete]
  simp only [hdel]
  exact ⟨_, rfl, h.sound, t', hn', hst.update hsets⟩

theorem Inv.tryUpdate (hE : HashOn keccak E) (h : Inv keccak E tr m) (key value : Bytes) :
    ∃ tr', tr.tryUpdate key value = .ok tr' ∧
      Inv keccak E tr' (update m key (if value = [] then none else some value)) := by
  rw [Trie.tryUpdate]
  by_cases hv : value = []
  · subst hv
    exact h.tryDelete hE key
  · obtain ⟨t, hrep, hst⟩ := h.tree
    obtain ⟨d, n', t', hins, hn', hsets, -⟩ := Trie.insert_rep hE h.sound hv _ [] hrep
      (hst.slot key) (terminated_keybytesToHex key) (stepsFor_le_fuelFor _ _)
    rw [if_pos (by simpa using hv), if_neg hv]
    simp only [hins]
    exact ⟨_, rfl, h.sound, t', hn', hst.update hsets⟩

/-- The root hash of a map: that of the encoding of its canonical tree. -/
def IsRoot (keccak : Bytes → Hash) (m : Bytes → Option Bytes) (h : Hash) : Prop :=
  ((∀ key, m key = none) ∧ h = emptyRoot) ∨
    ∃ t, t ≠ .nil ∧ Stores t m ∧ h = keccak (encTree keccak t)

theorem IsRoot.unique {h h' : Hash} (hr : IsRoot keccak m h) (hr' : IsRoot keccak m h') :
    h = h' := by
  rcases hr with ⟨hm, rfl⟩ | ⟨t, hne, hst, rfl⟩
  · rcases hr' with ⟨-, rfl⟩ | ⟨t', hne', hst', rfl⟩
    · rfl
    · exact absurd (hst'.nil_iff.mpr hm) hne'
  · rcases hr' with ⟨hm, rfl⟩ | ⟨t', -, hst', rfl⟩
    · exact absurd (hst.nil_iff.mpr hm) hne
    · rw [hst.unique hst']

theorem eq_hash_of_simplifyNode {F : Type} {n : Node Bytes F} {h : Hash}
    (hn : simplifyNode n = .hash h) : n = .hash h := by
  cases n with
  | hash h' => rw [simplifyNode] at hn; exact Node.hash.inj hn ▸ rfl
  | _ => rw [simplifyNode] at hn; cases hn

/-- Hashing gives the root of the map, and a node that stands for the same tree once what is to be
written has been written. -/
theorem Inv.hashRoot (h : Inv keccak E tr m) (db : Bool) :
    ∃ hash cached ins, tr.hashRoot keccak db = (.hash hash, cached, ins) ∧ IsRoot keccak m hash ∧
      (∀ i ∈ ins, i.Authentic keccak) ∧ (db = false → ins = []) ∧
      ∀ db', tr.db.Keeps db' → Held db' ins → ∃ t, Rep keccak db' true cached t ∧ Stores t m := by
  obtain ⟨t, hrep, hst⟩ := h.tree
  by_cases hnil : t = .nil
  · subst hnil
    refine ⟨emptyRoot, .nil, [], by rw [Trie.hashRoot, hrep.eq_nil],
      .inl ⟨hst.nil_iff.mp rfl, rfl⟩, nofun, fun _ => rfl, fun db' _ _ => ⟨.nil, .nil, hst⟩⟩
  · have hr := Hasher.hash_hashesTo ⟨tr.cachegen, tr.cachelimit, db⟩ hrep (hst.canon hnil)
    have hhashed := eq_hash_of_simplifyNode hr.hashed
    refine ⟨_, _, _, ?_, .inr ⟨t, hnil, hst, rfl⟩, hr.inserts, hr.reads,
      fun db' hk hh => ⟨t, hr.cached db' hk hh, hst⟩⟩
    rw [Trie.hashRoot, ← hhashed]
    cases hroot : tr.root with
    | nil =>
      rw [hroot] at hrep
      exact absurd (hrep.isNil_iff.mp rfl) hnil
    | _ => rfl

theorem Inv.hash (h : Inv keccak E tr m) :
    ∃ hash tr', tr.hash keccak = some (hash, tr') ∧ IsRoot keccak m hash ∧
      Inv keccak E tr' m := by
  obtain ⟨hash, cached, ins, hroot, hisroot, -, hreads, hrep⟩ := h.hashRoot false
  rw [Trie.hash, hroot]
  refine ⟨hash, _, rfl, hisroot, h.sound, hrep tr.db (.refl _) ?_⟩
  rw [hreads rfl]
  exact nofun

theorem Inv.commit (hE : HashOn keccak E) (h : Inv keccak E tr m)
    (hmem : ∀ i ∈ tr.commitInserts keccak, i.node.blob ∈ E) :
    ∃ hash tr', tr.commit keccak = some (hash, tr') ∧ IsRoot keccak m hash ∧
      Inv keccak E tr' m := by
  obtain ⟨hash, cached, ins, hroot, hisroot, hauth, -, hrep⟩ := h.hashRoot true
  rw [Trie.commitInserts, hroot] at hmem
  obtain ⟨hsound, hkeeps, hheld⟩ := h.sound.insertAll hE ins hauth hmem
  rw [Trie.commit, hroot]
  exact ⟨hash, _, rfl, hisroot, hsound, hrep _ hkeeps hheld⟩

theorem Inv.step (hE : HashOn keccak E) (h : Inv keccak E tr m) (op : Op)
    (hadm : tr.Admits keccak E op) :
    ∃ tr', tr.step keccak op = .ok tr' ∧ Inv keccak E tr' (op.apply m) := by
  cases op with
  | update key value => exact h.tryUpdate hE key value
  | delete key => exact h.tryDelete hE key
  | get key =>
    obtain ⟨tr', hget, hinv⟩ := h.tryGetKey hE key
    refine ⟨tr', ?_, hinv⟩
    rw [Trie.step, hget]
    rfl
  | hash =>
    obtain ⟨hash, tr', hhash, -, hinv⟩ := h.hash
    refine ⟨tr', ?_, hinv⟩
    rw [Trie.step, hhash]
  | commit =>
    obtain ⟨hash, tr', hcommit, -, hinv⟩ := h.commit hE hadm
    refine ⟨tr', ?_, hinv⟩
    rw [Trie.step, hcommit]
  | setCacheLimit l => exact ⟨_, rfl, h.sound, h.tree⟩
  | database db =>
    obtain ⟨t, hrep, hst⟩ := h.tree
    exact ⟨_, rfl, hadm.2, t, hrep.mono hadm.1, hst⟩

theorem Inv.run (hE : HashOn keccak E) (ops : List Op) :
    ∀ {tr : Trie} {m : Bytes → Option Bytes}, Inv keccak E tr m → tr.Admissible keccak E ops →
      ∃ tr', tr.run keccak ops = .ok tr' ∧ Inv keccak E tr' (ops.foldl Op.apply m) := by
  induction ops with
  | nil =>
    intro tr m h _
    exact ⟨tr, rfl, h⟩
  | cons op ops ih =>
    intro tr m h hadm
    obtain ⟨tr1, hstep, h1⟩ := h.step hE op hadm.1
    have hadm1 := hadm.2
    rw [hstep] at hadm1
    obtain ⟨tr2, hrun, h2⟩ := ih h1 hadm1
    refine ⟨tr2, ?_, h2⟩
    rw [Trie.run, hstep]
    exact hrun

end

end Geth.Mpt
