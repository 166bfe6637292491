import Geth.Mpt.Verify.Run

/-!
# What the hasher stores

The hasher is called on nodes of live tries (`Formed`), and every node that it stores stands for a
live node (`Expands`), so that expanding it and decoding its blob give the same.
-/

namespace Geth.Mpt

open Lib Rlp List

/-- A node of a live trie, below which not everything need be loaded: keys end in the terminator
exactly at the leaves, values are at leaves and in the last slot of full nodes, and in that slot
they are not empty. -/
inductive Formed : LiveNode → Prop
  | hash (h : Hash) : Formed (.hash h)
  | leaf {key : Hex} {v : Bytes} {flags : NodeFlag} (hkey : Terminated 16 key) (hne : key ≠ []) :
    Formed (.short key (.value v) flags)
  | ext {key : Hex} {n : LiveNode} {flags : NodeFlag} (hkey : 16 ∉ key) (hn : Formed n) :
    Formed (.short key n flags)
  | full {children : Fin 17 → LiveNode} {flags : NodeFlag}
    (hc : ∀ i, i ≠ 16 → children i ≠ .nil → Formed (children i))
    (hval : children 16 ≠ .nil → ∃ v, v ≠ [] ∧ children 16 = .value v) :
      Formed (.full children flags)

variable {n : LiveNode}

theorem Formed.ne_value (h : Formed n) (v : Bytes) : n ≠ .value v := by
  cases h <;> nofun

/-- The collapsed node stands for a live node, whatever its hash is said to be. -/
structure Storable (gen : UInt16) (c : CollapsedNode) : Prop where
  stands : c.Stands
  expands : ∀ hash, ∃ m, Expands gen hash (simplifyNode c) m

/-- The collapsed node can stand for a child in its parent. -/
structure Referable (gen : UInt16) (c : CollapsedNode) : Prop where
  expands : ∃ m, Expands gen none (simplifyNode c) m
  inlined : Inlined (simplifyNode c)
  ne_nil : c ≠ .nil

/-- What `hash` returns for a node of a live trie. -/
structure HashedWell (gen : UInt16) (r : Hashed) : Prop where
  hashed : Referable gen r.hashed
  inserts : ∀ i ∈ r.inserts, Storable gen i.node

theorem referable_hash (gen : UInt16) (h : Hash) : Referable gen (.hash h) :=
  ⟨⟨_, .hash h⟩, .inl ⟨h, rfl⟩, nofun⟩

section

variable {keccak : Bytes → Hash} {gen : UInt16} {h : Hasher}

theorem stands_simplifyNode {F : Type} {c : Node Bytes F} : (simplifyNode c).Stands ↔ c.Stands := by
  cases c <;> rfl

theorem store_eq_of_stands (keccak : Bytes → Hash) {c : CollapsedNode} (hc : c.Stands)
    (db force : Bool) : store keccak db force c = (c, []) ∧ c.blob.length < 32 ∨
      ∃ hash ins, store keccak db force c = (.hash hash, ins) ∧ ∀ i ∈ ins, i.node = c := by
  have hstore : store keccak db force c =
      if c.blob.length < 32 ∧ force = false then (c, [])
      else (.hash (c.cache.1.getD (keccak c.blob)),
        if db then [⟨c.cache.1.getD (keccak c.blob), c⟩] else []) := by
    cases c with
    | short key val flags => rfl
    | full children flags => rfl
    | _ => exact hc.elim
  rw [hstore]
  split
  · next hsmall => exact .inl ⟨rfl, hsmall.1⟩
  · refine .inr ⟨_, _, rfl, fun i hi => ?_⟩
    split at hi
    · rw [mem_singleton] at hi
      rw [hi]
    · cases hi

theorem HashedWell.finish {force : Bool} {c : CollapsedNode} {cached : LiveNode}
    {ins : List Insert} (hc : Storable gen c) (hins : ∀ i ∈ ins, Storable gen i.node) :
    HashedWell gen (h.finish keccak force c cached ins) := by
  unfold Hasher.finish
  rcases store_eq_of_stands keccak hc.stands h.db force with
    ⟨heq, hsmall⟩ | ⟨hash, ins', heq, hins'⟩
  · rw [heq]
    refine ⟨⟨hc.expands none, .inr (by rwa [simplifyNode_blob]), ?_⟩, ?_⟩
    · rintro rfl
      exact hc.stands
    · intro i hi
      change i ∈ ins ++ [] at hi
      rw [append_nil] at hi
      exact hins i hi
  · rw [heq]
    refine ⟨referable_hash gen hash, fun i hi => ?_⟩
    rcases mem_append.1 hi with hi | hi
    · exact hins i hi
    · rw [hins' i hi]
      exact hc

theorem HashedWell.of_cache {r : Hashed} (hr : h.fromCache n = some r) :
    HashedWell gen r := by
  unfold Hasher.fromCache at hr
  split at hr
  · cases hr
  · next hash dirty _ =>
    have hwell : ∀ cached, HashedWell gen ⟨.hash hash, cached, []⟩ :=
      fun cached => ⟨referable_hash gen hash, nofun⟩
    split at hr
    · cases hr
      exact hwell _
    · split at hr
      · cases hr
        exact hwell _
      · split at hr
        · cases hr
          exact hwell _
        · cases hr

theorem storable_full {children : Fin 17 → CollapsedNode} {flags : NodeFlag}
    (hc : ∀ i, i ≠ 16 → children i = .nil ∨ Referable gen (children i))
    (hval : children 16 = .nil ∨ ∃ v, v ≠ [] ∧ children 16 = .value v) :
    Storable gen (.full children flags) := by
  refine ⟨trivial, fun hash => ?_⟩
  have hlive : ∀ i, ∃ m : LiveNode, (i ≠ 16 → Expands gen none (simplifyNode (children i)) m) ∧
      (i = 16 → (simplifyNode (children i) = .nil ∧ m = .nil) ∨
        ∃ v, v ≠ [] ∧ simplifyNode (children i) = .value v ∧ m = .value v) := by
    intro i
    by_cases hi : i = 16
    · subst hi
      rcases hval with hnil | ⟨v, hv, heq⟩
      · rw [hnil]
        exact ⟨.nil, fun h => absurd rfl h, fun _ => .inl ⟨rfl, rfl⟩⟩
      · rw [heq]
        exact ⟨.value v, fun h => absurd rfl h, fun _ => .inr ⟨v, hv, rfl, rfl⟩⟩
    · rcases hc i hi with hnil | href
      · rw [hnil]
        exact ⟨.nil, fun _ => .nil, fun h => absurd h hi⟩
      · obtain ⟨m, hm⟩ := href.expands
        exact ⟨m, fun _ => hm, fun h => absurd h hi⟩
  choose live hexp hslot using hlive
  refine ⟨_, .full hexp (fun i hi => ?_) (hslot 16 rfl)⟩
  rcases hc i hi with hnil | href
  · rw [hnil]
    exact inlined_nil
  · exact href.inlined

theorem Formed.hashedWell (hn : Formed n) (force : Bool) :
    HashedWell gen (h.hash keccak force n) := by
  induction hn generalizing force with
  | hash hash =>
    have heq : h.hash keccak force (.hash hash) = ⟨.hash hash, .hash hash, []⟩ := by
      rfl
    exact ⟨referable_hash gen hash, by rintro i ⟨⟩⟩
  | @leaf key v flags hkey hne =>
    cases hcache : h.fromCache (.short key (.value v) flags) with
    | some r =>
      rw [Hasher.hash_eq_of_cache hcache]
      exact .of_cache hcache
    | none =>
      unfold Hasher.hash
      rw [hcache]
      exact .finish ⟨trivial, fun hash => ⟨_, .leaf hkey hne⟩⟩ (by rintro i ⟨⟩)
  | @ext key n flags hkey hn ih =>
    cases hcache : h.fromCache (.short key n flags) with
    | some r =>
      rw [Hasher.hash_eq_of_cache hcache]
      exact .of_cache hcache
    | none =>
      rw [Hasher.hash_short hcache hn.ne_value]
      obtain ⟨href, hins⟩ := ih false
      obtain ⟨m, hm⟩ := href.expands
      refine .finish ⟨trivial, fun hash => ⟨_, .ext hkey hm ?_ href.inlined⟩⟩ hins
      intro hnil
      exact href.ne_nil (isNil_eq_true.1 (by rw [← simplifyNode_isNil, hnil]; rfl))
  | @full children flags hc hval ih =>
    cases hcache : h.fromCache (.full children flags) with
    | some r =>
      rw [Hasher.hash_eq_of_cache hcache]
      exact .of_cache hcache
    | none =>
      have hhashes : ∀ i, (i ≠ 16 && !(children i).isNil) = true →
          HashedWell gen (h.hash keccak false (children i)) := by
        intro i hi
        simp only [Bool.and_eq_true, decide_eq_true_eq, Bool.not_eq_true', ne_eq] at hi
        exact ih i hi.1 (fun hnil => by rw [hnil] at hi; cases hi.2) false
      rw [Hasher.hash_full hcache]
      refine .finish (storable_full (fun i hi => ?_) ?_) fun j hj => ?_
      · split
        · next hh => exact .inr (hhashes i hh).hashed
        · next hh =>
          have hnil : children i = .nil := by
            by_contra hne
            exact hh (by simp [hi, mt isNil_eq_true.1 hne])
          rw [hnil]
          exact .inl rfl
      · by_cases hnil : children 16 = .nil
        · rw [hnil]
          exact .inl rfl
        · obtain ⟨v, hv, heq⟩ := hval hnil
          rw [heq]
          exact .inr ⟨v, hv, rfl⟩
      · obtain ⟨i, -, hj⟩ := mem_flatMap.1 hj
        split at hj
        · next hh => exact (hhashes i hh).inserts j hj
        · cases hj

/-- For every collapsed node that the hasher stores when it is called on a node of a live trie,
there is the live node that it stands for, and decoding its encoding, expanding the node in memory
and decoding what `rlp` returns for it all give that node. -/
theorem Formed.stored_codec {n : LiveNode} (hn : Formed n) (force : Bool) {i : Insert}
    (hi : i ∈ (h.hash keccak force n).inserts) (hlen : i.node.blob.length < 2 ^ 64)
    (hash : Option Hash) (gen : UInt16) :
    ∃ m, Expands gen hash (simplifyNode i.node) m ∧ decodeNode hash i.node.blob gen = .ok m ∧
      expandNode gen hash (simplifyNode i.node) = some m ∧
      decodeNode hash (CachedNode.node (simplifyNode i.node)).rlp gen = .ok m := by
  have hwell : HashedWell gen (h.hash keccak force n) := hn.hashedWell force
  obtain ⟨hstands, hexp⟩ := hwell.inserts i hi
  obtain ⟨m, hm⟩ := hexp hash
  have hstands' := stands_simplifyNode.2 hstands
  have hdec := hm.decodeNode hstands' (by rwa [simplifyNode_blob])
  refine ⟨m, hm, ?_, hm.expandNode ?_, hdec⟩
  · rwa [simplifyNode_blob] at hdec
  · intro hnil
    rw [hnil] at hstands'
    exact hstands'

/-- A branch with a leaf inside of it and a value. -/
def smallBranch : LiveNode :=
  .full (fun i => if i = 3 then .short [16] (.value [5]) ⟨none, 0, true⟩
    else if i = 16 then .value [9] else .nil) ⟨none, 0, true⟩

theorem formed_smallBranch : Formed smallBranch := by
  refine .full (fun i hi hne => ?_) fun _ => ⟨[9], nofun, rfl⟩
  by_cases h3 : i = 3
  · subst h3
    exact .leaf ⟨iff_of_true rfl rfl, trivial⟩ nofun
  · exact absurd (by simp [h3, hi]) hne

theorem stored_codec_smallBranch :
    ∃ i ∈ (Hasher.hash (fun _ => Hash.zero) ⟨0, 0, true⟩ true smallBranch).inserts, ∃ m,
      decodeNode none i.node.blob 7 = .ok m ∧ expandNode 7 none (simplifyNode i.node) = some m := by
  have hpos : 0 < (Hasher.hash (fun _ => Hash.zero) ⟨0, 0, true⟩ true
    smallBranch).inserts.length := by
    decide
  have hlen : ((Hasher.hash (fun _ => Hash.zero) ⟨0, 0, true⟩ true smallBranch).inserts.all
      fun i => decide (i.node.blob.length < 2 ^ 64)) = true := by
    decide
  obtain ⟨i, hi⟩ := List.exists_mem_of_length_pos hpos
  obtain ⟨m, -, hdec, hexp, -⟩ := formed_smallBranch.stored_codec true hi
    (of_decide_eq_true (List.all_eq_true.1 hlen i hi)) none 7
  exact ⟨i, hi, m, hdec, hexp⟩

/-! ## The nodes of a trie -/

theorem Rep.formed {db : Database} {root : Bool} {t : Tree}
    (hn : Rep keccak db root n t) (hc : CanonTree t) : Formed n := by
  induction hn with
  | nil => cases hc
  | value => cases hc
  | hash hc' hs hr => exact .hash _
  | @short root key n t flags hn hf ih =>
    cases hc with
    | leaf hkey hne hv =>
      rw [hn.eq_value]
      exact .leaf hkey hne
    | ext hkey hne hts => exact .ext hkey (ih hts)
  | @full root ns ts flags hn hf ih =>
    have hnil : ∀ i, ns i ≠ .nil → ts i ≠ .nil := fun i hne ht =>
      hne (isNil_eq_true.1 ((hn i).isNil_iff.2 ht))
    refine .full (fun i hi hne => ih i (hc.children.canon_child hi (hnil i hne))) fun hne => ?_
    obtain ⟨v, hv, heq⟩ := hc.children.value_child (hnil 16 hne)
    have h16 := hn 16
    rw [heq] at h16
    exact ⟨v, hv, h16.eq_value⟩

theorem Inv.formed {E : Set Bytes} {tr : Trie} {m : Bytes → Option Bytes} (h : Inv keccak E tr m)
    (hne : tr.root ≠ .nil) : Formed tr.root := by
  obtain ⟨t, hrep, hst⟩ := h.tree
  refine hrep.formed (hst.canon ?_)
  rintro rfl
  exact hne hrep.eq_nil

end

end Geth.Mpt
