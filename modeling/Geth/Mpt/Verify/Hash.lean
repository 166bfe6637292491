import Geth.Mpt.Verify.Rep

/-!
# Hashing and committing

The hasher computes the collapsed form of the tree a node stands for, whatever part of it is loaded
and whatever hashes are cached. The node it returns for the live trie stands for the same tree, over
every database that has the nodes written.
-/

namespace Geth.Mpt

open Lib Rlp List

section

variable {keccak : Bytes → Hash} {E : Set Bytes} {db db' : Database}

/-! ## Collapsed nodes -/

variable {F : Type} {r : Hashed} {flags : NodeFlag} {n : LiveNode} {c : CollapsedNode}

theorem simplifyNode_isNil (n : Node Bytes F) : (simplifyNode n).isNil = n.isNil := by
  cases n <;> rfl

theorem simplifyNode_item (n : Node Bytes F) : (simplifyNode n).item = n.item := by
  induction n with
  | nil => rfl
  | value v => rfl
  | hash h => rfl
  | short key val flags ih => simp [simplifyNode, Node.item, ih]
  | full children flags ih => simp [simplifyNode, Node.item, ih, simplifyNode_isNil]

theorem simplifyNode_blob (n : Node Bytes F) : (simplifyNode n).blob = n.blob := by
  rw [Node.blob, Node.blob, simplifyNode_item]

/-- A collapsed node for the tree, with the hash of the tree in its cache if there is one. -/
structure Collapses (keccak : Bytes → Hash) (t : Tree) (c : CollapsedNode) : Prop where
  node : simplifyNode c = collapse keccak t
  cache : ∀ h, c.cache.1 = some h → h = keccak (encTree keccak t)

variable {t : Tree}

theorem Collapses.blob_eq (h : Collapses keccak t c) : c.blob = encTree keccak t := by
  rw [← simplifyNode_blob, h.node, encTree]

theorem Collapses.getD_cache (h : Collapses keccak t c) :
    c.cache.1.getD (keccak (encTree keccak t)) = keccak (encTree keccak t) := by
  cases hc : c.cache.1 with
  | none => rfl
  | some hash => exact h.cache hash hc

theorem Collapses.ne_nil (h : Collapses keccak t c) (hc : CanonTree t) : c ≠ .nil := by
  rintro rfl
  have hnode := h.node
  cases hc <;> rw [collapse, simplifyNode] at hnode <;> cases hnode

theorem Collapses.ne_hash (h : Collapses keccak t c)
    (hc : CanonTree t) (hash : Hash) : c ≠ .hash hash := by
  rintro rfl
  have hnode := h.node
  cases hc <;> rw [collapse, simplifyNode] at hnode <;> cases hnode

theorem Collapses.store_eq (h : Collapses keccak t c)
    (hc : CanonTree t) (db force : Bool) :
    store keccak db force c =
      if (encTree keccak t).length < 32 ∧ force = false then (c, [])
      else (.hash (keccak (encTree keccak t)),
        if db then [⟨keccak (encTree keccak t), c⟩] else []) := by
  rw [store]
  · simp [h.blob_eq, h.getD_cache]
  · exact h.ne_nil hc
  · exact h.ne_hash hc

/-! ## Finishing a node -/

/-- The database has the blobs of the inserts. -/
def Held (db : Database) (ins : List Insert) : Prop :=
  ∀ i ∈ ins, db.blob i.hash = some i.node.blob

/-- The insert is that of a tree under its hash. -/
def Insert.Authentic (keccak : Bytes → Hash) (i : Insert) : Prop :=
  ∃ t, CanonTree t ∧ i.hash = keccak (encTree keccak t) ∧ simplifyNode i.node = collapse keccak t

/-- What `hash` returns for a node that stands for the tree. -/
structure HashesTo (keccak : Bytes → Hash) (db : Database) (commit force : Bool) (t : Tree)
    (r : Hashed) : Prop where
  hashed : simplifyNode r.hashed =
    if force then .hash (keccak (encTree keccak t)) else ref keccak (collapse keccak t)
  inserts : ∀ i ∈ r.inserts, i.Authentic keccak
  reads : commit = false → r.inserts = []
  cached : ∀ db' : Database, db.Keeps db' → Held db' r.inserts → Rep keccak db' force r.cached t
  stored : commit = true → ∀ db' : Database, db.Keeps db' → Held db' r.inserts →
    Stored keccak db' force t

theorem HashesTo.hashed_child {commit : Bool} (h : HashesTo keccak db commit false t r) :
    simplifyNode r.hashed = ref keccak (collapse keccak t) := by
  rw [h.hashed, if_neg Bool.false_ne_true]

theorem ref_byHash {force : Bool} (h : force = true ∨ ByHash keccak t) :
    (Node.hash (keccak (encTree keccak t)) : RawNode) =
      if force then .hash (keccak (encTree keccak t)) else ref keccak (collapse keccak t) := by
  cases force with
  | true => rfl
  | false =>
    exact (h.resolve_left Bool.false_ne_true).symm

section Finish

variable {h : Hasher} {force : Bool} {t : Tree} {c : CollapsedNode} {n : LiveNode}
  {ins : List Insert}

theorem stored_alone_iff (hc : CanonTree t) :
    ¬ ((encTree keccak t).length < 32 ∧ force = false) ↔ force = true ∨ ByHash keccak t := by
  rw [byHash_iff hc]
  cases force <;> simp

theorem finish_hashed (hcol : Collapses keccak t c) (hc : CanonTree t) :
    (h.finish keccak force c n ins).hashed =
      if (encTree keccak t).length < 32 ∧ force = false then c
      else .hash (keccak (encTree keccak t)) := by
  simp only [Hasher.finish, hcol.store_eq hc]
  split <;> rfl

theorem finish_inserts (hcol : Collapses keccak t c) (hc : CanonTree t) :
    (h.finish keccak force c n ins).inserts = ins ++
      if (encTree keccak t).length < 32 ∧ force = false then []
      else if h.db then [⟨keccak (encTree keccak t), c⟩] else [] := by
  simp only [Hasher.finish, hcol.store_eq hc]
  split <;> rfl

variable {flags : NodeFlag}

theorem simplifyNode_finish (hcol : Collapses keccak t c) (hc : CanonTree t) :
    simplifyNode (h.finish keccak force c n ins).hashed =
      if force then .hash (keccak (encTree keccak t)) else ref keccak (collapse keccak t) := by
  rw [finish_hashed hcol hc]
  split
  · next hsmall => rw [hcol.node, hsmall.2, ref_of_canon hc, if_pos hsmall.1]; rfl
  · next halone => exact ref_byHash ((stored_alone_iff hc).mp halone)

theorem authentic_finish (hcol : Collapses keccak t c) (hc : CanonTree t)
    (hins : ∀ i ∈ ins, i.Authentic keccak) :
    ∀ i ∈ (h.finish keccak force c n ins).inserts, i.Authentic keccak := by
  intro i hi
  rw [finish_inserts hcol hc, mem_append] at hi
  rcases hi with hi | hi
  · exact hins i hi
  · have : i = ⟨keccak (encTree keccak t), c⟩ := by
      split at hi
      · cases hi
      · split at hi
        · exact mem_singleton.mp hi
        · cases hi
    subst this
    exact ⟨t, hc, rfl, hcol.node⟩

theorem reads_finish (hcol : Collapses keccak t c) (hc : CanonTree t) (hdb : h.db = false)
    (hins : ins = []) : (h.finish keccak force c n ins).inserts = [] := by
  rw [finish_inserts hcol hc, hins, hdb]
  split <;> rfl

theorem held_finish (hcol : Collapses keccak t c) (hc : CanonTree t)
    (hheld : Held db' (h.finish keccak force c n ins).inserts) :
    Held db' ins ∧ (h.db = true → force = true ∨ ByHash keccak t → Holds keccak db' t) := by
  rw [finish_inserts hcol hc] at hheld
  refine ⟨fun i hi => hheld i (mem_append_left _ hi), fun hdb halone => ?_⟩
  rw [if_neg ((stored_alone_iff hc).mpr halone), if_pos hdb] at hheld
  have := hheld _ (mem_append_right _ (mem_singleton_self _))
  rwa [hcol.blob_eq] at this

theorem hashOf_eq_some {K F : Type} {n : Node K F} {hash : Hash} (h : hashOf n = some hash) :
    n = .hash hash := by
  cases n with
  | hash h' => rw [Option.some.inj h]
  | _ => cases h

theorem coherent_finish (hcol : Collapses keccak t c) (hc : CanonTree t)
    (hflags : Coherent keccak db' force t flags)
    (hheld : Held db' (h.finish keccak force c n ins).inserts)
    (hbelow : h.db = true → Below keccak db' t) :
    Coherent keccak db' force t
      (flags.hashedAs (hashOf (h.finish keccak force c n ins).hashed) h.db) := by
  constructor
  · intro hash hh
    rw [NodeFlag.hashedAs, finish_hashed hcol hc] at hh
    split at hh
    · exact absurd (hashOf_eq_some hh) (hcol.ne_hash hc hash)
    · next halone =>
      exact ⟨(Option.some.inj hh).symm, (stored_alone_iff hc).mp halone⟩
  · intro hd
    cases hdb : h.db with
    | false =>
      rw [NodeFlag.hashedAs, hdb] at hd
      exact hflags.clean hd
    | true => exact ⟨(held_finish hcol hc hheld).2 hdb, hbelow hdb⟩

end Finish

/-! ## The hasher -/

theorem clean_of_canUnload {K : Type} {cachegen cachelimit : UInt16} {n : Node K NodeFlag}
    (h : n.canUnload cachegen cachelimit = true) : n.cache.2 = false := by
  cases n with
  | short key val flags =>
    simp only [Node.canUnload, Bool.and_eq_true] at h
    exact Bool.not_eq_true' _ ▸ h.1
  | full children flags =>
    simp only [Node.canUnload, Bool.and_eq_true] at h
    exact Bool.not_eq_true' _ ▸ h.1
  | _ => cases h

/-- A cached hash may be used: it is the right one, and what is unloaded is in the database. -/
theorem HashesTo.of_cache {h : Hasher} {force : Bool} (hc : CanonTree t)
    (hn : Rep keccak db force n t) (hf : Coherent keccak db force t flags)
    (hcache : n.cache = (flags.hash, flags.dirty)) (hr : h.fromCache n = some r) :
    HashesTo keccak db h.db force t r := by
  rw [Hasher.fromCache, hcache] at hr
  cases hhash : flags.hash with
  | none =>
    rw [hhash] at hr
    cases hr
  | some hash =>
    obtain ⟨rfl, halone⟩ := hf.hash hash hhash
    rw [hhash] at hr
    simp only at hr
    split at hr
    · next hdb =>
      cases hr
      refine ⟨ref_byHash halone, nofun, fun _ => rfl, fun db' hk _ => hn.mono hk, fun hcommit => ?_⟩
      rw [hcommit] at hdb
      cases hdb
    · split at hr
      · next hu =>
        cases hr
        have hdirty := clean_of_canUnload hu
        rw [hcache] at hdirty
        have hs := hf.clean hdirty
        exact ⟨ref_byHash halone, nofun, fun _ => rfl, fun db' hk _ => .hash hc (hs.mono hk) halone,
          fun _ db' hk _ => hs.mono hk⟩
      · split at hr
        · next hd =>
          cases hr
          have hs := hf.clean (by simpa using hd)
          exact ⟨ref_byHash halone, nofun, fun _ => rfl, fun db' hk _ => hn.mono hk,
            fun _ db' hk _ => hs.mono hk⟩
        · cases hr

variable {h : Hasher} {force : Bool}

theorem HashesTo.short {key : Hex} {cached : LiveNode}
    {ins : List Insert} (hc : CanonTree (.short key t))
    (hf : Coherent keccak db force (.short key t) flags)
    (hhashed : simplifyNode c = ref keccak (collapse keccak t))
    (hins : ∀ i ∈ ins, i.Authentic keccak) (hreads : h.db = false → ins = [])
    (hcached : ∀ db', db.Keeps db' → Held db' ins → Rep keccak db' false cached t)
    (hstored : h.db = true → ∀ db', db.Keeps db' → Held db' ins → Stored keccak db' false t) :
    HashesTo keccak db h.db force (.short key t)
      (h.finish keccak force (.short (hexToCompact key) c flags) (.short key cached flags)
        ins) := by
  have hcol : Collapses keccak (.short key t) (.short (hexToCompact key) c flags) := by
    refine ⟨?_, fun hash hh => (hf.hash hash hh).1⟩
    rw [simplifyNode, hhashed, collapse]
  have hbelow : h.db = true → ∀ db', db.Keeps db' → Held db' ins →
      Below keccak db' (.short key t) :=
    fun hdb db' hk hh => below_short.mpr (hstored hdb db' hk hh)
  refine ⟨simplifyNode_finish hcol hc, authentic_finish hcol hc hins,
    fun hdb => reads_finish hcol hc hdb (hreads hdb), ?_, ?_⟩
  · intro db' hk hh
    have hheld := held_finish hcol hc hh
    exact .short (hcached db' hk hheld.1)
      (coherent_finish hcol hc (hf.mono hk) hh fun hdb => hbelow hdb db' hk hheld.1)
  · intro hdb db' hk hh
    have hheld := held_finish hcol hc hh
    exact ⟨hheld.2 hdb, hbelow hdb db' hk hheld.1⟩

theorem HashesTo.full {ts : Fin 17 → Tree} {cs : Fin 17 → CollapsedNode}
    {cached : Fin 17 → LiveNode} {ins : List Insert} (hc : CanonTree (.full ts))
    (hf : Coherent keccak db force (.full ts) flags)
    (hhashed : ∀ i, simplifyNode (cs i) = ref keccak (collapse keccak (ts i)))
    (hins : ∀ i ∈ ins, i.Authentic keccak) (hreads : h.db = false → ins = [])
    (hcached : ∀ db', db.Keeps db' → Held db' ins → ∀ i, Rep keccak db' false (cached i) (ts i))
    (hstored : h.db = true → ∀ db', db.Keeps db' → Held db' ins →
      ∀ i, Stored keccak db' false (ts i)) :
    HashesTo keccak db h.db force (.full ts)
      (h.finish keccak force (.full cs flags) (.full cached flags) ins) := by
  have hcol : Collapses keccak (.full ts) (.full cs flags) := by
    refine ⟨?_, fun hash hh => (hf.hash hash hh).1⟩
    rw [simplifyNode, collapse]
    congr 1
    funext i
    exact hhashed i
  have hbelow : h.db = true → ∀ db', db.Keeps db' → Held db' ins → Below keccak db' (.full ts) :=
    fun hdb db' hk hh => below_full.mpr (hstored hdb db' hk hh)
  refine ⟨simplifyNode_finish hcol hc, authentic_finish hcol hc hins,
    fun hdb => reads_finish hcol hc hdb (hreads hdb), ?_, ?_⟩
  · intro db' hk hh
    have hheld := held_finish hcol hc hh
    exact .full (hcached db' hk hheld.1)
      (coherent_finish hcol hc (hf.mono hk) hh fun hdb => hbelow hdb db' hk hheld.1)
  · intro hdb db' hk hh
    have hheld := held_finish hcol hc hh
    exact ⟨hheld.2 hdb, hbelow hdb db' hk hheld.1⟩

theorem Hasher.hash_eq_of_cache (hr : h.fromCache n = some r) : h.hash keccak force n = r := by
  unfold Hasher.hash
  rw [hr]

theorem Hasher.hash_short {key : Hex}
    (hcache : h.fromCache (.short key n flags) = none) (hn : ∀ v, n ≠ .value v) :
    h.hash keccak force (.short key n flags) =
      h.finish keccak force (.short (hexToCompact key) (h.hash keccak false n).hashed flags)
        (.short key (h.hash keccak false n).cached flags) (h.hash keccak false n).inserts := by
  conv_lhs => unfold Hasher.hash
  rw [hcache]
  cases n with
  | value v => exact absurd rfl (hn v)
  | _ => rfl

theorem Hasher.hash_full {ns : Fin 17 → LiveNode} (hcache : h.fromCache (.full ns flags) = none) :
    h.hash keccak force (.full ns flags) = h.finish keccak force
      (.full (fun i => if (i ≠ 16 && !(ns i).isNil) = true then
        (h.hash keccak false (ns i)).hashed else bareNode (ns i)) flags)
      (.full (fun i => if (i ≠ 16 && !(ns i).isNil) = true then
        (h.hash keccak false (ns i)).cached else ns i) flags)
      (childIndices.flatMap fun i => if (i ≠ 16 && !(ns i).isNil) = true then
        (h.hash keccak false (ns i)).inserts else []) := by
  conv_lhs => unfold Hasher.hash
  rw [hcache]

theorem HashesTo.untouched (hn : Rep keccak db false n t)
    (ht : t = .nil ∨ ∃ v, t = .value v) : (simplifyNode (bareNode n : CollapsedNode) =
      ref keccak (collapse keccak t)) ∧ ∀ db', Stored keccak db' false t := by
  rcases ht with rfl | ⟨v, rfl⟩
  · rw [hn.eq_nil]
    exact ⟨by simp [bareNode, simplifyNode, collapse, ref], fun _ => stored_nil⟩
  · rw [hn.eq_value]
    exact ⟨by simp [bareNode, simplifyNode, collapse, ref], fun _ => stored_value v⟩

theorem Hasher.hash_hashesTo (h : Hasher) (hn : Rep keccak db force n t) :
    CanonTree t → HashesTo keccak db h.db force t (h.hash keccak force n) := by
  induction hn with
  | nil => exact nofun
  | value => exact nofun
  | @hash root t hct hs hr =>
    intro _
    have heq : h.hash keccak root (.hash (keccak (encTree keccak t))) =
        ⟨.hash (keccak (encTree keccak t)), .hash (keccak (encTree keccak t)), []⟩ := by
      rfl
    exact ⟨ref_byHash hr, nofun, fun _ => rfl, fun db' hk _ => .hash hct (hs.mono hk) hr,
      fun _ db' hk _ => hs.mono hk⟩
  | @short root key n t flags hn hf ih =>
    intro hc
    cases hcache : h.fromCache (.short key n flags) with
    | some r =>
      rw [Hasher.hash_eq_of_cache hcache]
      exact .of_cache hc (.short hn hf) hf rfl hcache
    | none =>
      cases hc with
      | @leaf key v hkey hne hv =>
        obtain rfl := hn.eq_value
        unfold Hasher.hash
        rw [hcache]
        refine .short (.leaf hkey hne hv) hf ?_ nofun (fun _ => rfl) (fun db' hk _ => .value)
          (fun _ db' hk _ => stored_value v)
        simp [simplifyNode, collapse, ref]
      | @ext key ts hkey hne hts =>
        have ih := ih hts
        rw [Hasher.hash_short hcache fun v hv => by rw [hv] at hn; cases hn]
        exact .short (.ext hkey hne hts) hf ih.hashed_child ih.inserts ih.reads ih.cached ih.stored
  | @full root ns ts flags hn hf ih =>
    intro hc
    cases hcache : h.fromCache (.full ns flags) with
    | some r =>
      rw [Hasher.hash_eq_of_cache hcache]
      exact .of_cache hc (.full hn hf) hf rfl hcache
    | none =>
      have hchild : ∀ i, (i ≠ 16 && !(ns i).isNil) = true → CanonTree (ts i) := by
        intro i hi
        simp only [Bool.and_eq_true, decide_eq_true_eq, Bool.not_eq_true', ne_eq] at hi
        exact hc.children.canon_child hi.1 fun hnil => by simp [(hn i).isNil_iff.mpr hnil] at hi
      have hrest : ∀ i, ¬ (i ≠ 16 && !(ns i).isNil) = true → ts i = .nil ∨ ∃ v, ts i = .value
        v := by
        intro i hi
        by_cases hnil : ts i = .nil
        · exact .inl hnil
        · have hi16 : i = 16 := by
            by_contra hne
            exact hi (by simp [hne, mt (hn i).isNil_iff.mp hnil])
          subst hi16
          obtain ⟨v, -, hv⟩ := hc.children.value_child hnil
          exact .inr ⟨v, hv⟩
      have hmem : ∀ i : Fin 17, i ≠ 16 → i ∈ childIndices := by decide
      have hheld : ∀ {db' : Database} {i : Fin 17},
          Held db' (childIndices.flatMap fun i => if (i ≠ 16 && !(ns i).isNil) = true then
            (h.hash keccak false (ns i)).inserts else []) →
          (i ≠ 16 && !(ns i).isNil) = true → Held db' (h.hash keccak false (ns i)).inserts := by
        intro db' i hh hi j hj
        refine hh j (mem_flatMap.mpr ⟨i, hmem i ?_, by rwa [if_pos hi]⟩)
        intro h16
        simp [h16] at hi
      rw [Hasher.hash_full hcache]
      refine .full hc hf (fun i => ?_) ?_ (fun hdb => ?_) (fun db' hk hh i => ?_)
        (fun hdb db' hk hh i => ?_)
      · split
        · next hi => exact (ih i (hchild i hi)).hashed_child
        · next hi => exact (HashesTo.untouched (hn i) (hrest i hi)).1
      · intro j hj
        obtain ⟨i, -, hj⟩ := mem_flatMap.mp hj
        split at hj
        · next hi => exact (ih i (hchild i hi)).inserts j hj
        · cases hj
      · rw [flatMap_eq_nil_iff]
        intro i _
        split
        · next hi => exact (ih i (hchild i hi)).reads hdb
        · rfl
      · split
        · next hi => exact (ih i (hchild i hi)).cached db' hk (hheld hh hi)
        · exact (hn i).mono hk
      · by_cases hi : (i ≠ 16 && !(ns i).isNil) = true
        · exact (ih i (hchild i hi)).stored hdb db' hk (hheld hh hi)
        · exact (HashesTo.untouched (hn i) (hrest i hi)).2 db'

end

end Geth.Mpt
