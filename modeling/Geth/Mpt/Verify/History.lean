import Geth.Mpt.Verify.FiniteMap

/-!
# The root does not depend on the history

Two runs that end in the same map end in the same root hash, that of the canonical tree of the map.
No hash that is cached anywhere in the live trie differs from the one computed anew, be it by the
hasher with the caches cleared or from the tree that the database holds below the node.
-/

namespace Geth.Mpt

open Lib Rlp

/-- The node `m` is loaded in `n`. -/
inductive Node.Sub {K F : Type} (m : Node K F) : Node K F → Prop
  | refl : Sub m m
  | short {key : K} {val : Node K F} {flags : F} (h : Sub m val) : Sub m (.short key val flags)
  | full {children : Fin 17 → Node K F} {flags : F} (i : Fin 17) (h : Sub m (children i)) :
      Sub m (.full children flags)

/-- The node with all caches cleared. -/
def uncached : LiveNode → LiveNode
  | .nil => .nil
  | .value v => .value v
  | .hash h => .hash h
  | .short key val flags => .short key (uncached val) ⟨none, flags.gen, true⟩
  | .full children flags => .full (fun i => uncached (children i)) ⟨none, flags.gen, true⟩

/-- With everything loaded from the database the node is the tree. -/
inductive Loads (db : Database) : LiveNode → Tree → Prop
  | nil : Loads db .nil .nil
  | value {v : Bytes} : Loads db (.value v) (.value v)
  | hash {h : Hash} {gen : UInt16} {n : LiveNode} {t : Tree}
      (hnode : db.node h gen = some (some n)) (hn : Loads db n t) : Loads db (.hash h) t
  | short {key : Hex} {n : LiveNode} {t : Tree} {flags : NodeFlag} (hn : Loads db n t) :
      Loads db (.short key n flags) (.short key t)
  | full {ns : Fin 17 → LiveNode} {ts : Fin 17 → Tree} {flags : NodeFlag}
      (hn : ∀ i, Loads db (ns i) (ts i)) : Loads db (.full ns flags) (.full ts)

/-- Every cached hash is the one computed anew. -/
def CacheExact (keccak : Bytes → Hash) (tr : Trie) : Prop :=
  ∀ n, Node.Sub n tr.root → ∀ h, n.cache.1 = some h →
    hashOf (Hasher.hash keccak ⟨tr.cachegen, tr.cachelimit, false⟩ true (uncached n)).hashed =
      some h ∧
    ∃ t, Loads tr.db n t ∧ h = keccak (encTree keccak t)

section

variable {keccak : Bytes → Hash} {E : Set Bytes} {db : Database}

variable {t : Tree} {root : Bool} {n : LiveNode}

theorem Loads.loadedRef (hE : HashOn keccak E) (hdb : db.Sound keccak E) (hc : CanonTree t)
    (hs : Stored keccak db false t) (hn : ∀ hash, Loads db (loaded keccak 0 hash t) t)
    {hash : Option Hash} :
    Loads db (loadedRef keccak t (loaded keccak 0 hash t)) t := by
  rw [loadedRef_of_canon hc]
  split
  · exact hn hash
  · next hbig =>
    exact .hash (hdb.node_eq hE hc (hs.1 (.inr ((byHash_iff hc).mpr hbig))) 0) (hn _)

theorem Loads.loaded (hE : HashOn keccak E) (hdb : db.Sound keccak E) (hc : CanonTree t)
    (hbelow : Below keccak db t) :
    ∀ hash, Loads db (loaded keccak 0 hash t) t := by
  induction hc with
  | @leaf key v hkey hne hv =>
    intro hash
    exact .short .value
  | @ext key ts hkey hne hts ih =>
    intro hash
    have hs := below_short.mp hbelow
    exact .short (.loadedRef hE hdb hts hs (ih hs.2))
  | @branch ts hts hval htwo ih =>
    intro hash
    have hs := below_full.mp hbelow
    refine .full fun i => ?_
    by_cases hne : ts i = .nil
    · rw [hne]
      exact .nil
    · by_cases hi : i = 16
      · subst hi
        obtain ⟨v, -, hv⟩ := hval hne
        rw [hv]
        exact .value
      · exact .loadedRef hE hdb (hts i hi hne) (hs i) (ih i hi hne (hs i).2)

theorem Rep.loads (hE : HashOn keccak E) (hdb : db.Sound keccak E) (h : Rep keccak db root n t) :
    Loads db n t := by
  induction h with
  | nil => exact .nil
  | value => exact .value
  | hash hc hs hr => exact .hash (hdb.node_eq hE hc (hs.1 hr) 0) (.loaded hE hdb hc hs.2 _)
  | short hn hf ih => exact .short ih
  | full hn hf ih => exact .full ih

theorem Rep.uncached (h : Rep keccak db root n t) : Rep keccak db root (uncached n) t := by
  induction h with
  | nil => exact .nil
  | value => exact .value
  | hash hc hs hr => exact .hash hc hs hr
  | short hn hf ih => exact .short ih ⟨nofun, nofun⟩
  | full hn hf ih => exact .full ih ⟨nofun, nofun⟩

theorem Rep.uncached_root (h : Rep keccak db root n t) (hn : ∀ h, n ≠ .hash h) (root' : Bool) :
    Rep keccak db root' (Mpt.uncached n) t := by
  cases h with
  | nil => exact .nil
  | value => exact .value
  | hash hc hs hr => exact absurd rfl (hn _)
  | short hm hf => exact .short hm.uncached ⟨nofun, nofun⟩
  | full hns hf => exact .full (fun i => (hns i).uncached) ⟨nofun, nofun⟩

theorem Rep.sub {m : LiveNode} (hsub : Node.Sub m n) :
    ∀ {root : Bool} {t : Tree}, Rep keccak db root n t → (t ≠ .nil → CanonTree t) →
      ∀ {h : Hash}, m.cache.1 = some h →
        ∃ root' t', Rep keccak db root' m t' ∧ CanonTree t' ∧ h = keccak (encTree keccak t') := by
  induction hsub with
  | refl =>
    intro root t hn hc h hh
    cases hn with
    | nil => cases hh
    | value => cases hh
    | hash hct hs hr => cases hh
    | short hm hf => exact ⟨root, _, .short hm hf, hc nofun, (hf.hash h hh).1⟩
    | full hm hf => exact ⟨root, _, .full hm hf, hc nofun, (hf.hash h hh).1⟩
  | short hsub ih =>
    intro root t hn hc h hh
    cases hn with
    | @short _ key n u flags hm hf =>
      cases hc nofun with
      | leaf hkey hne hv =>
        -- A value has no flags, so there is nothing loaded below it.
        obtain rfl := hm.eq_value
        cases hsub
        cases hh
      | ext hkey hne hts => exact ih hm (fun _ => hts) hh
  | full i hsub ih =>
    intro root t hn hc h hh
    cases hn with
    | @full _ ns ts flags hns hf =>
      have hcanon := hc nofun
      by_cases hi : i = 16
      · subst hi
        by_cases hnil : ts 16 = .nil
        · have hrep := hns 16
          rw [hnil] at hrep
          rw [hrep.eq_nil] at hsub
          cases hsub
          cases hh
        · obtain ⟨v, -, hv⟩ := hcanon.children.value_child hnil
          have hrep := hns 16
          rw [hv] at hrep
          rw [hrep.eq_value] at hsub
          cases hsub
          cases hh
      · exact ih (hns i) (hcanon.children.canon_child hi) hh

theorem Inv.cacheExact (hE : HashOn keccak E) {tr : Trie} {m : Bytes → Option Bytes}
    (h : Inv keccak E tr m) : CacheExact keccak tr := by
  intro n hsub hash hh
  obtain ⟨t, hrep, hst⟩ := h.tree
  obtain ⟨root, u, hn, hc, rfl⟩ := Rep.sub hsub hrep hst.canon hh
  have hne : ∀ h, n ≠ .hash h := by
    rintro h rfl
    cases hh
  have hr := Hasher.hash_hashesTo ⟨tr.cachegen, tr.cachelimit, false⟩ (hn.uncached_root hne true) hc
  refine ⟨?_, u, hn.loads hE h.sound, rfl⟩
  rw [eq_hash_of_simplifyNode hr.hashed]
  rfl

/-- The hash of a trie is a function of the map, however the map came about, and no cached hash is
stale. -/
theorem hash_run_of_contents {E₁ E₂ : Set Bytes} (hE₁ : HashOn keccak E₁) (hE₂ : HashOn keccak E₂)
    {tr₁ tr₂ : Trie} (hdb₁ : tr₁.db.Sound keccak E₁) (hdb₂ : tr₂.db.Sound keccak E₂)
    (hempty₁ : tr₁.root = .nil) (hempty₂ : tr₂.root = .nil) {ops₁ ops₂ : List Op}
    (hadm₁ : tr₁.Admissible keccak E₁ ops₁) (hadm₂ : tr₂.Admissible keccak E₂ ops₂)
    (heq : contents ops₁ = contents ops₂) :
    ∃ tr₁' tr₂' h tr₁'' tr₂'', tr₁.run keccak ops₁ = .ok tr₁' ∧ tr₂.run keccak ops₂ = .ok tr₂' ∧
      tr₁'.hash keccak = some (h, tr₁'') ∧ tr₂'.hash keccak = some (h, tr₂'') ∧
      IsRoot keccak (contents ops₁) h ∧ CacheExact keccak tr₁' ∧ CacheExact keccak tr₂' := by
  obtain ⟨tr₁', hrun₁, hinv₁⟩ := (Inv.of_empty hdb₁ hempty₁).run hE₁ ops₁ hadm₁
  obtain ⟨tr₂', hrun₂, hinv₂⟩ := (Inv.of_empty hdb₂ hempty₂).run hE₂ ops₂ hadm₂
  obtain ⟨h₁, tr₁'', hhash₁, hroot₁, -⟩ := hinv₁.hash
  obtain ⟨h₂, tr₂'', hhash₂, hroot₂, -⟩ := hinv₂.hash
  have hh : h₂ = h₁ := by
    have hroot₁' : IsRoot keccak (contents ops₁) h₁ := hroot₁
    rw [heq] at hroot₁'
    exact IsRoot.unique hroot₂ hroot₁'
  rw [hh] at hhash₂
  exact ⟨tr₁', tr₂', h₁, tr₁'', tr₂'', hrun₁, hrun₂, hhash₁, hhash₂, hroot₁,
    hinv₁.cacheExact hE₁, hinv₂.cacheExact hE₂⟩

theorem contents_sampleRun : contents sampleRun = contents [.update [0x13] [5]] := by
  funext key
  simp only [contents, sampleRun, List.foldl_cons, List.foldl_nil, Op.apply, Function.update_apply]
  by_cases h : key = [0x12]
  · subst h
    rfl
  · simp [h]

theorem hash_sampleRun : ∃ tr₁' tr₂' h tr₁'' tr₂'', sampleTrie.run lastBytes sampleRun = .ok tr₁' ∧
      sampleTrie.run lastBytes [.update [0x13] [5]] = .ok tr₂' ∧
      tr₁'.hash lastBytes = some (h, tr₁'') ∧ tr₂'.hash lastBytes = some (h, tr₂'') ∧
      IsRoot lastBytes (contents sampleRun) h ∧ CacheExact lastBytes tr₁' ∧
      CacheExact lastBytes tr₂' :=
  hash_run_of_contents hashOn_sampleBlobs hashOn_sampleBlobs (sound_sampleTrie _ _)
    (sound_sampleTrie _ _) rfl rfl admissible_sampleRun ⟨trivial, trivial⟩ contents_sampleRun

end

end Geth.Mpt
