import Geth.Core.Verify.HeaderChain

/-!
# Ancestors of stored headers

`SetHead` deletes the headers of the current branch above the new head. A header of another branch
that forks off above the new head loses an ancestor, and a later `WriteHeader` that walks down that
branch dereferences a nil header. On rewinds that leave no such branch behind, the stored headers
stay closed under ancestors.
-/

namespace Geth.Core.HeaderChain

open Lib Function List

section

variable (hash : Header → Hash) (genesis : Header)

/-- A tree of headers, of which some will be written. -/
structure Forest (U : Set Header) : Prop where
  genesis_mem : genesis ∈ U
  genesis_number : genesis.number = 0
  genesis_parent : ∀ x ∈ U, hash x ≠ genesis.parentHash
  hash_ne_zero : ∀ x ∈ U, hash x ≠ Hash.zero
  inj : Set.InjOn hash U
  parent : ∀ x ∈ U, x = genesis ∨ ∃ y ∈ U, Child hash Header.parentHash Header.number x y

/-- The headers that the chain returns under a hash and a number: `GetHeader`, or the database. -/
def Returns (hc : HeaderChain) (w : Header) : Prop :=
  ∃ k n, (hc.getHeader k n).1 = some w ∨ hc.chainDb.header n k = some w

/-- All ancestors of the header can be got, each with its total difficulty. -/
inductive HasAncestors (hc : HeaderChain) : Header → Prop
  | genesis : HasAncestors hc genesis
  | child {w y : Header} {td : Int}
    (hget : (hc.getHeader w.parentHash (uint64Pred w.number)).1 = some y)
    (htd : (hc.getTd w.parentHash (uint64Pred w.number)).1 = some td) (hy : HasAncestors hc y) :
    HasAncestors hc w

/-- Every header that the chain returns has all its ancestors. -/
def AncestorClosed (hc : HeaderChain) : Prop := ∀ w, Returns hc w → HasAncestors genesis hc w

/-- The ancestors of a header in the database, the header itself first. -/
def Ancestor (db : ChainDb) : Header → Header → Prop :=
  Relation.ReflTransGen fun w y => db.header (uint64Pred w.number) w.parentHash = some y

/-- A rewind to `head` leaves no branch behind: a stored header with an ancestor among those that
are deleted is deleted itself. -/
def Clean (hc : HeaderChain) (head : Nat) : Prop :=
  ∀ n k w, hc.chainDb.header n k = some w → ∀ c, Ancestor hc.chainDb hc.currentHeader c →
    head < c.number → Ancestor hc.chainDb w c → Ancestor hc.chainDb hc.currentHeader w

/-- Nothing but the written headers is stored. -/
structure Only (ws : List Header) (hc : HeaderChain) : Prop where
  header : ∀ {n k w}, hc.chainDb.header n k = some w → w ∈ ws ∧ hash w = k ∧ w.number = n
  td : ∀ {n k td}, hc.chainDb.td n k = some td → ∃ w ∈ ws, hash w = k ∧ w.number = n

/-- The headers written and not deleted are a tree, and the chain is that of one of its branches. -/
structure Sound (offset : Int) (U : Set Header) (ws : List Header) (hc : HeaderChain) : Prop where
  forest : Forest hash genesis U
  mem : ∀ w ∈ ws, w ∈ U
  linked : Linked hash genesis offset ws hc
  only : Only hash ws hc

end

variable {hash : Header → Hash} {genesis w x : Header} {offset : Int} {U : Set Header}
  {ws l : List Header} {hc : HeaderChain} {fuel : Nat}

/-! ## What a sound chain returns -/

section

variable (h : Sound hash genesis offset U ws hc)

include h

theorem Sound.returns_mem (hw : Returns hc w) : w ∈ ws := by
  obtain ⟨k, n, hget | hdb⟩ := hw
  · rw [getHeader] at hget
    split at hget
    · next v cache hc' =>
      cases hget
      exact (h.linked.stored.headerCache.get_eq (congrArg Prod.fst hc')).1
    · split at hget
      · cases hget
      · next hdb =>
        cases hget
        exact (h.only.header hdb).1
  · exact (h.only.header hdb).1

theorem Sound.hasAncestors :
    ∀ {w : Header}, HeaderBranch hash genesis ws (w :: l) → HasAncestors genesis hc w := by
  have ht := h.linked.tree
  induction l with
  | nil =>
    intro w hl
    cases hl
    exact .genesis
  | cons y l ih =>
    intro w hl
    cases hl with
    | child hw hwy hy =>
      have hpred : uint64Pred w.number = y.number := by rw [hwy.2, uint64Pred_succ]
      obtain ⟨cache, hget, -⟩ :=
        getHeader_eq ht h.linked.stored (hy.mem ht.root_mem y mem_cons_self)
      obtain ⟨cache', htd, -⟩ := getTd_eq ht h.linked.stored hy
      have hgot : (hc.getHeader w.parentHash (uint64Pred w.number)).1 = some y := by
        rw [hpred, hwy.1, hget]
      have hgot' : (hc.getTd w.parentHash (uint64Pred w.number)).1 =
          some (totalDifficulty (y :: l) + offset) := by
        rw [hpred, hwy.1, htd]
      exact .child hgot hgot' (ih hy)

theorem Sound.closed : AncestorClosed genesis hc := by
  intro w hw
  obtain ⟨l, hl⟩ := h.linked.tree.branch (h.returns_mem hw)
  exact h.hasAncestors hl

theorem Sound.parent_genesis (n : Nat) :
    hc.chainDb.header n genesis.parentHash = none := by
  by_contra hne
  obtain ⟨w, hw⟩ := Option.ne_none_iff_exists'.1 hne
  obtain ⟨hmem, hhash, -⟩ := h.only.header hw
  exact h.forest.genesis_parent w (h.mem w hmem) hhash

theorem Sound.ancestor_iff {c : Header} :
    ∀ {w : Header}, HeaderBranch hash genesis ws (w :: l) →
      (Ancestor hc.chainDb w c ↔ c ∈ w :: l) := by
  have ht := h.linked.tree
  induction l with
  | nil =>
    intro w hl
    cases hl
    rw [mem_singleton]
    constructor
    · intro hc
      rcases Relation.ReflTransGen.cases_head hc with heq | ⟨z, hz, -⟩
      · exact heq.symm
      · rw [h.parent_genesis] at hz
        cases hz
    · rintro rfl
      exact .refl
  | cons y l ih =>
    intro w hl
    cases hl with
    | child hw hwy hy =>
      have hpred : uint64Pred w.number = y.number := by rw [hwy.2, uint64Pred_succ]
      have hparent : hc.chainDb.header (uint64Pred w.number) w.parentHash = some y := by
        rw [hpred, hwy.1]
        exact h.linked.stored.header y (hy.mem ht.root_mem y mem_cons_self)
      rw [mem_cons, ← ih hy]
      constructor
      · intro hc
        rcases Relation.ReflTransGen.cases_head hc with heq | ⟨z, hz, hrest⟩
        · exact .inl heq.symm
        · rw [hparent] at hz
          cases hz
          exact .inr hrest
      · rintro (rfl | hrest)
        · exact .refl
        · exact .head hparent hrest

end

/-! ## `WriteHeader` -/

theorem Only.write (h : Only hash ws hc) {hc' : HeaderChain} (td : Int)
    (hheader : hc'.chainDb.header = (hc.chainDb.writeHeader (hash x) x).header)
    (htd : hc'.chainDb.td = (hc.chainDb.writeTd (hash x) x.number td).td) :
    Only hash (x :: ws) hc' := by
  constructor
  · intro n k w hw
    rw [hheader] at hw
    simp only [ChainDb.writeHeader, update_apply] at hw
    split at hw
    · next hn =>
      simp only [update_apply] at hw
      split at hw
      · next hk =>
        cases hw
        exact ⟨mem_cons_self, hk.symm, hn.symm⟩
      · obtain ⟨hmem, hk, hnum⟩ := h.header hw
        exact ⟨mem_cons_of_mem x hmem, hk, hnum.trans hn.symm⟩
    · obtain ⟨hmem, hk, hnum⟩ := h.header hw
      exact ⟨mem_cons_of_mem x hmem, hk, hnum⟩
  · intro n k t ht
    rw [htd] at ht
    simp only [ChainDb.writeTd, update_apply] at ht
    split at ht
    · next hn =>
      simp only [update_apply] at ht
      split at ht
      · next hk => exact ⟨x, mem_cons_self, hk.symm, hn.symm⟩
      · obtain ⟨w, hw, hk, hnum⟩ := h.td ht
        exact ⟨w, mem_cons_of_mem x hw, hk, hnum.trans hn.symm⟩
    · obtain ⟨w, hw, hk⟩ := h.td ht
      exact ⟨w, mem_cons_of_mem x hw, hk⟩

theorem Sound.getTd_none (h : Sound hash genesis offset U ws hc) {k : Hash}
    (hk : ∀ w ∈ ws, hash w ≠ k) (n : Nat) : (hc.getTd k n).1 = none := by
  rw [getTd]
  split
  · next hget =>
    obtain ⟨w, l, hl, hwk, -⟩ := h.linked.stored.tdCache.get_eq (congrArg Prod.fst hget)
    exact absurd hwk (hk w (hl.mem h.linked.tree.root_mem w mem_cons_self))
  · split
    · rfl
    · next hdb =>
      obtain ⟨w, hw, hwk, -⟩ := h.only.td hdb
      exact absurd hwk (hk w hw)

theorem Sound.write (h : Sound hash genesis offset U ws hc) (hx : x ∈ U)
    (hfuel : ∀ w ∈ ws, w.number + 1 < fuel) (coin : Bool) :
    ∃ hc' ws', call hash genesis fuel hc (.writeHeader x coin) = some hc' ∧
      Sound hash genesis offset U ws' hc' ∧ ∀ w ∈ ws', w ∈ ws ∨ ∃ y ∈ ws, w.number = y.number
        + 1 := by
  have ht := h.linked.tree
  have hrefused : (∀ w ∈ ws, hash w ≠ x.parentHash) →
      call hash genesis fuel hc (.writeHeader x coin) = some hc := by
    intro hnone
    have hget := h.getTd_none hnone (uint64Pred x.number)
    rw [call, HeaderChain.writeHeader]
    generalize hc.getTd x.parentHash (uint64Pred x.number) = res at hget
    obtain ⟨td, hc1⟩ := res
    cases hget
    rfl
  rcases h.forest.parent x hx with rfl | ⟨y, hyU, hxy⟩
  · exact ⟨hc, ws, hrefused fun w hw => h.forest.genesis_parent w (h.mem w hw), h,
      fun w hw => .inl hw⟩
  by_cases hy : y ∈ ws
  · obtain ⟨l, hl⟩ := ht.branch hy
    obtain ⟨old, hold, -⟩ := h.linked.current
    have hinj : ∀ w ∈ ws, hash w = hash x → w = x := fun w hw heq => h.forest.inj (h.mem w hw) hx
      heq
    obtain ⟨status, hc', heq, hlinked, hheader, htd, -⟩ :=
      h.linked.writeHeader hl hold hxy hinj (h.forest.hash_ne_zero x hx) hfuel coin
    refine ⟨hc', x :: ws, ?_, ⟨h.forest, ?_, hlinked, h.only.write _ hheader htd⟩, ?_⟩
    · rw [call, heq]
    · intro w hw
      rcases mem_cons.1 hw with rfl | hw
      · exact hx
      · exact h.mem w hw
    · intro w hw
      rcases mem_cons.1 hw with rfl | hw
      · exact .inr ⟨y, hy, hxy.2⟩
      · exact .inl hw
  · refine ⟨hc, ws, hrefused fun w hw heq => hy ?_, h, fun w hw => .inl hw⟩
    rwa [← h.forest.inj (h.mem w hw) hyU (heq.trans hxy.1)]

/-! ## `SetHead` -/

theorem rewind_eq (ht : HeaderTree hash genesis ws) (head : Nat) :
    ∀ {hc : HeaderChain} {x : Header} {fuel : Nat}, Stored hash genesis offset ws hc →
      HeaderBranch hash genesis ws (x :: l) → l.length < fuel →
      ∃ cache, rewind head fuel hc (some x) = some (((x :: l).dropWhile (head < ·.number)).head?,
          (x :: l).takeWhile (head < ·.number), { hc with headerCache := cache }) := by
  induction l with
  | nil =>
    intro hc x fuel h hl hfuel
    obtain ⟨fuel, rfl⟩ := Nat.exists_eq_succ_of_ne_zero (Nat.ne_of_gt hfuel)
    cases hl
    have hnot : ¬ head < genesis.number := by
      rw [ht.height_root]
      exact Nat.not_lt_zero _
    refine ⟨hc.headerCache, ?_⟩
    rw [rewind, dropWhile_cons_of_neg (by simpa using hnot),
      takeWhile_cons_of_neg (by simpa using hnot)]
    exact if_neg hnot
  | cons y l ih =>
    intro hc x fuel h hl hfuel
    obtain ⟨fuel, rfl⟩ := Nat.exists_eq_succ_of_ne_zero (Nat.ne_of_gt (Nat.zero_lt_of_lt hfuel))
    rw [rewind]
    by_cases hlt : head < x.number
    · cases hl with
      | child hx hxy hy =>
        have hpred : uint64Pred x.number = y.number := by rw [hxy.2, uint64Pred_succ]
        obtain ⟨cache, hget, hcache⟩ := getHeader_eq ht h (hy.mem ht.root_mem y mem_cons_self)
        obtain ⟨cache', heq⟩ :=
          ih (h.reassign hc.chainDb.canonicalHash hcache) hy (Nat.lt_of_succ_lt_succ hfuel)
        refine ⟨cache', ?_⟩
        rw [dropWhile_cons_of_pos (by simpa using hlt), takeWhile_cons_of_pos (by simpa using hlt)]
        rw [if_pos hlt, hpred, hxy.1, hget]
        change (rewind head fuel { hc with headerCache := cache } (some y)).map _ = _
        rw [heq]
        rfl
    · refine ⟨hc.headerCache, ?_⟩
      rw [dropWhile_cons_of_neg (by simpa using hlt), takeWhile_cons_of_neg (by simpa using hlt)]
      exact if_neg hlt

theorem foldl_erase {β : Type} (batch : List Header) (n : Nat) (k : Hash) :
    ∀ table : Nat → Hash → Option β,
      batch.foldl (fun t c => update t c.number (update (t c.number) (hash c) none))
        table n k = if ∃ c ∈ batch, c.number = n ∧ hash c = k then none else table n k := by
  induction batch with
  | nil => exact fun table => by simp
  | cons c batch ih =>
    intro table
    rw [foldl_cons, ih]
    by_cases hin : ∃ c ∈ batch, c.number = n ∧ hash c = k
    · rw [if_pos hin, if_pos ((exists_mem_cons_iff ..).2 (.inr hin))]
    · simp only [update_apply, exists_mem_cons_iff, hin, or_false, if_false]
      by_cases hn : n = c.number
      · subst hn
        simp [update_apply, eq_comm]
      · simp [hn, Ne.symm hn]

theorem foldl_deleteHeader (hash : Header → Hash) (batch : List Header) : ∀ (db : ChainDb),
    let db' := batch.foldl
      (fun db h => (db.deleteHeader (hash h) h.number).deleteTd (hash h) h.number) db
    (∀ n k, db'.header n k =
        if ∃ c ∈ batch, c.number = n ∧ hash c = k then none else db.header n k) ∧
      (∀ n k, db'.td n k = if ∃ c ∈ batch, c.number = n ∧ hash c = k then none else db.td n k) ∧
      db'.canonicalHash = db.canonicalHash := by
  intro db
  have hfold : ∀ db : ChainDb, (batch.foldl
      (fun db h => (db.deleteHeader (hash h) h.number).deleteTd (hash h) h.number) db).header =
        batch.foldl (fun t c => update t c.number (update (t c.number) (hash c) none)) db.header ∧
      (batch.foldl
      (fun db h => (db.deleteHeader (hash h) h.number).deleteTd (hash h) h.number) db).td =
        batch.foldl (fun t c => update t c.number (update (t c.number) (hash c) none)) db.td ∧
      (batch.foldl
      (fun db h => (db.deleteHeader (hash h) h.number).deleteTd (hash h) h.number) db).canonicalHash
        =
        db.canonicalHash := by
    induction batch with
    | nil => exact fun db => ⟨rfl, rfl, rfl⟩
    | cons c batch ih => exact fun db => ih _
  obtain ⟨hheader, htd, hcanon⟩ := hfold db
  refine ⟨fun n k => ?_, fun n k => ?_, hcanon⟩
  · rw [hheader, foldl_erase]
  · rw [htd, foldl_erase]

/-- The chain after a rewind: the headers of the current branch above `head` are gone, everything
else is stored as before, and the canonical hashes are those of what is left of the branch. -/
structure Rewound (hash : Header → Hash) (genesis : Header) (ws : List Header) (hc : HeaderChain)
    (l : List Header) (head : Nat) (hc' : HeaderChain) : Prop where
  header : ∀ n k, hc'.chainDb.header n k =
    if ∃ c ∈ l, head < c.number ∧ c.number = n ∧ hash c = k then none else hc.chainDb.header n k
  td : ∀ n k, hc'.chainDb.td n k =
    if ∃ c ∈ l, head < c.number ∧ c.number = n ∧ hash c = k then none else hc.chainDb.td n k
  headerCache : ∀ k, (hc'.headerCache.get k).1 = none
  headerCache_all : ∀ P, hc'.headerCache.All P
  tdCache_all : ∀ P, hc'.tdCache.All P
  currentHeaderHash : hc'.currentHeaderHash = hash hc'.currentHeader
  current : ∃ l', HeaderBranch hash genesis ws (hc'.currentHeader :: l') ∧
    (∀ c ∈ hc'.currentHeader :: l', c.number ≤ head) ∧
    Follows hash hc'.chainDb.canonicalHash (hc'.currentHeader :: l')

theorem level_dropWhile (ht : HeaderTree hash genesis ws) {x' : Header} {l' : List Header}
    {head : Nat} (hl : HeaderBranch hash genesis ws (x :: l))
    (hdrop : (x :: l).dropWhile (head < ·.number) = x' :: l')
    (hl' : HeaderBranch hash genesis ws (x' :: l')) (hle : x'.number ≤ head) (i : Nat) :
    level (x' :: l') i = if head < i ∧ i ≤ x.number then none else level (x :: l) i := by
  have hnum' := hl'.height_eq ht.height_root
  have hroot : genesis.number ≤ head := by
    rw [ht.height_root]
    exact Nat.zero_le _
  have happ : x :: l = (x :: l).takeWhile (head < ·.number) ++ (x' :: l') := by
    rw [← hdrop, takeWhile_append_dropWhile]
  rcases Nat.lt_or_ge i (x' :: l').length with hi | hi
  · rw [length_cons] at hi
    rw [if_neg (by omega), level, level]
    conv_rhs => rw [happ, reverse_append]
    rw [List.getElem?_append_left (by rw [length_reverse, length_cons]; exact hi)]
  · rw [level_of_le hi]
    split
    · rfl
    · next hkeep =>
      cases hlev : level (x :: l) i with
      | none => rfl
      | some c =>
        -- a header above the branch that is left has been deleted
        obtain ⟨m, hm, hlen, -⟩ := hl.of_level hlev
        have hc : c.number = i := (hm.height_eq ht.height_root).trans hlen
        have hmem : c ∈ x :: l := mem_reverse.1 (mem_of_getElem? hlev)
        have hcx := hl.height_le c hmem
        rw [happ, mem_append] at hmem
        rw [length_cons] at hi
        rcases hmem with htake | hin
        · have := (((hl.split_at hroot).1 c).1 htake).2
          omega
        · have := hl'.height_le c hin
          omega

theorem setHead_eq (h : Linked hash genesis offset ws hc)
    (hl : HeaderBranch hash genesis ws (hc.currentHeader :: l)) (head : Nat)
    (hfuel : l.length < fuel) :
    ∃ hc', setHead hash genesis fuel hc head = .ok hc' ∧
      Rewound hash genesis ws hc (hc.currentHeader :: l) head hc' := by
  have ht := h.tree
  obtain ⟨l0, hl0, hfollow⟩ := h.current
  obtain rfl := ht.unique hl hl0
  obtain ⟨cache, hrewind⟩ := rewind_eq ht head h.stored hl hfuel
  have hroot : genesis.number ≤ head := by
    rw [ht.height_root]
    exact Nat.zero_le _
  obtain ⟨htake, x', l', hdrop, hl', hle⟩ := hl.split_at hroot
  rw [setHead, hrewind]
  dsimp only
  rw [hdrop, List.head?_cons, Option.getD_some, foldl_deleteCanonicalHash]
  obtain ⟨hheader, htd, hcanon⟩ := foldl_deleteHeader hash
    ((hc.currentHeader :: l).takeWhile (head < ·.number)) hc.chainDb
  have hiff : ∀ n k, (∃ c ∈ (hc.currentHeader :: l).takeWhile (head < ·.number),
      c.number = n ∧ hash c = k) ↔
      ∃ c ∈ hc.currentHeader :: l, head < c.number ∧ c.number = n ∧ hash c = k := by
    intro n k
    constructor
    · rintro ⟨c, hc, hk⟩
      obtain ⟨hmem, hlt⟩ := (htake c).1 hc
      exact ⟨c, hmem, hlt, hk⟩
    · rintro ⟨c, hmem, hlt, hk⟩
      exact ⟨c, (htake c).2 ⟨hmem, hlt⟩, hk⟩
  refine ⟨_, rfl, fun n k => ?_, fun n k => ?_, fun k => rfl, fun P => Lru.all_purge _,
    fun P => Lru.all_purge _, rfl, l', hl', fun c hc => ?_, fun i => ?_⟩
  · rw [hheader n k]
    exact if_congr (hiff n k) rfl rfl
  · rw [htd n k]
    exact if_congr (hiff n k) rfl rfl
  · exact Nat.le_trans (hl'.height_le c hc) hle
  · dsimp only
    rw [hcanon, hfollow i, level_dropWhile ht hl hdrop hl' hle]
    have hmem : i ∈ (List.range' (head + 1) (hc.currentHeader.number - head)).reverse ↔
        head < i ∧ i ≤ hc.currentHeader.number := by
      rw [mem_reverse, mem_range'_1]
      omega
    by_cases hi : head < i ∧ i ≤ hc.currentHeader.number
    · rw [if_pos (hmem.2 hi), if_pos hi]
      rfl
    · rw [if_neg fun hc => hi (hmem.1 hc), if_neg hi]

section Rewound

variable {head : Nat} {hc' : HeaderChain} {l : List Header}
  (h : Sound hash genesis offset U ws hc)
  (hl : HeaderBranch hash genesis ws (hc.currentHeader :: l))
  (hr : Rewound hash genesis ws hc (hc.currentHeader :: l) head hc')

include h hl hr

theorem Rewound.header_eq (hw : w ∈ ws) (hkeep : ¬ (w ∈ hc.currentHeader :: l ∧ head < w.number)) :
    hc'.chainDb.header w.number (hash w) = some w ∧
      hc'.chainDb.td w.number (hash w) = hc.chainDb.td w.number (hash w) := by
  have hnot : ¬ ∃ c ∈ hc.currentHeader :: l, head < c.number ∧ c.number = w.number ∧
      hash c = hash w := by
    rintro ⟨c, hc, hlt, -, heq⟩
    have hcw := h.linked.tree.inj c (hl.mem h.linked.tree.root_mem c hc) w hw heq
    subst hcw
    exact hkeep ⟨hc, hlt⟩
  rw [hr.header, if_neg hnot, hr.td, if_neg hnot]
  exact ⟨h.linked.stored.header w hw, rfl⟩

theorem Rewound.sound (hclean : Clean hc head) : ∃ ws', (∀ w ∈ ws', w ∈ ws) ∧
    Sound hash genesis offset U ws' hc' := by
  have ht := h.linked.tree
  obtain ⟨l', hl', hlow, hfollow⟩ := hr.current
  let ws' := ws.filter fun w => ¬ (w ∈ hc.currentHeader :: l ∧ head < w.number)
  have hmem : ∀ w, w ∈ ws' ↔ w ∈ ws ∧ ¬ (w ∈ hc.currentHeader :: l ∧ head < w.number) := by
    intro w
    simp only [ws', mem_filter, decide_eq_true_eq]
  have hsub : ∀ w ∈ ws', w ∈ ws := fun w hw => ((hmem w).1 hw).1
  have htree : HeaderTree hash genesis ws' := by
    refine ⟨(hmem _).2 ⟨ht.root_mem, fun hc => ?_⟩, ht.height_root,
      fun x hx y hy => ht.inj x (hsub x hx) y (hsub y hy), fun x hx => ?_⟩
    · have := hc.2
      rw [ht.height_root] at this
      exact Nat.not_lt_zero _ this
    · obtain ⟨hxs, hkeep⟩ := (hmem x).1 hx
      refine (ht.parent x hxs).imp id ?_
      rintro ⟨y, hy, hxy⟩
      refine ⟨y, (hmem y).2 ⟨hy, ?_⟩, hxy⟩
      -- the parent was deleted: then so was the header
      rintro ⟨hyl, hlt⟩
      obtain ⟨m', hm'⟩ := ht.branch hy
      have hx' : HeaderBranch hash genesis ws (x :: y :: m') := .child hxs hxy hm'
      have hanc : Ancestor hc.chainDb hc.currentHeader x :=
        hclean x.number (hash x) x (h.linked.stored.header x hxs) y ((h.ancestor_iff hl).2 hyl) hlt
          ((h.ancestor_iff hx').2 (mem_cons_of_mem x mem_cons_self))
      refine hkeep ⟨(h.ancestor_iff hl).1 hanc, ?_⟩
      rw [hxy.2]
      exact Nat.lt_succ_of_lt hlt
  have hheader : ∀ w ∈ ws', _ := fun w hw =>
    hr.header_eq h hl (hsub w hw) ((hmem w).1 hw).2
  refine ⟨ws', hsub, h.forest, fun w hw => h.mem w (hsub w hw), ⟨htree,
    fun w hw => h.linked.hash_ne_zero w (hsub w hw), ⟨fun w hw => (hheader w hw).1,
      fun w m hm => ?_, hr.headerCache_all _, hr.tdCache_all _⟩, hr.currentHeaderHash, l', ?_,
      hfollow⟩, ?_⟩
  · rw [(hheader w (hm.mem htree.root_mem w mem_cons_self)).2]
    exact h.linked.stored.td w m (hm.mono hsub)
  · refine hl'.of_mem fun c hc => (hmem c).2 ⟨hl'.mem ht.root_mem c hc, fun hdel => ?_⟩
    exact absurd (hlow c hc) (Nat.not_le.2 hdel.2)
  · constructor
    · intro n k w hw
      rw [hr.header] at hw
      split at hw
      · cases hw
      · next hnot =>
        obtain ⟨hws, hk, hn⟩ := h.only.header hw
        exact ⟨(hmem w).2 ⟨hws, fun hdel => hnot ⟨w, hdel.1, hdel.2, hn, hk⟩⟩, hk, hn⟩
    · intro n k td htd
      rw [hr.td] at htd
      split at htd
      · cases htd
      · next hnot =>
        obtain ⟨w, hws, hk, hn⟩ := h.only.td htd
        exact ⟨w, (hmem w).2 ⟨hws, fun hdel => hnot ⟨w, hdel.1, hdel.2, hn, hk⟩⟩, hk, hn⟩

omit hl in
theorem Rewound.not_deleted (hw : HasAncestors genesis hc' w)
    (hstored : hc'.chainDb.header w.number (hash w) = some w) :
    ∀ {c : Header}, Ancestor hc.chainDb w c → ∃ n k, hc'.chainDb.header n k = some c := by
  induction hw with
  | genesis =>
    intro c hwc
    rcases Relation.ReflTransGen.cases_head hwc with heq | ⟨z, hz, -⟩
    · exact heq ▸ ⟨_, _, hstored⟩
    · rw [h.parent_genesis] at hz
      cases hz
  | @child w y td hget htd hy ih =>
    intro c hwc
    rcases Relation.ReflTransGen.cases_head hwc with heq | ⟨z, hz, hrest⟩
    · exact heq ▸ ⟨_, _, hstored⟩
    · -- the caches are empty, so the parent comes from the database
      have hdb : hc'.chainDb.header (uint64Pred w.number) w.parentHash = some y := by
        rw [getHeader] at hget
        split at hget
        · next hcache =>
          have := hr.headerCache w.parentHash
          rw [hcache] at this
          cases this
        · split at hget
          · cases hget
          · next hdb =>
            cases hget
            exact hdb
      have hold : hc.chainDb.header (uint64Pred w.number) w.parentHash = some y := by
        have := hdb
        rw [hr.header] at this
        split at this
        · cases this
        · exact this
      rw [hold] at hz
      cases hz
      obtain ⟨-, hk, hn⟩ := h.only.header hold
      refine ih ?_ hrest
      rw [hk, hn]
      exact hdb

theorem Rewound.clean (hclosed : AncestorClosed genesis hc') : Clean hc head := by
  intro n k w hw c hcur hlt hwc
  obtain ⟨hws, hk, hn⟩ := h.only.header hw
  rw [h.ancestor_iff hl] at hcur ⊢
  by_contra hoff
  have hkept := (hr.header_eq h hl hws fun hdel => hoff hdel.1).1
  obtain ⟨n', k', hc'⟩ := hr.not_deleted h (hclosed w ⟨_, _, .inr hkept⟩) hkept hwc
  rw [hr.header] at hc'
  split at hc'
  · cases hc'
  · next hnot =>
    obtain ⟨-, hk', hn'⟩ := h.only.header hc'
    exact hnot ⟨c, hcur, hlt, hn', hk'⟩

end Rewound

/-! ## Whole runs -/

section Runs

variable (hash : Header → Hash) (genesis : Header) (fuel : Nat)

/-- No call of the run meets a missing header, and after every call the stored headers are closed
under ancestors. -/
def ClosedAlong : HeaderChain → List Call → Prop
  | hc, [] => AncestorClosed genesis hc
  | hc, op :: ops => AncestorClosed genesis hc ∧
    match call hash genesis fuel hc op with
    | none => False
    | some hc => ClosedAlong hc ops

/-- The call, if it is a rewind, leaves no branch behind. -/
def Call.Clean (hc : HeaderChain) : Call → Prop
  | .setHead head => HeaderChain.Clean hc head
  | .writeHeader .. => True

/-- No rewind of the run leaves a branch behind. -/
def CleanAlong : HeaderChain → List Call → Prop
  | _, [] => True
  | hc, op :: ops => op.Clean hc ∧
    match call hash genesis fuel hc op with
    | none => True
    | some hc => CleanAlong hc ops

variable {hash genesis fuel}

theorem ClosedAlong.isSome {ops : List Call} : ∀ {hc : HeaderChain},
    ClosedAlong hash genesis fuel hc ops → (ops.foldlM (call hash genesis fuel) hc).isSome
      = true := by
  induction ops with
  | nil => exact fun _ => rfl
  | cons op ops ih =>
    intro hc h
    rw [ClosedAlong] at h
    rw [foldlM_cons]
    cases hcall : call hash genesis fuel hc op with
    | none =>
      rw [hcall] at h
      exact h.2.elim
    | some hc' =>
      rw [hcall] at h
      exact ih h.2

theorem cleanAlong_of_writes {ops : List Call} (h : ∀ op ∈ ops, ∃ x coin, op = .writeHeader x coin)
    :
    ∀ {hc : HeaderChain}, CleanAlong hash genesis fuel hc ops := by
  induction ops with
  | nil => exact trivial
  | cons op ops ih =>
    obtain ⟨x, coin, rfl⟩ := h op mem_cons_self
    refine ⟨trivial, ?_⟩
    split
    · trivial
    · exact ih fun op hop => h op (mem_cons_of_mem _ hop)

end Runs

/-- A rewind succeeds; afterwards the chain is sound if it leaves no branch behind, and only then
are its headers closed under ancestors. -/
theorem Sound.setHead (h : Sound hash genesis offset U ws hc)
    (hfuel : ∀ w ∈ ws, w.number + 1 < fuel) (head : Nat) :
    ∃ hc', call hash genesis fuel hc (.setHead head) = some hc' ∧
      (Clean hc head → ∃ ws', (∀ w ∈ ws', w ∈ ws) ∧ Sound hash genesis offset U ws' hc') ∧
      (AncestorClosed genesis hc' → Clean hc head) := by
  obtain ⟨l, hl, -⟩ := h.linked.current
  have ht := h.linked.tree
  have hlen : l.length < fuel := by
    rw [← hl.height_eq ht.height_root]
    exact Nat.lt_of_succ_lt (hfuel _ (hl.mem ht.root_mem _ mem_cons_self))
  obtain ⟨hc', heq, hr⟩ := setHead_eq h.linked hl head hlen
  exact ⟨hc', by rw [call, heq], hr.sound h hl, hr.clean h hl⟩

theorem Sound.closedAlong_iff (ops : List Call) : ∀ {ws : List Header} {hc : HeaderChain}
    {fuel : Nat},
    Sound hash genesis offset U ws hc →
    (∀ x coin, Call.writeHeader x coin ∈ ops → x ∈ U) →
    (∀ w ∈ ws, w.number + 1 + ops.length < fuel) →
    (ClosedAlong hash genesis fuel hc ops ↔ CleanAlong hash genesis fuel hc ops) := by
  induction ops with
  | nil => exact fun h _ _ => iff_of_true h.closed trivial
  | cons op ops ih =>
    intro ws hc fuel h hmem hfuel
    have hfuel' : ∀ w ∈ ws, w.number + 1 < fuel :=
      fun w hw => Nat.lt_of_le_of_lt (Nat.le_add_right ..) (hfuel w hw)
    have hrest : ∀ x coin, Call.writeHeader x coin ∈ ops → x ∈ U :=
      fun x coin hx => hmem x coin (mem_cons_of_mem op hx)
    rw [ClosedAlong, CleanAlong]
    cases op with
    | writeHeader x coin =>
      obtain ⟨hc', ws', heq, h', hnum⟩ := h.write (hmem x coin mem_cons_self) hfuel' coin
      rw [heq]
      have hfuel'' : ∀ w ∈ ws', w.number + 1 + ops.length < fuel := by
        intro w hw
        rcases hnum w hw with hw | ⟨y, hy, hwy⟩
        · have := hfuel w hw
          rw [length_cons] at this
          omega
        · have := hfuel y hy
          rw [length_cons] at this
          omega
      dsimp only
      rw [ih h' hrest hfuel'']
      exact ⟨fun hcl => ⟨trivial, hcl.2⟩, fun hcl => ⟨h.closed, hcl.2⟩⟩
    | setHead head =>
      obtain ⟨hc', heq, hsound, hclean⟩ := h.setHead hfuel' head
      rw [heq]
      have hgo : Clean hc head →
          (ClosedAlong hash genesis fuel hc' ops ↔ CleanAlong hash genesis fuel hc' ops) := by
        intro hcl
        obtain ⟨ws', hsub, h'⟩ := hsound hcl
        refine ih h' hrest fun w hw => ?_
        have := hfuel w (hsub w hw)
        rw [length_cons] at this
        omega
      constructor
      · rintro ⟨-, hrun⟩
        have hcl : Clean hc head := by
          refine hclean ?_
          cases ops with
          | nil => exact hrun
          | cons op ops => exact hrun.1
        exact ⟨hcl, (hgo hcl).1 hrun⟩
      · rintro ⟨hcl, hrun⟩
        exact ⟨h.closed, (hgo hcl).2 hrun⟩

/-- A rewind by one block leaves no branch behind when nothing is higher than the head. -/
theorem Sound.clean (h : Sound hash genesis offset U ws hc) {head : Nat}
    (hlow : ∀ w ∈ U, w.number ≤ head + 1) : Clean hc head := by
  intro n k w hw c hcur hlt hanc
  have hmem := (h.only.header hw).1
  obtain ⟨l, hl⟩ := h.linked.tree.branch hmem
  rcases mem_cons.1 ((h.ancestor_iff hl).1 hanc) with rfl | hc
  · exact hcur
  · cases hl with
    | root => cases hc
    | child _ hwy hy =>
      have hle := hy.height_le c hc
      have hlow' := hlow w (h.mem w hmem)
      have hsucc := hwy.2
      omega

/-- Writes, a rewind by one block, and writes again. -/
theorem Sound.cleanAlong {head : Nat} {rest : List Call} (hlow : ∀ w ∈ U, w.number ≤ head + 1)
    (hfuel : head + 2 < fuel) (hrest : ∀ op ∈ rest, ∃ x coin, op = .writeHeader x coin)
    (ops : List Call) : ∀ {ws : List Header} {hc : HeaderChain},
    Sound hash genesis offset U ws hc → (∀ op ∈ ops, ∃ x ∈ U, ∃ coin, op = .writeHeader x coin) →
      CleanAlong hash genesis fuel hc (ops ++ .setHead head :: rest) := by
  induction ops with
  | nil =>
    intro ws hc h _
    refine ⟨h.clean hlow, ?_⟩
    split
    · trivial
    · exact cleanAlong_of_writes hrest
  | cons op ops ih =>
    intro ws hc h hops
    obtain ⟨x, hx, coin, rfl⟩ := hops op mem_cons_self
    have hfuel' : ∀ w ∈ ws, w.number + 1 < fuel := by
      intro w hw
      have := hlow w (h.mem w hw)
      omega
    obtain ⟨hc', ws', heq, h', -⟩ := h.write hx hfuel' coin
    refine ⟨trivial, ?_⟩
    rw [heq]
    exact ih h' fun op hop => hops op (mem_cons_of_mem _ hop)

theorem new_sound (hU : Forest hash genesis U) (td : Int) :
    ∃ hc, new hash (ChainDb.commitGenesis genesis (hash genesis) td) = .ok hc ∧
      Sound hash genesis (td - genesis.difficulty) U [genesis] hc := by
  obtain ⟨hc, hnew, hfork⟩ :=
    new_forkChoice hash hU.genesis_number (hU.hash_ne_zero genesis hU.genesis_mem) td
  refine ⟨hc, hnew, hU, fun w hw => ?_, hfork.linked, ?_⟩
  · rw [mem_singleton.1 hw]
    exact hU.genesis_mem
  · have hdb := new_chainDb hnew
    have hempty : Only hash [] (HeaderChain.mk ChainDb.empty genesis Hash.zero (Lru.new 0)
      (Lru.new 0) (Lru.new 0)) := ⟨nofun, nofun⟩
    refine hempty.write (x := genesis) td ?_ ?_
    · rw [hdb]
      rfl
    · rw [hdb]
      rfl

/-- The stored headers stay closed under ancestors, and no call meets a missing header, if and only
if no rewind leaves a branch behind: over every tree of headers and every sequence of calls. -/
theorem closedAlong_iff_cleanAlong (hash : Header → Hash) (genesis : Header) (td : Int)
    {U : Set Header} (hU : Forest hash genesis U) (ops : List Call)
    (hops : ∀ x coin, Call.writeHeader x coin ∈ ops → x ∈ U) :
    ∃ hc, new hash (ChainDb.commitGenesis genesis (hash genesis) td) = .ok hc ∧
      ∀ fuel > ops.length + 1,
        (ClosedAlong hash genesis fuel hc ops ↔ CleanAlong hash genesis fuel hc ops) := by
  obtain ⟨hc, hnew, hsound⟩ := new_sound hU td
  refine ⟨hc, hnew, fun fuel hfuel => hsound.closedAlong_iff ops hops fun w hw => ?_⟩
  rw [List.mem_singleton.1 hw, hU.genesis_number]
  omega

namespace Sample

/-- A second child of `light`. -/
def side : Header := header (extraHash light) 2 1 [5]

/-- A child of `side`. -/
def sideTip : Header := header (extraHash side) 3 1 [6]

def sampleTree : List Header := [origin, light, lighter, side, sideTip]

theorem forest_sampleTree : Forest extraHash origin { x | x ∈ sampleTree } := by
  refine ⟨by decide +kernel, rfl, ?_, ?_, ?_, ?_⟩
  · change ∀ x ∈ sampleTree, extraHash x ≠ origin.parentHash
    decide
  · change ∀ x ∈ sampleTree, extraHash x ≠ Hash.zero
    decide
  · have : ∀ x ∈ sampleTree, ∀ y ∈ sampleTree, extraHash x = extraHash y → x = y := by
      decide +kernel
    exact fun x hx y hy => this x hx y hy
  · have : ∀ x ∈ sampleTree, x = origin ∨ ∃ y ∈ sampleTree,
        x.parentHash = extraHash y ∧ x.number = y.number + 1 := by decide +kernel
    exact this

/-- A fork in which the side branch takes over, a rewind of its tip, and the tip once more. -/
def reorgCalls : List Call :=
  [.writeHeader light true, .writeHeader lighter true, .writeHeader side false,
    .writeHeader sideTip true, .setHead 2, .writeHeader sideTip true]

theorem closedAlong_reorgCalls :
    ∃ hc, new extraHash (ChainDb.commitGenesis origin (extraHash origin) 1) = .ok hc ∧
      ClosedAlong extraHash origin 8 hc reorgCalls := by
  have hlow : ∀ w ∈ { x | x ∈ sampleTree }, w.number ≤ 2 + 1 := by
    change ∀ w ∈ sampleTree, w.number ≤ 2 + 1
    decide
  have hmem : ∀ op ∈ reorgCalls, op = .setHead 2 ∨
      ∃ x ∈ sampleTree, ∃ coin, op = .writeHeader x coin := by
    simp [reorgCalls, sampleTree]
  obtain ⟨hc, hnew, hiff⟩ := closedAlong_iff_cleanAlong extraHash origin 1 forest_sampleTree
    reorgCalls fun x coin hx => by
      obtain ⟨y, hy, coin', heq⟩ := (hmem _ hx).resolve_left (by rintro ⟨⟩)
      cases heq
      exact hy
  obtain ⟨hc', hnew', hsound⟩ := new_sound forest_sampleTree 1
  cases hnew.symm.trans hnew'
  refine ⟨hc, hnew, (hiff 8 (by decide)).2 ?_⟩
  refine hsound.cleanAlong hlow (by decide) (by simp) [.writeHeader light true,
    .writeHeader lighter true, .writeHeader side false, .writeHeader sideTip true] ?_
  simp [sampleTree]

/-- A fork, a rewind below it, and a header on the branch that is left behind. -/
def forkedCalls : List Call :=
  [.writeHeader light true, .writeHeader lighter true, .writeHeader side false, .setHead 0,
    .writeHeader sideTip true]

theorem forkedCalls_isNone :
    (match new extraHash (ChainDb.commitGenesis origin (extraHash origin) 1) with
      | .ok hc => (forkedCalls.foldlM (call extraHash origin 9) hc).isNone
      | .error _ => false) = true := by
  decide +kernel

/-- The last call dereferences a nil header. -/
theorem not_closedAlong_forkedCalls :
    ∃ hc, new extraHash (ChainDb.commitGenesis origin (extraHash origin) 1) = .ok hc ∧
      Forest extraHash origin { x | x ∈ sampleTree } ∧
      forkedCalls.foldlM (call extraHash origin 9) hc = none ∧
      ¬ ClosedAlong extraHash origin 9 hc forkedCalls := by
  have hrun := forkedCalls_isNone
  split at hrun
  · next hc hnew =>
    have hnone := Option.isNone_iff_eq_none.1 hrun
    refine ⟨hc, hnew, forest_sampleTree, hnone, fun hclosed => ?_⟩
    have := hclosed.isSome
    rw [hnone] at this
    cases this
  · cases hrun

end Sample

end Geth.Core.HeaderChain
