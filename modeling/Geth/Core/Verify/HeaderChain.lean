import Geth.Core.HeaderChain
import Geth.Lib.Branch

/-!
# Fork choice of the header chain

The written headers form a tree. After every call of `WriteHeader` the current header is a heaviest
one, and the canonical hashes are those of its branch, level by level. Both loops of `WriteHeader`
end because the canonical hashes before the call are those of a branch too: the upward loop stops
above its head, the downward loop where the two branches meet.
-/

namespace Geth.Core

open Lib Function List Option

/-- The sum of the difficulties of a branch. -/
def totalDifficulty (l : List Header) : Int := (l.map Header.difficulty).sum

namespace HeaderChain

section

variable (hash : Header → Hash) (genesis : Header)

/-- The ancestors of a written header, from it down to the genesis header. -/
abbrev HeaderBranch (ws l : List Header) : Prop :=
  Branch hash Header.parentHash Header.number genesis ws l

/-- The written headers are closed under parents and have distinct hashes. -/
abbrev HeaderTree (ws : List Header) : Prop :=
  Tree hash Header.parentHash Header.number genesis ws

/-- The total difficulty that the chain stores under a hash; `offset` is what the genesis
specification has over the difficulty of the genesis header. -/
def TdOf (offset : Int) (ws : List Header) (k : Hash) (td : Int) : Prop :=
  ∃ w l, HeaderBranch hash genesis ws (w :: l) ∧ hash w = k ∧ td = totalDifficulty (w :: l) + offset

/-- The written headers are stored with their total difficulties, and the caches hold nothing
else. -/
structure Stored (offset : Int) (ws : List Header) (hc : HeaderChain) : Prop where
  header : ∀ w ∈ ws, hc.chainDb.header w.number (hash w) = some w
  td : ∀ w l, HeaderBranch hash genesis ws (w :: l) →
    hc.chainDb.td w.number (hash w) = some (totalDifficulty (w :: l) + offset)
  headerCache : hc.headerCache.All fun k w => w ∈ ws ∧ hash w = k
  tdCache : hc.tdCache.All (TdOf hash genesis offset ws)

/-- The canonical hashes are those of a branch. -/
def Follows (canonicalHash : Nat → Option Hash) (l : List Header) : Prop :=
  ∀ i, canonicalHash i = (level l i).map hash

/-- The current header is a heaviest one and the canonical hashes are those of its branch. -/
structure ForkChoice (offset : Int) (ws : List Header) (hc : HeaderChain) : Prop where
  tree : HeaderTree hash genesis ws
  hash_ne_zero : ∀ w ∈ ws, hash w ≠ Hash.zero
  stored : Stored hash genesis offset ws hc
  currentHeaderHash : hc.currentHeaderHash = hash hc.currentHeader
  current : ∃ l, HeaderBranch hash genesis ws (hc.currentHeader :: l) ∧
    Follows hash hc.chainDb.canonicalHash (hc.currentHeader :: l) ∧
    ∀ w l', HeaderBranch hash genesis ws (w :: l') →
      totalDifficulty (w :: l') ≤ totalDifficulty (hc.currentHeader :: l)

/-- The part of the fork choice that does not say that the current header is a heaviest one. -/
structure Linked (offset : Int) (ws : List Header) (hc : HeaderChain) : Prop where
  tree : HeaderTree hash genesis ws
  hash_ne_zero : ∀ w ∈ ws, hash w ≠ Hash.zero
  stored : Stored hash genesis offset ws hc
  currentHeaderHash : hc.currentHeaderHash = hash hc.currentHeader
  current : ∃ l, HeaderBranch hash genesis ws (hc.currentHeader :: l) ∧
    Follows hash hc.chainDb.canonicalHash (hc.currentHeader :: l)

end

variable {hash : Header → Hash} {genesis : Header} {offset : Int} {ws : List Header}
  {hc : HeaderChain}

theorem ForkChoice.linked (h : ForkChoice hash genesis offset ws hc) :
    Linked hash genesis offset ws hc :=
  let ⟨l, hl, hfollow, _⟩ := h.current
  ⟨h.tree, h.hash_ne_zero, h.stored, h.currentHeaderHash, l, hl, hfollow⟩

theorem Linked.forkChoice (h : Linked hash genesis offset ws hc)
    (hmax : ∃ l, HeaderBranch hash genesis ws (hc.currentHeader :: l) ∧
      ∀ w l', HeaderBranch hash genesis ws (w :: l') →
        totalDifficulty (w :: l') ≤ totalDifficulty (hc.currentHeader :: l)) :
    ForkChoice hash genesis offset ws hc := by
  obtain ⟨l, hl, hfollow⟩ := h.current
  obtain ⟨l', hl', hmax⟩ := hmax
  obtain rfl := h.tree.unique hl hl'
  exact ⟨h.tree, h.hash_ne_zero, h.stored, h.currentHeaderHash, l, hl, hfollow, hmax⟩

/-! ## Reads leave the database alone -/

theorem getBlockNumber_chainDb (hc : HeaderChain) (k : Hash) :
    (hc.getBlockNumber k).2.chainDb = hc.chainDb := by
  rw [getBlockNumber]
  split
  · rfl
  · split <;> rfl

theorem getTd_chainDb (hc : HeaderChain) (k : Hash) (n : Nat) :
    (hc.getTd k n).2.chainDb = hc.chainDb := by
  rw [getTd]
  split
  · rfl
  · split <;> rfl

theorem getHeader_chainDb (hc : HeaderChain) (k : Hash) (n : Nat) :
    (hc.getHeader k n).2.chainDb = hc.chainDb := by
  rw [getHeader]
  split
  · rfl
  · split <;> rfl

theorem getHeaderByHash_chainDb (hc : HeaderChain) (k : Hash) :
    (hc.getHeaderByHash k).2.chainDb = hc.chainDb := by
  have hnum := getBlockNumber_chainDb hc k
  rw [getHeaderByHash]
  split
  · next heq =>
    rw [heq] at hnum
    exact hnum
  · next heq =>
    rw [heq] at hnum
    exact (getHeader_chainDb _ _ _).trans hnum

variable {db : ChainDb} {w x y : Header} {l old : List Header} {fuel : Nat}

theorem new_chainDb {hc : HeaderChain} (h : new hash db = .ok hc) : hc.chainDb = db := by
  unfold new at h
  dsimp only at h
  split at h
  · cases h
  · split at h
    · cases h
    · next header _ =>
      cases h
      have hread := getHeaderByHash_chainDb (HeaderChain.mk db header Hash.zero
        ((Lru.new 512).add (db.readCanonicalHash 0) header) (Lru.new 1024) (Lru.new 2048))
        db.headBlockHash
      split
      · split
        · next heq => rwa [heq] at hread
        · next heq => rwa [heq] at hread
      · rfl

/-! ## Reads through the caches -/

theorem Stored.reassign (h : Stored hash genesis offset ws hc) (canonicalHash : Nat → Option Hash)
    {cache : Lru Hash Header} (hcache : cache.All fun k w => w ∈ ws ∧ hash w = k) :
    Stored hash genesis offset ws { hc with
        chainDb := { hc.chainDb with canonicalHash := canonicalHash }, headerCache := cache } :=
  ⟨h.header, h.td, hcache, h.tdCache⟩

theorem Stored.recache (h : Stored hash genesis offset ws hc) {cache : Lru Hash Int}
    (hcache : cache.All (TdOf hash genesis offset ws)) :
    Stored hash genesis offset ws { hc with tdCache := cache } :=
  ⟨h.header, h.td, h.headerCache, hcache⟩

theorem getHeader_eq (ht : HeaderTree hash genesis ws) (h : Stored hash genesis offset ws hc)
    (hw : w ∈ ws) :
    ∃ cache, hc.getHeader (hash w) w.number = (some w, { hc with headerCache := cache }) ∧
      cache.All fun k w => w ∈ ws ∧ hash w = k := by
  have hall := h.headerCache.get (hash w)
  rw [getHeader]
  split
  case h_1 v cache hget =>
    have hv := h.headerCache.get_eq (congrArg Prod.fst hget)
    rw [hget] at hall
    rw [ht.inj v hv.1 w hw hv.2]
    exact ⟨cache, rfl, hall⟩
  case h_2 cache hget =>
    rw [hget] at hall
    rw [h.header w hw]
    exact ⟨cache.add (hash w) w, rfl, hall.add ⟨hw, rfl⟩⟩

theorem getTd_eq (ht : HeaderTree hash genesis ws) (h : Stored hash genesis offset ws hc)
    (hl : HeaderBranch hash genesis ws (w :: l)) :
    ∃ cache, hc.getTd (hash w) w.number =
        (some (totalDifficulty (w :: l) + offset), { hc with tdCache := cache }) ∧
      cache.All (TdOf hash genesis offset ws) := by
  have hall := h.tdCache.get (hash w)
  rw [getTd]
  split
  case h_1 v cache hget =>
    obtain ⟨w', l', hl', hkey, rfl⟩ := h.tdCache.get_eq (congrArg Prod.fst hget)
    rw [hget] at hall
    obtain rfl : w' = w := ht.inj w' (hl'.mem ht.root_mem w' mem_cons_self) w
      (hl.mem ht.root_mem w mem_cons_self) hkey
    rw [ht.unique hl hl']
    exact ⟨cache, rfl, hall⟩
  case h_2 cache hget =>
    rw [hget] at hall
    rw [h.td w l hl]
    exact ⟨_, rfl, hall.add ⟨w, l, hl, rfl, rfl⟩⟩

/-! ## The two loops -/

theorem assignedFrom_eq (hl : Follows hash db.canonicalHash l) (hzero : ∀ w ∈ l, hash w ≠ Hash.zero)
    {i : Nat} (hfuel : l.length - i < fuel) :
    ∃ batch, assignedFrom db fuel i = some batch ∧ ∀ j, j ∈ batch ↔ i ≤ j ∧ j < l.length := by
  induction fuel generalizing i with
  | zero => exact absurd hfuel (Nat.not_lt_zero _)
  | succ fuel ih =>
    rw [assignedFrom, ChainDb.readCanonicalHash, hl i]
    rcases Nat.lt_or_ge i l.length with hi | hi
    · obtain ⟨w, hw⟩ : ∃ w, level l i = some w :=
        ⟨_, List.getElem?_eq_getElem (by rwa [length_reverse])⟩
      have hmem : w ∈ l := mem_reverse.mp (mem_of_getElem? hw)
      obtain ⟨batch, hbatch, hiff⟩ := ih (i := i + 1) (by omega)
      rw [hw, map_some, getD_some, if_neg (hzero w hmem), hbatch]
      refine ⟨i :: batch, rfl, fun j => ?_⟩
      rw [mem_cons, hiff]
      omega
    · rw [level_of_le hi, map_none, getD_none, if_pos rfl]
      refine ⟨[], rfl, fun j => ?_⟩
      simp only [not_mem_nil, false_iff]
      omega

theorem foldl_deleteCanonicalHash (batch : List Nat) (db : ChainDb) :
    batch.foldl ChainDb.deleteCanonicalHash db =
      { db with canonicalHash := fun j => if j ∈ batch then none else db.canonicalHash j } := by
  induction batch generalizing db with
  | nil => simp
  | cons i batch ih =>
    rw [foldl_cons, ih, ChainDb.deleteCanonicalHash]
    congr 1
    funext j
    by_cases hj : j = i
    · simp [hj]
    · simp [hj, update_of_ne]

section Reroute

variable (ht : HeaderTree hash genesis ws) (hzero : ∀ w ∈ ws, hash w ≠ Hash.zero)
  (hold : HeaderBranch hash genesis ws old)
include ht hzero hold

theorem level_eq_of_readCanonicalHash (hl : HeaderBranch hash genesis ws (x :: l))
    (hdb : db.canonicalHash l.length = (level old l.length).map hash)
    (hread : db.readCanonicalHash l.length = hash x) {i : Nat} (hi : i ≤ l.length) :
    level old i = level (x :: l) i := by
  have hx : x ∈ ws := hl.mem ht.root_mem x mem_cons_self
  rw [ChainDb.readCanonicalHash, hdb] at hread
  cases hw : level old l.length with
  | none =>
    rw [hw] at hread
    exact absurd hread.symm (hzero x hx)
  | some w =>
    rw [hw] at hread
    have hmem : w ∈ old := mem_reverse.mp (mem_of_getElem? hw)
    obtain rfl : w = x := ht.inj w (hold.mem ht.root_mem w hmem) x hx hread
    exact ht.agree hold hl hw (level_head w l) hi

/-- The downward loop puts the canonical hashes on the branch of its start, given that up to there
they are those of some branch. -/
theorem reroute_eq (h : Stored hash genesis offset ws hc) (hl : HeaderBranch hash genesis ws (x :: l))
    (hfollow : ∀ i ≤ l.length, hc.chainDb.canonicalHash i = (level old i).map hash)
    (hfuel : l.length < fuel) :
    ∃ canonicalHash cache, reroute fuel hc (hash x) l.length (some x) = .ok { hc with
          chainDb := { hc.chainDb with canonicalHash := canonicalHash }, headerCache := cache } ∧
      (cache.All fun k w => w ∈ ws ∧ hash w = k) ∧
      (∀ i ≤ l.length, canonicalHash i = (level (x :: l) i).map hash) ∧
      ∀ i, l.length < i → canonicalHash i = hc.chainDb.canonicalHash i := by
  induction l generalizing x fuel hc with
  | nil =>
    obtain ⟨fuel, rfl⟩ := Nat.exists_eq_succ_of_ne_zero (Nat.ne_of_gt hfuel)
    cases hl
    -- Every branch ends in the genesis header, so the loop stops here at the latest.
    have hread : hc.chainDb.readCanonicalHash 0 = hash genesis := by
      rw [ChainDb.readCanonicalHash, hfollow 0 (Nat.le_refl 0), hold.level_zero]
      rfl
    rw [reroute, length_nil, if_pos hread]
    refine ⟨_, _, rfl, h.headerCache, fun i hi => ?_, fun _ _ => rfl⟩
    rw [hfollow i hi, level_eq_of_readCanonicalHash ht hzero hold .root (hfollow 0 (Nat.le_refl 0))
      hread hi]
  | cons y l ih =>
    obtain ⟨fuel, rfl⟩ := Nat.exists_eq_succ_of_ne_zero (Nat.ne_of_gt (Nat.zero_lt_of_lt hfuel))
    rw [reroute]
    by_cases hread : hc.chainDb.readCanonicalHash (y :: l).length = hash x
    · rw [if_pos hread]
      refine ⟨_, _, rfl, h.headerCache, fun i hi => ?_, fun _ _ => rfl⟩
      rw [hfollow i hi,
        level_eq_of_readCanonicalHash ht hzero hold hl (hfollow _ (Nat.le_refl _)) hread hi]
    · rw [if_neg hread]
      cases hl with
      | child hx hxy hy =>
        have hnumber : y.number = l.length := hy.height_eq ht.height_root
        have hpred : uint64Pred x.number = y.number := by rw [hxy.2, uint64Pred_succ]
        generalize hc1 : { hc with
          chainDb := hc.chainDb.writeCanonicalHash (hash x) (y :: l).length } = hc'
        have hstored : Stored hash genesis offset ws hc' := by
          subst hc1
          exact h.reassign _ h.headerCache
        obtain ⟨cache, hget, hcache⟩ :=
          getHeader_eq ht hstored (hy.mem ht.root_mem y mem_cons_self)
        dsimp only
        rw [hpred, hxy.1, hget, hnumber]
        subst hc1
        have hbelow : ∀ i ≤ l.length, update hc.chainDb.canonicalHash (y :: l).length
            (some (hash x)) i = (level old i).map hash := by
          intro i hi
          rw [update_of_ne (by rw [length_cons]; omega)]
          exact hfollow i (by rw [length_cons]; omega)
        obtain ⟨canonicalHash, cache', heq, hcache', hle, hgt⟩ :=
          ih (hstored.reassign _ hcache) hy hbelow (by simpa using hfuel)
        refine ⟨canonicalHash, cache', heq, hcache', fun i hi => ?_, fun i hi => ?_⟩
        · rw [level_cons]
          split
          case isTrue hi' =>
            rw [hi', hgt _ (by simp)]
            exact update_self ..
          case isFalse hi' =>
            rw [length_cons] at hi hi'
            exact hle i (by omega)
        · rw [length_cons] at hi
          rw [hgt i (by omega)]
          exact update_of_ne (by rw [length_cons]; omega) ..

/-! ## One call -/

theorem makeCurrent_eq (h : Stored hash genesis offset ws hc)
    (hfollow : Follows hash hc.chainDb.canonicalHash old)
    (hxy : Child hash Header.parentHash Header.number x y)
    (hy : HeaderBranch hash genesis ws (y :: l)) (hfuel : old.length < fuel)
    (hfuel' : l.length < fuel) :
    ∃ canonicalHash cache, makeCurrent fuel hc (hash x) x = .ok { hc with
          chainDb :=
            { hc.chainDb with canonicalHash := canonicalHash, headHeaderHash := hash x }
          headerCache := cache
          currentHeaderHash := hash x
          currentHeader := x } ∧
      (cache.All fun k w => w ∈ ws ∧ hash w = k) ∧ Follows hash canonicalHash (x :: y :: l) := by
  have hnumber : y.number = l.length := hy.height_eq ht.height_root
  have hx : x.number = l.length + 1 := by rw [hxy.2, hnumber]
  obtain ⟨batch, hbatch, hiff⟩ := assignedFrom_eq hfollow
    (fun w hw => hzero w (hold.mem ht.root_mem w hw)) (i := x.number + 1)
    (Nat.lt_of_le_of_lt (Nat.sub_le ..) hfuel)
  rw [makeCurrent, hbatch]
  dsimp only
  rw [foldl_deleteCanonicalHash]
  generalize hdel : (fun j => if j ∈ batch then none else hc.chainDb.canonicalHash j) = deleted
  have hdeleted : ∀ i, deleted i = if i ≤ l.length + 1 then (level old i).map hash else none := by
    intro i
    rw [← hdel]
    dsimp only
    rw [hfollow i]
    by_cases hi : i ≤ l.length + 1
    · rw [if_neg (by rw [hiff]; omega), if_pos hi]
    · split
      case isTrue => rfl
      case isFalse hnot =>
        rw [level_of_le (not_lt.mp fun hlt => hnot ((hiff i).mpr ⟨by omega, hlt⟩))]
        rfl
  obtain ⟨cache, hget, hcache⟩ := getHeader_eq ht (h.reassign deleted h.headerCache)
    (hy.mem ht.root_mem y mem_cons_self)
  have hbelow : ∀ i ≤ l.length, deleted i = (level old i).map hash := by
    intro i hi
    rw [hdeleted, if_pos (by omega)]
  obtain ⟨canonicalHash, cache', heq, hcache', hle, hgt⟩ :=
    reroute_eq ht hzero hold (h.reassign deleted hcache) hy hbelow hfuel'
  have hpred : uint64Pred x.number = y.number := by rw [hxy.2, uint64Pred_succ]
  rw [hpred, hxy.1, hget, hnumber]
  rw [heq]
  refine ⟨update canonicalHash x.number (some (hash x)), cache', rfl, hcache', fun i => ?_⟩
  rw [level_cons, length_cons, hx]
  by_cases hi : i = l.length + 1
  · rw [hi, if_pos rfl, update_self]
    rfl
  · rw [if_neg hi, update_of_ne hi]
    rcases Nat.lt_or_ge l.length i with hlt | hge
    · have habove : canonicalHash i = deleted i := hgt i hlt
      rw [habove, hdeleted, if_neg (by omega), level_of_le (by rw [length_cons]; omega)]
      rfl
    · exact hle i hge

end Reroute

theorem Stored.write (ht : HeaderTree hash genesis ws) (h : Stored hash genesis offset ws hc)
    (hxy : Child hash Header.parentHash Header.number x y)
    (hy : HeaderBranch hash genesis ws (y :: l)) (ht' : HeaderTree hash genesis (x :: ws))
    {td : Int} (htd : td = totalDifficulty (x :: y :: l) + offset) :
    Stored hash genesis offset (x :: ws) { hc.writeTd (hash x) x.number td with
        chainDb := (hc.writeTd (hash x) x.number td).chainDb.writeHeader (hash x) x } := by
  have hmono : ∀ w ∈ ws, w ∈ x :: ws := fun w => mem_cons_of_mem x
  have hbranch : HeaderBranch hash genesis (x :: ws) (x :: y :: l) :=
    .child mem_cons_self hxy (hy.mono hmono)
  have hkey : ∀ w ∈ x :: ws, w ≠ x → hash w ≠ hash x :=
    fun w hw hne heq => hne (ht'.inj w hw x mem_cons_self heq)
  refine ⟨fun w hw => ?_, fun w l' hl' => ?_, ?_, ?_⟩
  · by_cases hwx : w = x
    · subst hwx
      simp [HeaderChain.writeTd, ChainDb.writeHeader, ChainDb.writeTd]
    · have hold := h.header w ((mem_cons.mp hw).resolve_left hwx)
      by_cases hn : w.number = x.number
      · rw [hn] at hold ⊢
        simp [HeaderChain.writeTd, ChainDb.writeHeader, ChainDb.writeTd, hkey w hw hwx, hold]
      · simp [HeaderChain.writeTd, ChainDb.writeHeader, ChainDb.writeTd, hn, hold]
  · by_cases hwx : w = x
    · subst hwx
      rw [ht'.unique hl' hbranch, ← htd]
      simp [HeaderChain.writeTd, ChainDb.writeHeader, ChainDb.writeTd]
    · have hw := hl'.mem ht'.root_mem w mem_cons_self
      obtain ⟨m, hm⟩ := ht.branch ((mem_cons.mp hw).resolve_left hwx)
      rw [ht'.unique hl' (hm.mono hmono)]
      have hold := h.td w m hm
      by_cases hn : w.number = x.number
      · rw [hn] at hold ⊢
        simp [HeaderChain.writeTd, ChainDb.writeHeader, ChainDb.writeTd, hkey w hw hwx, hold]
      · simp [HeaderChain.writeTd, ChainDb.writeHeader, ChainDb.writeTd, hn, hold]
  · exact h.headerCache.mono fun k w hw => ⟨hmono w hw.1, hw.2⟩
  · refine Lru.All.add (h.tdCache.mono fun k t => ?_) ⟨x, y :: l, hbranch, rfl, htd⟩
    rintro ⟨w, m, hm, hk, ht⟩
    exact ⟨w, m, hm.mono hmono, hk, ht⟩

/-- A call that adds a child of a written header succeeds; the new header is the current one if it
is heavier than the old one, or as heavy and the tie goes to it. -/
theorem Linked.writeHeader (h : Linked hash genesis offset ws hc)
    (hl : HeaderBranch hash genesis ws (y :: l))
    (hold : HeaderBranch hash genesis ws (hc.currentHeader :: old))
    (hxy : Child hash Header.parentHash Header.number x y)
    (hinj : ∀ w ∈ ws, hash w = hash x → w = x) (hx : hash x ≠ Hash.zero)
    (hfuel : ∀ w ∈ ws, w.number + 1 < fuel) (coin : Bool) :
    ∃ status hc', HeaderChain.writeHeader hash fuel coin hc x = .ok (status, hc') ∧
      Linked hash genesis offset (x :: ws) hc' ∧
      hc'.chainDb.header = (hc.chainDb.writeHeader (hash x) x).header ∧
      hc'.chainDb.td = (hc.chainDb.writeTd (hash x) x.number
        (totalDifficulty (x :: y :: l) + offset)).td ∧
      hc'.currentHeader =
        if totalDifficulty (hc.currentHeader :: old) < totalDifficulty (x :: y :: l) ∨
          totalDifficulty (hc.currentHeader :: old) = totalDifficulty (x :: y :: l) ∧ coin then x
        else hc.currentHeader := by
  obtain ⟨ht, hzero, hstored, hhash, old', hold', hfollow⟩ := h
  obtain rfl := ht.unique hold hold'
  have hy : y ∈ ws := hl.mem ht.root_mem y mem_cons_self
  have hmono : ∀ w ∈ ws, w ∈ x :: ws := fun w => mem_cons_of_mem x
  have ht' : HeaderTree hash genesis (x :: ws) := ht.grow hy hxy hinj
  have hzero' : ∀ w ∈ x :: ws, hash w ≠ Hash.zero := by
    intro w hw
    rcases mem_cons.mp hw with rfl | hw
    · exact hx
    · exact hzero w hw
  have hbranch : HeaderBranch hash genesis (x :: ws) (x :: y :: l) :=
    .child mem_cons_self hxy (hl.mono hmono)
  have htotal : totalDifficulty (x :: y :: l) = x.difficulty + totalDifficulty (y :: l) := rfl
  obtain ⟨cache, hget, hcache⟩ := getTd_eq ht hstored hl
  have hstored1 := hstored.recache hcache
  obtain ⟨cache2, hget2, hcache2⟩ := getTd_eq ht hstored1 hold
  rw [← hhash] at hget2
  have hpred : uint64Pred x.number = y.number := by rw [hxy.2, uint64Pred_succ]
  have htd : x.difficulty + (totalDifficulty (y :: l) + offset) =
      totalDifficulty (x :: y :: l) + offset :=
    by rw [htotal, add_assoc]
  have hstored2 := (hstored1.recache hcache2).write ht hxy hl ht' rfl
  have hfuel_old : (hc.currentHeader :: old).length < fuel := by
    rw [length_cons, ← hold.height_eq ht.height_root]
    exact hfuel _ (hold.mem ht.root_mem _ mem_cons_self)
  have hfuel_new : l.length < fuel := by
    rw [← hl.height_eq ht.height_root]
    exact Nat.lt_of_succ_lt (hfuel y hy)
  rw [HeaderChain.writeHeader, hpred, hxy.1, hget]
  dsimp only
  rw [hget2]
  dsimp only
  rw [htd]
  split
  case isTrue hheavy =>
    obtain ⟨canonicalHash, cache3, heq, hcache3, hfollow'⟩ :=
      makeCurrent_eq ht' hzero' (hold.mono hmono) hstored2 hfollow hxy (hl.mono hmono) hfuel_old
        hfuel_new
    rw [heq]
    refine ⟨_, _, rfl, ⟨ht', hzero', ⟨hstored2.header, hstored2.td,
      hcache3.add ⟨mem_cons_self, rfl⟩, hstored2.tdCache⟩, rfl, y :: l, hbranch, hfollow'⟩,
      rfl, rfl, ?_⟩
    refine (if_pos ?_).symm
    rcases hheavy with hgt | ⟨heq, hcoin⟩
    · exact .inl (by omega)
    · exact .inr ⟨by omega, hcoin⟩
  case isFalse hlight =>
    refine ⟨_, _, rfl, ⟨ht', hzero', ⟨hstored2.header, hstored2.td,
      hstored2.headerCache.add ⟨mem_cons_self, rfl⟩, hstored2.tdCache⟩, hhash, old,
      hold.mono hmono, hfollow⟩, rfl, rfl, ?_⟩
    refine (if_neg ?_).symm
    rintro (hgt | ⟨heq, hcoin⟩)
    · exact hlight (.inl (by omega))
    · exact hlight (.inr ⟨by omega, hcoin⟩)

theorem ForkChoice.writeHeader (h : ForkChoice hash genesis offset ws hc) (hy : y ∈ ws)
    (hxy : Child hash Header.parentHash Header.number x y)
    (hinj : ∀ w ∈ ws, hash w = hash x → w = x) (hx : hash x ≠ Hash.zero)
    (hfuel : ∀ w ∈ ws, w.number + 1 < fuel) (coin : Bool) :
    ∃ status hc', HeaderChain.writeHeader hash fuel coin hc x = .ok (status, hc') ∧
      ForkChoice hash genesis offset (x :: ws) hc' := by
  obtain ⟨old, hold, -, hmax⟩ := h.current
  have hlinked := h.linked
  obtain ⟨ht, -, -, -, -⟩ := h
  obtain ⟨l, hl⟩ := ht.branch hy
  have hmono : ∀ w ∈ ws, w ∈ x :: ws := fun w => mem_cons_of_mem x
  have ht' : HeaderTree hash genesis (x :: ws) := ht.grow hy hxy hinj
  have hbranch : HeaderBranch hash genesis (x :: ws) (x :: y :: l) :=
    .child mem_cons_self hxy (hl.mono hmono)
  -- The heaviest branch of the grown tree is the old one or the new one.
  have hmax' : ∀ w m, HeaderBranch hash genesis (x :: ws) (w :: m) →
      totalDifficulty (w :: m) ≤ totalDifficulty (hc.currentHeader :: old) ∨
        totalDifficulty (w :: m) = totalDifficulty (x :: y :: l) := by
    intro w m hm
    by_cases hwx : w = x
    · subst hwx
      rw [ht'.unique hm hbranch]
      exact .inr rfl
    · have hw := hm.mem ht'.root_mem w mem_cons_self
      obtain ⟨k, hk⟩ := ht.branch ((mem_cons.mp hw).resolve_left hwx)
      rw [ht'.unique hm (hk.mono hmono)]
      exact .inl (hmax w k hk)
  obtain ⟨status, hc', heq, hlinked', -, -, hcurrent⟩ :=
    hlinked.writeHeader hl hold hxy hinj hx hfuel coin
  refine ⟨status, hc', heq, hlinked'.forkChoice ?_⟩
  split at hcurrent
  · next hheavy =>
    rw [hcurrent]
    refine ⟨y :: l, hbranch, fun w m hm => ?_⟩
    have hge : totalDifficulty (hc.currentHeader :: old) ≤ totalDifficulty (x :: y :: l) :=
      hheavy.elim le_of_lt fun h => le_of_eq h.1
    exact (hmax' w m hm).elim (fun hle => hle.trans hge) le_of_eq
  · next hlight =>
    rw [hcurrent]
    refine ⟨old, hold.mono hmono, fun w m hm => ?_⟩
    have hle : totalDifficulty (x :: y :: l) ≤ totalDifficulty (hc.currentHeader :: old) :=
      not_lt.mp fun hgt => hlight (.inl hgt)
    exact (hmax' w m hm).elim id fun heq => heq.trans_le hle

/-! ## Whole runs -/

/-- Headers that are written one after another over those of `ws`: the parent of each is written
before it, and no two have one hash. -/
def Grows (hash : Header → Hash) : List Header → List Header → Prop
  | _, [] => True
  | ws, x :: xs => (∃ y ∈ ws, Child hash Header.parentHash Header.number x y) ∧
      (∀ w ∈ ws, hash w = hash x → w = x) ∧ hash x ≠ Hash.zero ∧ Grows hash (x :: ws) xs

theorem getHeaderByHash_eq (ht : HeaderTree hash genesis ws) (h : Stored hash genesis offset ws hc)
    (hw : w ∈ ws) {size : Nat} (hcache : hc.numberCache = Lru.new size)
    (hnumber : hc.chainDb.headerNumber (hash w) = some w.number) :
    ∃ numberCache headerCache, hc.getHeaderByHash (hash w) =
        (some w, { hc with numberCache := numberCache, headerCache := headerCache }) ∧
      headerCache.All fun k w => w ∈ ws ∧ hash w = k := by
  have hnone : (Lru.new size : Lru Hash Nat).get (hash w) = (none, Lru.new size) := rfl
  have hblock : hc.getBlockNumber (hash w) =
      (some w.number, { hc with numberCache := (Lru.new size).add (hash w) w.number }) := by
    rw [getBlockNumber, hcache, hnone]
    rw [hnumber]
  rw [getHeaderByHash, hblock]
  have hstored : Stored hash genesis offset ws
      { hc with numberCache := (Lru.new size).add (hash w) w.number } :=
    ⟨h.header, h.td, h.headerCache, h.tdCache⟩
  obtain ⟨cache, hget, hall⟩ := getHeader_eq ht hstored hw
  exact ⟨_, cache, hget, hall⟩

theorem commitGenesis_canonicalHash (hash : Header → Hash) {genesis : Header}
    (hnumber : genesis.number = 0) (td : Int) :
    Follows hash (ChainDb.commitGenesis genesis (hash genesis) td).canonicalHash [genesis] := by
  intro i
  by_cases hi : i = 0 <;> simp [ChainDb.commitGenesis, ChainDb.writeCanonicalHash,
    ChainDb.writeHeader,
    ChainDb.writeTd, ChainDb.empty, hnumber, hi, level]

theorem new_forkChoice (hash : Header → Hash) {genesis : Header} (hnumber : genesis.number = 0)
    (hzero : hash genesis ≠ Hash.zero) (td : Int) :
    ∃ hc, new hash (ChainDb.commitGenesis genesis (hash genesis) td) = .ok hc ∧
      ForkChoice hash genesis (td - genesis.difficulty) [genesis] hc := by
  have htree : HeaderTree hash genesis [genesis] :=
    ⟨mem_cons_self, hnumber,
      fun x hx y hy _ => (mem_singleton.mp hx).trans (mem_singleton.mp hy).symm,
      fun x hx => .inl (mem_singleton.mp hx)⟩
  have honly : ∀ w l, HeaderBranch hash genesis [genesis] (w :: l) → w = genesis ∧ l = [] := by
    intro w l hl
    obtain rfl := mem_singleton.mp (hl.mem htree.root_mem w mem_cons_self)
    exact ⟨rfl, htree.unique hl .root⟩
  have hcanon := commitGenesis_canonicalHash hash hnumber td
  have hheader : (ChainDb.commitGenesis genesis (hash genesis) td).header 0 (hash genesis) =
      some genesis := by
    simp [ChainDb.commitGenesis, ChainDb.writeCanonicalHash, ChainDb.writeHeader, hnumber]
  have htd : (ChainDb.commitGenesis genesis (hash genesis) td).td 0 (hash genesis) = some td := by
    simp [ChainDb.commitGenesis, ChainDb.writeCanonicalHash, ChainDb.writeHeader, ChainDb.writeTd,
      hnumber]
  have hnum : (ChainDb.commitGenesis genesis (hash genesis) td).headerNumber (hash genesis) =
      some genesis.number := by
    simp [ChainDb.commitGenesis, ChainDb.writeCanonicalHash, ChainDb.writeHeader]
  have hhead : (ChainDb.commitGenesis genesis (hash genesis) td).headBlockHash = hash genesis := rfl
  generalize ChainDb.commitGenesis genesis (hash genesis) td = db at *
  have hread : db.readCanonicalHash 0 = hash genesis := by
    rw [ChainDb.readCanonicalHash, hcanon 0]
    rfl
  have hstored : Stored hash genesis (td - genesis.difficulty) [genesis]
      { chainDb := db
        currentHeader := genesis
        currentHeaderHash := Hash.zero
        headerCache := (Lru.new 512).add (hash genesis) genesis
        tdCache := Lru.new 1024
        numberCache := Lru.new 2048 } := by
    refine ⟨fun w hw => ?_, fun w l hl => ?_, (Lru.all_new 512).add ⟨mem_cons_self, rfl⟩,
      Lru.all_new 1024⟩
    · rw [mem_singleton.mp hw, hnumber]
      exact hheader
    · obtain ⟨rfl, rfl⟩ := honly w l hl
      rw [hnumber]
      refine htd.trans (congrArg some ?_)
      simp [totalDifficulty]
  obtain ⟨cache, cache', hget, hall⟩ := getHeaderByHash_eq htree hstored mem_cons_self rfl hnum
  rw [new, hread]
  rw [if_neg hzero, hheader]
  dsimp only
  rw [hhead, if_pos hzero, hget]
  refine ⟨_, rfl, htree, fun w hw => ?_, ⟨hstored.header, hstored.td, hall, hstored.tdCache⟩, rfl,
    [], .root,
    hcanon, fun w l hl => ?_⟩
  · rwa [mem_singleton.mp hw]
  · obtain ⟨rfl, rfl⟩ := honly w l hl
    exact le_refl _

theorem ForkChoice.writeHeaders {calls : List (Header × Bool)}
    (h : ForkChoice hash genesis offset ws hc) (hgrows : Grows hash ws (calls.map Prod.fst))
    (hfuel : ∀ w ∈ ws, w.number + 1 + calls.length < fuel) :
    ∃ hc', HeaderChain.writeHeaders hash fuel hc calls = .ok hc' ∧
      ForkChoice hash genesis offset ((calls.map Prod.fst).reverse ++ ws) hc' := by
  induction calls generalizing ws hc with
  | nil => exact ⟨hc, rfl, h⟩
  | cons call calls ih =>
    obtain ⟨x, coin⟩ := call
    obtain ⟨⟨y, hy, hxy⟩, hinj, hx, hrest⟩ := hgrows
    obtain ⟨status, hc1, heq, h1⟩ := h.writeHeader hy hxy hinj hx
      (fun w hw => Nat.lt_of_le_of_lt (Nat.le_add_right ..) (hfuel w hw)) coin
    rw [HeaderChain.writeHeaders, heq, map_cons, reverse_cons, append_assoc]
    refine ih h1 hrest fun w hw => ?_
    rcases mem_cons.mp hw with rfl | hw
    · have := hfuel y hy
      rw [hxy.2]
      rw [length_cons] at this
      omega
    · have := hfuel w hw
      rw [length_cons] at this
      omega

/-- Fork choice of the header chain: after any sequence of calls that grows the tree of headers from
the genesis header, with any outcome of the tie breaks, the current header is a heaviest one, the
canonical hash of each number up to its own is that of its ancestor there, and no number above it
has one. A difficulty may also be zero or negative. -/
theorem writeHeaders_forkChoice (hash : Header → Hash) (genesis : Header) (td : Int)
    (hnumber : genesis.number = 0) (hzero : hash genesis ≠ Hash.zero) (calls : List (Header × Bool))
    (hgrows : Grows hash [genesis] (calls.map Prod.fst)) :
    ∃ hc₀, new hash (ChainDb.commitGenesis genesis (hash genesis) td) = .ok hc₀ ∧
      ∀ fuel > calls.length + 1, ∃ hc l, writeHeaders hash fuel hc₀ calls = .ok hc ∧
        HeaderBranch hash genesis (genesis :: calls.map Prod.fst) (hc.currentHeader :: l) ∧
        (∀ w ∈ genesis :: calls.map Prod.fst, ∃ l',
          HeaderBranch hash genesis (genesis :: calls.map Prod.fst) (w :: l') ∧
            totalDifficulty (w :: l') ≤ totalDifficulty (hc.currentHeader :: l)) ∧
        (∀ i ≤ hc.currentHeader.number, ∃ a, level (hc.currentHeader :: l) i = some a ∧
          a.number = i ∧
          hc.chainDb.canonicalHash i = some (hash a)) ∧
        ∀ i > hc.currentHeader.number, hc.chainDb.canonicalHash i = none := by
  obtain ⟨hc₀, hnew, h₀⟩ := new_forkChoice hash hnumber hzero td
  refine ⟨hc₀, hnew, fun fuel hfuel => ?_⟩
  have hfuel' : ∀ w ∈ [genesis], w.number + 1 + calls.length < fuel := by
    intro w hw
    rw [List.mem_singleton.mp hw, hnumber]
    omega
  obtain ⟨hc, hrun, h⟩ := h₀.writeHeaders hgrows hfuel'
  obtain ⟨l, hl, hfollow, hmax⟩ := h.current
  have hmem : ∀ w, w ∈ (calls.map Prod.fst).reverse ++ [genesis] ↔
      w ∈ genesis :: calls.map Prod.fst := by
    intro w
    rw [List.mem_append, List.mem_reverse, List.mem_singleton, List.mem_cons, or_comm]
  have hheight : hc.currentHeader.number = l.length := hl.height_eq hnumber
  refine ⟨hc, l, hrun, hl.mono fun w => (hmem w).mp, fun w hw => ?_, fun i hi => ?_, fun i hi => ?_⟩
  · obtain ⟨l', hl'⟩ := h.tree.branch ((hmem w).mpr hw)
    exact ⟨l', hl'.mono fun w => (hmem w).mp, hmax w l' hl'⟩
  · obtain ⟨a, ha⟩ : ∃ a, level (hc.currentHeader :: l) i = some a :=
      ⟨_, List.getElem?_eq_getElem (by rw [List.length_reverse, List.length_cons]; omega)⟩
    obtain ⟨l', hl', hlen, -⟩ := hl.of_level ha
    exact ⟨a, ha, (hl'.height_eq hnumber).trans hlen, by rw [hfollow i, ha]; rfl⟩
  · rw [hfollow i, level_of_le (by rw [List.length_cons]; omega)]
    rfl

namespace Sample

/-- A header of the sample chains, told apart by its extra data. -/
def header (parentHash : Hash) (number : Nat) (difficulty : Int) (extra : Bytes) : Header where
  parentHash := parentHash
  uncleHash := Hash.zero
  coinbase := zeroBytes 20
  root := Hash.zero
  txHash := Hash.zero
  receiptHash := Hash.zero
  bloom := zeroBytes 256
  difficulty := difficulty
  number := number
  gasLimit := 0
  gasUsed := 0
  time := 0
  extra := extra
  mixDigest := Hash.zero
  nonce := zeroBytes 8

/-- The sample hash: the extra data. -/
def extraHash (h : Header) : Hash := bytesToHash h.extra

def origin : Header := header Hash.zero 0 1 [1]

def light : Header := header (extraHash origin) 1 1 [2]

def lighter : Header := header (extraHash light) 2 1 [3]

def heavy : Header := header (extraHash origin) 1 5 [4]

/-- A shorter but heavier branch takes over. -/
def calls : List (Header × Bool) := [(light, true), (lighter, false), (heavy, false)]

theorem shorter_branch_takes_over :
    ∃ hc₀, new extraHash (ChainDb.commitGenesis origin (extraHash origin) 1) = .ok hc₀ ∧
      ∃ hc, writeHeaders extraHash 5 hc₀ calls = .ok hc ∧
        ∀ i > hc.currentHeader.number, hc.chainDb.canonicalHash i = none := by
  have hgrows : Grows extraHash [origin] (calls.map Prod.fst) := by
    refine ⟨⟨origin, by decide +kernel, by decide +kernel, rfl⟩, by decide +kernel,
      by decide +kernel, ⟨light, by decide +kernel, by decide +kernel, rfl⟩, by decide +kernel,
      by decide +kernel, ⟨origin, by decide +kernel, by decide +kernel, rfl⟩, by decide +kernel,
      by decide, trivial⟩
  obtain ⟨hc₀, hnew, hrun⟩ :=
    writeHeaders_forkChoice extraHash origin 1 rfl (by decide) calls hgrows
  obtain ⟨hc, l, heq, -, -, -, habove⟩ := hrun 5 (by decide)
  exact ⟨hc₀, hnew, hc, heq, habove⟩

end Sample

end HeaderChain

end Geth.Core
