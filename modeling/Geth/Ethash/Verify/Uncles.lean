import Geth.Ethash.Verify.Headers

/-!
# Uncles along a chain

`VerifyUncles` looks at seven ancestors. The parent of an uncle is one of them and not the parent of
the block, so a block that includes the uncle again has the first one in its own window. Chains are
lists of blocks, the last block first.
-/

namespace Geth.Ethash

open Geth.Core Function List

variable {Tx : Type}

/-! ## The window -/

section Window

variable {env : Env} {chain : ChainReader Tx}

/-- `b` is a child of `p`. -/
def IsChild (env : Env) (b p : Block Tx) : Prop :=
  b.parentHash = env.hash p.header ∧ b.header.number = p.header.number + 1

/-- The reader knows all blocks of a chain, and none before its first. -/
def Available (env : Env) (chain : ChainReader Tx) (blocks : List (Block Tx)) : Prop :=
  (∀ a ∈ blocks, chain.getBlock (env.hash a.header) (UInt64.ofNat a.header.number) = some a) ∧
  ∀ g, blocks.getLast? = some g →
    chain.getBlock g.parentHash (UInt64.ofNat g.header.number - 1) = none

/-- Reading backwards from a hash and a number finds these blocks. -/
def Found (chain : ChainReader Tx) : List (Block Tx) → Hash → UInt64 → Prop
  | [], parent, number => chain.getBlock parent number = none
  | a :: rest, parent, number =>
    chain.getBlock parent number = some a ∧ Found chain rest a.parentHash (number - 1)

theorem ofNat_succ_sub_one (n : Nat) : UInt64.ofNat (n + 1) - 1 = UInt64.ofNat n := by
  rw [UInt64.ofNat_add]
  exact UInt64.add_sub_cancel _ _

theorem Available.found {p : Block Tx} {l : List (Block Tx)}
    (hlinked : (p :: l).IsChain (IsChild env)) (h : Available env chain (p :: l)) :
    Found chain (p :: l) (env.hash p.header) (UInt64.ofNat p.header.number) := by
  induction l generalizing p with
  | nil => exact ⟨h.1 p mem_cons_self, h.2 p rfl⟩
  | cons q l ih =>
    refine ⟨h.1 p mem_cons_self, ?_⟩
    obtain ⟨⟨hhash, hnumber⟩, htail⟩ := isChain_cons_cons.1 hlinked
    rw [hhash, hnumber, ofNat_succ_sub_one]
    refine ih htail ⟨fun a ha => h.1 a (mem_cons_of_mem _ ha), fun g hg => h.2 g ?_⟩
    exact hg

/-- What the loop over the ancestors gathers from a window: their headers by their hashes, and the
hashes of their uncles. -/
theorem gather_spec (env : Env) {blocks : List (Block Tx)} {parent : Hash} {number : UInt64}
    (hfound : Found chain blocks parent number) (n : Nat) (ancestors : Hash → Option Header)
    (uncles : List Hash) :
    let res := gather env chain n parent number ancestors uncles
    (∀ k x, res.1 k = some x →
      (∃ a ∈ blocks.take n, env.hash a.header = k ∧ a.header = x) ∨ ancestors k = some x) ∧
    (∀ k, (∃ a ∈ blocks.take n, env.hash a.header = k) ∨ (ancestors k).isSome → (res.1 k).isSome) ∧
    ∀ k, k ∈ res.2 ↔ (∃ a ∈ blocks.take n, ∃ u ∈ a.uncles, env.hash u = k) ∨ k ∈ uncles := by
  induction n generalizing blocks parent number ancestors uncles with
  | zero => simp [gather]
  | succ n ih =>
    cases blocks with
    | nil =>
      rw [gather, show chain.getBlock parent number = none from hfound]
      simp
    | cons a rest =>
      obtain ⟨hget, hrest⟩ := hfound
      rw [gather, hget]
      obtain ⟨hsound, hcomplete, huncles⟩ := ih hrest
        (update ancestors (env.hash a.header) (some a.header))
        ((a.uncles.map env.hash).reverse ++ uncles)
      rw [take_succ_cons]
      refine ⟨fun k x hk => ?_, fun k hk => ?_, fun k => ?_⟩
      · rcases hsound k x hk with ⟨c, hc, heq⟩ | hold
        · exact .inl ⟨c, mem_cons_of_mem _ hc, heq⟩
        · by_cases hka : k = env.hash a.header
          · rw [hka, update_self] at hold
            exact .inl ⟨a, mem_cons_self, hka.symm, Option.some.inj hold⟩
          · rw [update_of_ne hka] at hold
            exact .inr hold
      · refine hcomplete k ?_
        by_cases hka : k = env.hash a.header
        · rw [hka, update_self]
          exact .inr rfl
        · rw [update_of_ne hka]
          rcases hk with ⟨c, hc, heq⟩ | hsome
          · rcases mem_cons.1 hc with rfl | hc
            · exact absurd heq.symm hka
            · exact .inl ⟨c, hc, heq⟩
          · exact .inr hsome
      · rw [huncles, mem_append, mem_reverse, mem_map, exists_mem_cons_iff, ← or_assoc]
        exact or_congr_left or_comm

end Window

/-! ## One block -/

theorem verifyEach_ok {env : Env} {ethash : Engine} {config : ChainConfig} {deadline : Int64}
    {block : Block Tx} {ancestors : Hash → Option Header} {seen : List Hash}
    {uncles : List Header}
    (h : ethash.verifyEach env config deadline block ancestors seen uncles = .ok ()) :
    (uncles.map env.hash).Nodup ∧ ∀ u ∈ uncles, env.hash u ∉ seen ∧ ancestors (env.hash u) = none ∧
      u.parentHash ≠ block.parentHash ∧
      ∃ parent, ancestors u.parentHash = some parent ∧ u.number = parent.number + 1 := by
  induction uncles generalizing seen with
  | nil => exact ⟨nodup_nil, by simp⟩
  | cons u rest ih =>
    obtain ⟨hseen, h⟩ := ite_error_eq_ok.1 h
    obtain ⟨hancestor, h⟩ := ite_error_eq_ok.1 h
    cases hparent : ancestors u.parentHash with
    | none =>
      rw [hparent] at h
      cases h
    | some parent =>
      rw [hparent] at h
      obtain ⟨hsibling, h⟩ := ite_error_eq_ok.1 h
      cases hheader : ethash.verifyHeader env config deadline u parent true true with
      | error e =>
        rw [hheader] at h
        cases h
      | ok =>
        rw [hheader] at h
        obtain ⟨-, -, -, -, -, hnumber⟩ := verifyHeader_ok hheader
        obtain ⟨hnodup, hrest⟩ := ih h
        refine ⟨nodup_cons.2 ⟨fun hmem => ?_, hnodup⟩, ?_⟩
        · obtain ⟨v, hv, heq⟩ := mem_map.1 hmem
          exact (hrest v hv).1 (heq ▸ mem_cons_self)
        · intro v hv
          rcases mem_cons.1 hv with rfl | hv
          · exact ⟨hseen, Option.not_isSome_iff_eq_none.1 hancestor, hsibling, parent, hparent,
              hnumber⟩
          · obtain ⟨hnot, hothers⟩ := hrest v hv
            exact ⟨fun hmem => hnot (mem_cons_of_mem _ hmem), hothers⟩

/-- What the acceptance of a block says about its uncles, with `l` its ancestors, the parent
first. -/
structure WindowRules (env : Env) (b : Block Tx) (l : List (Block Tx)) : Prop where
  nodup : (b.uncles.map env.hash).Nodup
  fresh : ∀ u ∈ b.uncles, ∀ a ∈ l.take 7, ∀ v ∈ a.uncles, env.hash u ≠ env.hash v
  notAncestor : ∀ u ∈ b.uncles, ∀ a ∈ l.take 7, env.hash u ≠ env.hash a.header
  parent : ∀ u ∈ b.uncles, ∃ i a, 1 ≤ i ∧ i < 7 ∧ l[i]? = some a ∧
    u.parentHash = env.hash a.header ∧ u.number = a.header.number + 1

/-- Only the block itself, which stands among the ancestors too, has to be excluded as the parent
of an uncle: a header commits to its uncles. -/
theorem windowRules_of_verifyUncles {env : Env} {ethash : Engine} {chain : ChainReader Tx}
    {deadline : Int64} {b p : Block Tx} {l : List (Block Tx)} (hmode : ethash.mode ≠ .fullFake)
    (hself : ∀ u ∈ b.uncles, u.parentHash ≠ env.hash b.header)
    (hlinked : (b :: p :: l).IsChain (IsChild env)) (havail : Available env chain (p :: l))
    (hok : ethash.verifyUncles env chain deadline b = .ok ()) : WindowRules env b (p :: l) := by
  obtain ⟨⟨hhash, hnumber⟩, htail⟩ := isChain_cons_cons.1 hlinked
  rw [Engine.verifyUncles, if_neg hmode] at hok
  obtain ⟨-, hok⟩ := ite_error_eq_ok.1 hok
  rw [hnumber, ofNat_succ_sub_one, hhash] at hok
  obtain ⟨hsound, hcomplete, huncles⟩ := gather_spec env (havail.found htail) 7 (fun _ => none) []
  generalize gather env chain 7 (env.hash p.header) (UInt64.ofNat p.header.number)
    (fun _ => none) [] = gathered at hsound hcomplete huncles hok
  obtain ⟨hnodup, heach⟩ := verifyEach_ok hok
  refine ⟨hnodup, fun u hu a ha v hv heq => ?_, fun u hu a ha heq => ?_, fun u hu => ?_⟩
  · refine (heach u hu).1 (mem_cons_of_mem _ ?_)
    exact (huncles _).2 (.inl ⟨a, ha, v, hv, heq.symm⟩)
  · obtain ⟨hseen, hnone, -⟩ := heach u hu
    have hself' : env.hash u ≠ env.hash b.header := fun h => hseen (h ▸ mem_cons_self)
    rw [update_of_ne hself'] at hnone
    have hsome := hcomplete (env.hash u) (.inl ⟨a, ha, heq.symm⟩)
    rw [hnone] at hsome
    cases hsome
  · obtain ⟨-, -, hsibling, parent, hparent, hunumber⟩ := heach u hu
    rw [update_of_ne (hself u hu)] at hparent
    rcases hsound _ _ hparent with ⟨a, ha, hah, rfl⟩ | hnone
    · obtain ⟨i, hi, hget⟩ := mem_iff_getElem.1 ha
      rw [length_take] at hi
      rw [getElem_take] at hget
      refine ⟨i, a, Nat.one_le_iff_ne_zero.2 ?_, by omega, ?_, hah.symm, hunumber⟩
      · rintro rfl
        exact hsibling (hah.symm.trans (hget ▸ hhash.symm))
      · rw [List.getElem?_eq_getElem (by omega), hget]
    · cases hnone

/-! ## Rewards -/

theorem blockReward_eq (config : ChainConfig) (header : Header) :
    ∃ r : Int, 0 ≤ r ∧ blockReward config header = 8 * r := by
  rw [blockReward]
  split
  · exact ⟨375000000000000000, by decide, rfl⟩
  · exact ⟨625000000000000000, by decide, rfl⟩

theorem uncleReward_eq (config : ChainConfig) {header uncle : Header} {k : Nat} (hk : k ≤ 9)
    (h : uncle.number + k = header.number + 1) :
    8 * uncleReward config header uncle = (9 - k : Nat) * blockReward config header := by
  obtain ⟨r, -, hr⟩ := blockReward_eq config header
  have hfactor : (uncle.number : Int) + 8 - header.number = (9 - k : Nat) := by omega
  rw [uncleReward, hfactor, hr]
  rw [mul_left_comm, Int.mul_ediv_cancel_left _ (by decide)]

theorem accumulateRewards_eq {σ : Type} (addBalance : σ → Address → Int → σ) (config : ChainConfig)
    (state : σ) (header : Header) (uncles : List Header) :
    accumulateRewards addBalance config state header uncles =
      addBalance (uncles.foldl (fun s u => addBalance s u.coinbase (uncleReward config header u))
          state) header.coinbase
        (blockReward config header + uncles.length * (blockReward config header / 32)) := by
  have hloop : ∀ (uncles : List Header) (state : σ) (reward : Int),
      rewardUncles addBalance config header uncles (state, reward) =
        (uncles.foldl (fun s u => addBalance s u.coinbase (uncleReward config header u)) state,
          reward + uncles.length * (blockReward config header / 32)) := by
    intro uncles
    induction uncles with
    | nil =>
      intro state reward
      rw [rewardUncles, length_nil, Nat.cast_zero, zero_mul, add_zero]
      rfl
    | cons u rest ih =>
      intro state reward
      rw [rewardUncles, ih, foldl_cons, length_cons]
      push_cast
      rw [add_mul, one_mul, add_assoc, add_comm (_ / 32)]
  rw [accumulateRewards, hloop]

/-! ## Chains -/

/-- A chain of blocks from a genesis block without uncles, each later one accepted by
`VerifyUncles` while all its ancestors were available. -/
inductive Accepted (env : Env) (ethash : Engine) (config : ChainConfig) : List (Block Tx) → Prop
  | genesis {g : Block Tx} (huncles : g.uncles = []) : Accepted env ethash config [g]
  | child {b p : Block Tx} {l : List (Block Tx)} {chain : ChainReader Tx} {deadline : Int64}
      (h : Accepted env ethash config (p :: l)) (hchild : IsChild env b p)
      (hconfig : chain.config = config) (havail : Available env chain (p :: l))
      (hok : ethash.verifyUncles env chain deadline b = .ok ()) :
      Accepted env ethash config (b :: p :: l)

/-- The rules for the uncles of a block with the ancestors `l`, the parent first. -/
structure UncleRules (env : Env) (config : ChainConfig) (b : Block Tx) (l : List (Block Tx)) :
    Prop where
  notAncestor : ∀ u ∈ b.uncles, ∀ a ∈ l, env.hash u ≠ env.hash a.header
  generation : ∀ u ∈ b.uncles, ∃ k a, 2 ≤ k ∧ k ≤ 7 ∧ (b :: l)[k]? = some a ∧
    u.parentHash = env.hash a.header
  reward : ∀ u ∈ b.uncles, 0 ≤ uncleReward config b.header u ∧
    2 * blockReward config b.header ≤ 8 * uncleReward config b.header u ∧
    8 * uncleReward config b.header u ≤ 7 * blockReward config b.header
  paid : ∀ (σ : Type) (addBalance : σ → Address → Int → σ) (state : σ),
    accumulateRewards addBalance config state b.header b.uncles = addBalance (b.uncles.foldl
          (fun s u => addBalance s u.coinbase (uncleReward config b.header u)) state)
        b.header.coinbase
        (blockReward config b.header + b.uncles.length * (blockReward config b.header / 32))

section Chain

variable {env : Env} {ethash : Engine} {config : ChainConfig}

theorem Accepted.linked {blocks : List (Block Tx)} (h : Accepted env ethash config blocks) :
    blocks.IsChain (IsChild env) := by
  induction h with
  | genesis => exact isChain_singleton _
  | child _ hchild _ _ _ ih => exact isChain_cons_cons.2 ⟨hchild, ih⟩

variable {b : Block Tx} {l : List (Block Tx)}

theorem number_add (h : (b :: l).IsChain (IsChild env)) {i : Nat} {a : Block Tx}
    (hget : (b :: l)[i]? = some a) :
    a.header.number + i = b.header.number := by
  induction i generalizing b l with
  | zero => cases hget; rfl
  | succ i ih =>
    cases l with
    | nil => cases hget
    | cons p l =>
      obtain ⟨⟨-, hnumber⟩, htail⟩ := isChain_cons_cons.1 h
      have := ih htail hget
      omega

theorem Accepted.windowRules {blocks : List (Block Tx)} (h : Accepted env ethash config blocks)
    (hmode : ethash.mode ≠ .fullFake)
    (hself : ∀ a ∈ blocks, ∀ u ∈ a.uncles, u.parentHash ≠ env.hash a.header)
    (hsuffix : b :: l <:+ blocks) : WindowRules env b l := by
  induction h with
  | genesis huncles =>
    obtain ⟨rfl, rfl⟩ : b = _ ∧ l = [] := by simpa [suffix_cons_iff] using hsuffix
    constructor <;> simp [huncles]
  | child h hchild _ havail hok ih =>
    rcases suffix_cons_iff.1 hsuffix with heq | hsuffix
    · obtain ⟨rfl, rfl⟩ := List.cons.inj heq
      exact windowRules_of_verifyUncles hmode (hself _ mem_cons_self)
        (isChain_cons_cons.2 ⟨hchild, h.linked⟩) havail hok
    · exact ih (fun a ha => hself a (mem_cons_of_mem _ ha)) hsuffix

/-- The window of seven is enough for all ancestors: an uncle that is an ancestor has its parent
one generation further back. -/
theorem WindowRules.uncleRules (hw : WindowRules env b l) (hlinked : (b :: l).IsChain (IsChild env))
    {C : Set Header} (hinj : C.InjOn env.hash) (huncles : ∀ u ∈ b.uncles, u ∈ C)
    (hblocks : ∀ a ∈ l, a.header ∈ C) :
    UncleRules env config b l := by
  refine ⟨fun u hu a ha heq => ?_, fun u hu => ?_, fun u hu => ?_,
    fun σ addBalance state => accumulateRewards_eq addBalance config state b.header b.uncles⟩
  · obtain ⟨i, c, -, hi, hc, -, hnumber⟩ := hw.parent u hu
    obtain ⟨j, hj, hget⟩ := mem_iff_getElem.1 ha
    have hua : u = a.header := hinj (huncles u hu) (hblocks a ha) heq
    have hcn := number_add hlinked (show (b :: l)[i + 1]? = some c from hc)
    have han := number_add hlinked
      (show (b :: l)[j + 1]? = some a from (List.getElem?_eq_getElem hj).trans (hget ▸ rfl))
    rw [hua] at hnumber
    refine hw.notAncestor u hu a (mem_iff_getElem.2 ⟨j, ?_, ?_⟩) heq
    · rw [length_take]
      omega
    · rw [getElem_take, hget]
  · obtain ⟨i, a, hpos, hi, hget, hparent, -⟩ := hw.parent u hu
    exact ⟨i + 1, a, by omega, by omega, hget, hparent⟩
  · obtain ⟨i, a, hpos, hi, hget, -, hnumber⟩ := hw.parent u hu
    have han := number_add hlinked (show (b :: l)[i + 1]? = some a from hget)
    have hreward := uncleReward_eq config (show i + 1 ≤ 9 by omega)
      (show u.number + (i + 1) = b.header.number + 1 by omega)
    obtain ⟨r, hr, hblock⟩ := blockReward_eq config b.header
    rw [hblock] at hreward ⊢
    have hlow := mul_le_mul_of_nonneg_right (show (2 : Int) ≤ (9 - (i + 1) : Nat) by omega) hr
    have hhigh := mul_le_mul_of_nonneg_right (show ((9 - (i + 1) : Nat) : Int) ≤ 7 by omega) hr
    rw [mul_left_comm] at hreward
    refine ⟨?_, ?_, ?_⟩ <;> omega

/-- An uncle of an ancestor is not an uncle of the block: with its parent in both windows, the
ancestor is in the window of the block. -/
theorem WindowRules.fresh_of_ancestor (hw : WindowRules env b l)
    (hws : ∀ a l', a :: l' <:+ l → WindowRules env a l') (hlinked : (b :: l).IsChain (IsChild env))
    {C : Set Header} (hinj : C.InjOn env.hash) (huncles : ∀ u ∈ b.uncles, u ∈ C)
    (hblocks : ∀ a ∈ l, a.header ∈ C ∧ ∀ u ∈ a.uncles, u ∈ C) {u v : Header} {a : Block Tx}
    (hu : u ∈ b.uncles) (ha : a ∈ l) (hv : v ∈ a.uncles) :
    env.hash u ≠ env.hash v := by
  intro heq
  obtain rfl : u = v := hinj (huncles u hu) ((hblocks a ha).2 v hv) heq
  obtain ⟨j, hj, rfl⟩ := mem_iff_getElem.1 ha
  obtain ⟨i, c, -, hi, hc, hparent, -⟩ := hw.parent u hu
  have hsuffix : l[j] :: l.drop (j + 1) <:+ l := by
    rw [← drop_eq_getElem_cons hj]
    exact drop_suffix j l
  obtain ⟨i', c', hpos, -, hc', hparent', -⟩ := (hws _ _ hsuffix).parent u hv
  rw [List.getElem?_drop] at hc'
  have hcc : c.header = c'.header :=
    hinj (hblocks c (mem_of_getElem? hc)).1 (hblocks c' (mem_of_getElem? hc')).1
      (hparent.symm.trans hparent')
  have hcn := number_add hlinked (show (b :: l)[i + 1]? = some c from hc)
  have hcn' := number_add hlinked (show (b :: l)[j + 1 + i' + 1]? = some c' from hc')
  rw [hcc] at hcn
  refine hw.fresh u hu l[j] (mem_iff_getElem.2 ⟨j, ?_, getElem_take⟩) u hv rfl
  rw [length_take]
  omega

/-- Along a chain of accepted blocks no uncle is included twice, and every uncle obeys the rules.
Besides the engine that takes everything as valid, blocks are excluded that are the parent of their
own uncle: their header would have to commit to its own hash. -/
theorem uncles_of_accepted (blocks : List (Block Tx)) (h : Accepted env ethash config blocks)
    (hmode : ethash.mode ≠ .fullFake)
    (hself : ∀ a ∈ blocks, ∀ u ∈ a.uncles, u.parentHash ≠ env.hash a.header)
    (C : Set Header) (hinj : C.InjOn env.hash)
    (hC : ∀ a ∈ blocks, a.header ∈ C ∧ ∀ u ∈ a.uncles, u ∈ C) :
    ((blocks.flatMap Block.uncles).map env.hash).Nodup ∧
      ∀ b l, b :: l <:+ blocks → UncleRules env config b l := by
  have hwindow := fun b l (hsuffix : b :: l <:+ blocks) => h.windowRules hmode hself hsuffix
  constructor
  · have hlinked := h.linked
    clear hself
    induction h with
    | genesis huncles => simp [huncles]
    | @child b p l _ _ h hchild _ _ _ ih =>
      have htail := fun a l' hs => hwindow a l' (List.suffix_cons_iff.2 (.inr hs))
      have hw := hwindow b (p :: l) List.suffix_rfl
      have hmem := fun a ha => hC a (List.mem_cons_of_mem b ha)
      rw [List.flatMap_cons, List.map_append, List.nodup_append]
      refine ⟨hw.nodup, ih hmem htail h.linked, fun x hx y hy heq => ?_⟩
      obtain ⟨u, hu, rfl⟩ := List.mem_map.1 hx
      obtain ⟨v, hv, rfl⟩ := List.mem_map.1 hy
      obtain ⟨a, ha, hva⟩ := List.mem_flatMap.1 hv
      exact hw.fresh_of_ancestor htail hlinked hinj (hC b List.mem_cons_self).2 hmem hu ha hva heq
  · intro b l hsuffix
    have hmem := fun a ha => hC a (hsuffix.mem ha)
    exact (hwindow b l hsuffix).uncleRules (h.linked.suffix hsuffix) hinj
      (hmem b List.mem_cons_self).2 fun a ha => (hmem a (List.mem_cons_of_mem _ ha)).1

end Chain

namespace Sample

/-- A header that is hashed to its own name and comes ten seconds after the one before it. -/
def named (name number : Nat) (parent : Nat) : Header :=
  { header with
    parentHash := bytesToHash [UInt8.ofNat parent], difficulty := minimumDifficulty,
    number := number, gasLimit := 5000, time := 10 * number, extra := [UInt8.ofNat name] }

def block (header : Header) (uncles : List Header) : Block Empty := ⟨header, [], uncles⟩

/-- Three blocks on a genesis block; the last one includes a sibling of its parent. -/
def chain : List (Block Empty) :=
  [block (named 5 3 3) [named 4 2 2], block (named 3 2 2) [], block (named 2 1 1) [],
    block (named 1 0 0) []]

/-- A reader that knows these blocks. -/
def reader (blocks : List (Block Empty)) : ChainReader Empty where
  config := homestead
  getBlock hash number := blocks.find? fun b =>
    env.hash b.header = hash && UInt64.ofNat b.header.number = number

theorem available_of {blocks : List (Block Empty)} {g : Block Empty}
    (h : ∀ a ∈ blocks, (reader blocks).getBlock (env.hash a.header)
      (UInt64.ofNat a.header.number) = some a)
    (hlast : blocks.getLast? = some g)
    (hnone : (reader blocks).getBlock g.parentHash (UInt64.ofNat g.header.number - 1) = none) :
    Available env (reader blocks) blocks := by
  refine ⟨h, fun g' hg' => ?_⟩
  cases hlast.symm.trans hg'
  exact hnone

theorem accepted_chain : Accepted env faker homestead chain := by
  have h0 : Accepted env faker homestead [block (named 1 0 0) []] := .genesis rfl
  have h1 : Accepted env faker homestead [block (named 2 1 1) [], block (named 1 0 0) []] :=
    .child h0 ⟨rfl, rfl⟩ rfl (available_of (by decide +kernel) rfl (by decide +kernel))
      (show faker.verifyUncles env _ 100 _ = _ by decide)
  have h2 : Accepted env faker homestead
      [block (named 3 2 2) [], block (named 2 1 1) [], block (named 1 0 0) []] :=
    .child h1 ⟨rfl, rfl⟩ rfl (available_of (by decide +kernel) rfl (by decide +kernel))
      (show faker.verifyUncles env _ 100 _ = _ by decide)
  exact .child h2 ⟨rfl, rfl⟩ rfl (available_of (by decide +kernel) rfl (by decide +kernel))
    (show faker.verifyUncles env _ 100 _ = _ by decide)

/-- The headers of the chain and the uncle. -/
def headers : List Header := [named 1 0 0, named 2 1 1, named 3 2 2, named 4 2 2, named 5 3 3]

theorem injOn_headers : Set.InjOn env.hash { x | x ∈ headers } := by
  have : ∀ x ∈ headers, ∀ y ∈ headers, env.hash x = env.hash y → x = y := by decide +kernel
  exact fun x hx y hy => this x hx y hy

theorem uncles_chain : ((chain.flatMap Block.uncles).map env.hash).Nodup ∧
      ∀ b l, b :: l <:+ chain → UncleRules env homestead b l :=
  uncles_of_accepted chain accepted_chain (by decide) (by decide) { x | x ∈ headers } injOn_headers
    (show ∀ a ∈ chain, a.header ∈ headers ∧ ∀ u ∈ a.uncles, u ∈ headers by decide +kernel)

/-- A block whose uncle has the block itself as its parent is accepted, and the uncle is paid nine
eighths of the reward. -/
theorem accepted_ownUncle :
    Accepted env faker homestead [block (named 6 1 1) [named 7 2 6], block (named 1 0 0) []] ∧
      (named 7 2 6).parentHash = env.hash (named 6 1 1) ∧
      8 * uncleReward homestead (named 6 1 1) (named 7 2 6) =
        9 * blockReward homestead (named 6 1 1) ∧
      ¬ UncleRules env homestead (block (named 6 1 1) [named 7 2 6]) [block (named 1 0 0) []] := by
  refine ⟨.child (.genesis rfl) ⟨rfl, rfl⟩ rfl (available_of (by decide +kernel) rfl
    (by decide)) (show faker.verifyUncles env _ 100 _ = _ by decide), rfl,
    by decide, fun h => ?_⟩
  obtain ⟨-, -, hhigh⟩ := h.reward (named 7 2 6) List.mem_cons_self
  exact absurd hhigh (by decide)

end Sample

end Geth.Ethash
