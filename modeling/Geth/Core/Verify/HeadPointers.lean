import Geth.Core.BlockChain
import Geth.Core.Verify.HeaderChain

/-!
# The head pointer on disk

Whatever the database holds after a write, its head block should be stored as a whole. The writes
that `WriteBlockWithState` makes at once leave the blocks alone and move the head pointer (`Wrote`);
so it is enough to know to which blocks it moves. `reorg` moves it to the new block itself, whose
header and body are still in the batch: this is where the property fails, and the only place.
-/

namespace Geth.Core

open Lib Function List

variable {Tx : Type}

namespace BlockDb

/-- The header and the body of a block are stored, and its total difficulty is known. -/
def Whole (db : BlockDb Tx) (k : Hash) : Prop :=
  ∃ n, db.chain.headerNumber k = some n ∧ (db.chain.header n k).isSome ∧
    (db.tables.body n k).isSome ∧ (db.chain.td n k).isSome

/-- The head block is stored as a whole. -/
def HeadStored (db : BlockDb Tx) : Prop := db.Whole db.chain.headBlockHash

/-- The same blocks are stored, perhaps with more total difficulties. -/
structure Grown (db db' : BlockDb Tx) : Prop where
  headerNumber : db'.chain.headerNumber = db.chain.headerNumber
  header : db'.chain.header = db.chain.header
  body : db'.tables.body = db.tables.body
  td : ∀ n k, (db.chain.td n k).isSome → (db'.chain.td n k).isSome

theorem Grown.refl (db : BlockDb Tx) : Grown db db := ⟨rfl, rfl, rfl, fun _ _ h => h⟩

theorem Grown.trans {db db1 db2 : BlockDb Tx} (h : Grown db db1) (h' : Grown db1 db2) :
    Grown db db2 :=
  ⟨h'.headerNumber.trans h.headerNumber, h'.header.trans h.header, h'.body.trans h.body,
    fun n k hk => h'.td n k (h.td n k hk)⟩

theorem Whole.grown {db db' : BlockDb Tx} {k : Hash} (h : db.Whole k) (hg : Grown db db') :
    db'.Whole k := by
  obtain ⟨n, hn, hheader, hbody, htd⟩ := h
  refine ⟨n, ?_, ?_, ?_, hg.td n k htd⟩
  · rwa [hg.headerNumber]
  · rwa [hg.header]
  · rwa [hg.body]

end BlockDb

namespace BlockChain

open BlockDb

section

variable (hash : Header → Hash) (txHash : Tx → Hash)

/-- The head block, in memory and in the database, is that of another chain. -/
def HeadKept (bc bc' : BlockChain Tx) : Prop :=
  bc'.currentBlock = bc.currentBlock ∧ bc'.db.chain.headBlockHash = bc.db.chain.headBlockHash

/-- A call leaves no database behind whose head block is not stored as a whole, and it keeps the
head if it fails. -/
def SafeWrite (fuel : Nat) (bc : BlockChain Tx) (call : Write Tx) : Prop :=
  (∀ db ∈ (bc.write hash txHash fuel call).trail, db.HeadStored) ∧
    ∀ err, (writeBlockWithState hash txHash fuel call.1 bc call.2).1 = .error err →
      HeadKept bc (bc.write hash txHash fuel call)

/-- Every call of a run is safe; the run goes on after a call that fails. -/
def SafeAlong (fuel : Nat) : BlockChain Tx → List (Write Tx) → Prop
  | _, [] => True
  | bc, call :: calls => SafeWrite hash txHash fuel bc call ∧
      SafeAlong fuel (bc.write hash txHash fuel call) calls

/-- The blocks that a call makes the head one after another in `reorg`, the last one first. -/
def reorganised (fuel : Nat) (bc : BlockChain Tx) (call : Write Tx) : List (Block Tx) :=
  match choose hash call.1 bc call.2 with
  | (.ok true, bc) =>
    if call.2.parentHash ≠ hash bc.currentBlock.header then
      match chains hash fuel bc bc.currentBlock call.2 with
      | (.ok (_, newChain), _) => newChain
      | (.error _, _) => []
    else []
  | _ => []

/-- The head does not move in `reorg`, or it moves to a block that has been stored before, and the
batch is written. -/
def CleanWrite (fuel : Nat) (bc : BlockChain Tx) (call : Write Tx) : Prop :=
  bc.reorganised hash fuel call = [] ∨ call.1.written ∧ bc.db.Whole (hash call.2.header)

def CleanAlong (fuel : Nat) : BlockChain Tx → List (Write Tx) → Prop
  | _, [] => True
  | bc, call :: calls => CleanWrite hash fuel bc call ∧
      CleanAlong fuel (bc.write hash txHash fuel call) calls

/-- A database whose head block is stored as a whole, and whose headers are known by their numbers
and have total difficulties. -/
structure Consistent (U : Set Header) (db : BlockDb Tx) : Prop where
  header : ∀ {n k w}, db.chain.header n k = some w → w ∈ U ∧ hash w = k ∧ w.number = n ∧
    db.chain.headerNumber k = some n ∧ (db.chain.td n k).isSome
  head : db.HeadStored

/-- The database is consistent, and the head block was stored as a whole after every write so far; a
cached block is stored as a whole. -/
structure Sound (U : Set Header) (bc : BlockChain Tx) : Prop where
  consistent : Consistent hash U bc.db
  blockCache : bc.blockCache.All fun k b => hash b.header = k ∧ bc.db.Whole k
  current : bc.db.chain.headBlockHash = hash bc.currentBlock.header
  trail : ∀ db ∈ bc.trail, db.HeadStored

end

/-! ## Writes that leave the blocks alone -/

/-- What writes do that leave the blocks alone and move the head to each of `heads`. -/
structure Wrote (heads : List Hash) (bc bc' : BlockChain Tx) : Prop where
  grown : Grown bc.db bc'.db
  head : bc'.db.chain.headBlockHash ∈ bc.db.chain.headBlockHash :: heads
  kept : ∀ db ∈ bc.trail, db ∈ bc'.trail
  trail : ∀ db ∈ bc'.trail, db ∈ bc.trail ∨
    Grown bc.db db ∧ db.chain.headBlockHash ∈ bc.db.chain.headBlockHash :: heads
  seen : ∀ k ∈ heads, ∃ db ∈ bc'.trail, Grown bc.db db ∧ db.chain.headBlockHash = k
  blockCache : bc'.blockCache = bc.blockCache

namespace Wrote

variable {bc bc₁ bc₂ : BlockChain Tx} {heads heads' : List Hash}

theorem refl (bc : BlockChain Tx) : Wrote [] bc bc :=
  ⟨.refl _, mem_cons_self, fun _ h => h, fun _ h => .inl h, nofun, rfl⟩

theorem trans (h : Wrote heads bc bc₁) (h' : Wrote heads' bc₁ bc₂) :
    Wrote (heads ++ heads') bc bc₂ := by
  have hhead : ∀ k ∈ bc₁.db.chain.headBlockHash :: heads',
      k ∈ bc.db.chain.headBlockHash :: (heads ++ heads') := by
    intro k hk
    rcases mem_cons.1 hk with rfl | hk
    · exact mem_append_left _ h.head
    · exact mem_cons_of_mem _ (mem_append_right _ hk)
  refine ⟨h.grown.trans h'.grown, hhead _ h'.head, fun db hdb => h'.kept db (h.kept db hdb),
    fun db hdb => ?_, fun k hk => ?_, h'.blockCache.trans h.blockCache⟩
  · rcases h'.trail db hdb with hdb | ⟨hg, hk⟩
    · refine (h.trail db hdb).imp_right fun ⟨hg, hk⟩ => ⟨hg, ?_⟩
      exact mem_append_left _ hk
    · exact .inr ⟨h.grown.trans hg, hhead _ hk⟩
  · rcases mem_append.1 hk with hk | hk
    · obtain ⟨db, hdb, hg, heq⟩ := h.seen k hk
      exact ⟨db, h'.kept db hdb, hg, heq⟩
    · obtain ⟨db, hdb, hg, heq⟩ := h'.seen k hk
      exact ⟨db, hdb, h.grown.trans hg, heq⟩

theorem log (hg : Grown bc.db bc₁.db) (ht : bc₁.trail = bc.trail)
    (hc : bc₁.blockCache = bc.blockCache)
    (hhead : heads = [] ∧ bc₁.db.chain.headBlockHash = bc.db.chain.headBlockHash ∨
      heads = [bc₁.db.chain.headBlockHash]) :
    Wrote heads bc bc₁.log := by
  have hmem : bc₁.db.chain.headBlockHash ∈ bc.db.chain.headBlockHash :: heads := by
    rcases hhead with ⟨rfl, heq⟩ | rfl
    · rw [heq]
      exact mem_cons_self
    · exact mem_cons_of_mem _ mem_cons_self
  refine ⟨hg, hmem, fun db hdb => mem_cons_of_mem _ (by rwa [ht]), fun db hdb => ?_,
    fun k hk => ⟨bc₁.db, mem_cons_self, hg, ?_⟩, hc⟩
  · rcases mem_cons.1 hdb with rfl | hdb
    · exact .inr ⟨hg, hmem⟩
    · exact .inl (by rwa [← ht])
  · rcases hhead with ⟨rfl, -⟩ | rfl
    · exact absurd hk not_mem_nil
    · exact (mem_singleton.1 hk).symm

theorem writeChain (bc : BlockChain Tx) {write : ChainDb → ChainDb}
    (hnumber : (write bc.hc.chainDb).headerNumber = bc.hc.chainDb.headerNumber)
    (hheader : (write bc.hc.chainDb).header = bc.hc.chainDb.header)
    (htd : (write bc.hc.chainDb).td = bc.hc.chainDb.td)
    (hhead : (write bc.hc.chainDb).headBlockHash = bc.hc.chainDb.headBlockHash) :
    Wrote [] bc (bc.writeChain write) := by
  refine log ⟨hnumber, hheader, rfl, fun n k hk => ?_⟩ rfl rfl (.inl ⟨rfl, hhead⟩)
  change ((write bc.hc.chainDb).td n k).isSome
  rwa [htd]

theorem writeHead (bc : BlockChain Tx) (k : Hash) :
    Wrote [k] bc (bc.writeChain fun db => { db with headBlockHash := k }) :=
  log ⟨rfl, rfl, rfl, fun _ _ h => h⟩ rfl rfl (.inr rfl)

theorem writeTables (bc : BlockChain Tx) {write : BlockTables Tx → BlockTables Tx}
    (hbody : (write bc.tables).body = bc.tables.body) : Wrote [] bc (bc.writeTables write) :=
  log ⟨rfl, rfl, hbody, fun _ _ h => h⟩ rfl rfl (.inl ⟨rfl, rfl⟩)

theorem congr (h : Wrote heads bc bc₁) (hdb : bc₂.db = bc₁.db) (ht : bc₂.trail = bc₁.trail)
    (hc : bc₂.blockCache = bc₁.blockCache) : Wrote heads bc bc₂ := by
  refine ⟨?_, ?_, ?_, ?_, ?_, hc.trans h.blockCache⟩
  · rw [hdb]
    exact h.grown
  · rw [hdb]
    exact h.head
  · rw [ht]
    exact h.kept
  · rw [ht]
    exact h.trail
  · rw [ht]
    exact h.seen

end Wrote

section

variable (hash : Header → Hash) (txHash : Tx → Hash)

theorem setCurrentHeader_wrote (bc : BlockChain Tx) (head : Header) :
    Wrote [] bc (bc.setCurrentHeader hash head) := by
  have hw : Wrote [] bc (bc.writeChain fun db => { db with headHeaderHash := hash head }) :=
    .writeChain bc rfl rfl rfl rfl
  exact hw.congr rfl rfl rfl

theorem insert_wrote (bc : BlockChain Tx) (block : Block Tx) :
    Wrote [hash block.header] bc (bc.insert hash block) := by
  generalize h1 : bc.writeChain
    (fun db => db.writeCanonicalHash (hash block.header) block.number) = bc₁
  generalize h2 : bc₁.writeChain
    (fun db => { db with headBlockHash := hash block.header }) = bc₂
  have hw1 : Wrote [] bc bc₁ := h1 ▸ .writeChain bc rfl rfl rfl rfl
  have hw2 : Wrote [hash block.header] bc bc₂ := hw1.trans (h2 ▸ .writeHead bc₁ _)
  rw [insert]
  rw [h1, h2]
  split
  · have hw3 : Wrote [] bc₂ { bc₂ with currentBlock := block } :=
      (Wrote.refl bc₂).congr rfl rfl rfl
    have hw4 := hw3.trans (setCurrentHeader_wrote hash _ block.header)
    generalize setCurrentHeader hash { bc₂ with currentBlock := block } block.header = bc3 at hw4 ⊢
    have hw5 : Wrote [] bc3 (bc3.writeTables fun tables =>
        { tables with headFastBlockHash := hash block.header }) := .writeTables bc3 rfl
    exact (hw2.trans (hw4.trans hw5)).congr rfl rfl rfl
  · exact hw2.congr rfl rfl rfl

theorem insert_currentBlock (bc : BlockChain Tx) (block : Block Tx) :
    (bc.insert hash block).currentBlock = block := by
  rw [insert]
  split <;> rfl

theorem insert_headBlockHash (bc : BlockChain Tx) (block : Block Tx) :
    (bc.insert hash block).db.chain.headBlockHash = hash block.header := by
  rw [insert]
  split <;> rfl

theorem writeTxLookupEntries_wrote (bc : BlockChain Tx) (block : Block Tx) :
    Wrote [] bc (bc.writeTxLookupEntries hash txHash block) ∧
      HeadKept bc (bc.writeTxLookupEntries hash txHash block) := by
  rw [writeTxLookupEntries]
  induction lookupEntries hash txHash block generalizing bc with
  | nil => exact ⟨.refl bc, rfl, rfl⟩
  | cons entry entries ih =>
    obtain ⟨hw, hkept⟩ := ih (bc.writeTables fun tables =>
      tables.writeTxLookupEntry entry.1 entry.2)
    have hw0 : Wrote [] bc (bc.writeTables fun tables =>
        tables.writeTxLookupEntry entry.1 entry.2) := .writeTables bc rfl
    exact ⟨hw0.trans hw, hkept⟩

theorem insertWithEntries_wrote (bc : BlockChain Tx) (block : Block Tx) :
    Wrote [hash block.header] bc (bc.insertWithEntries hash txHash block) ∧
      (bc.insertWithEntries hash txHash block).currentBlock = block ∧
      (bc.insertWithEntries hash txHash block).db.chain.headBlockHash = hash block.header := by
  obtain ⟨hw, hblock, hhead⟩ :=
    writeTxLookupEntries_wrote hash txHash (bc.insert hash block) block
  exact ⟨(insert_wrote hash bc block).trans hw, hblock.trans (insert_currentBlock hash bc block),
    hhead.trans (insert_headBlockHash hash bc block)⟩

theorem foldl_insertWithEntries_wrote (l : List (Block Tx)) (bc : BlockChain Tx) :
    Wrote (l.map fun b => hash b.header) bc (l.foldl (insertWithEntries hash txHash) bc) := by
  induction l generalizing bc with
  | nil => exact .refl bc
  | cons block l ih => exact (insertWithEntries_wrote hash txHash bc block).1.trans (ih _)

end

variable {hash : Header → Hash} {txHash : Tx → Hash} {U : Set Header} {bc : BlockChain Tx}

/-! ## What `reorg` reads -/

/-- What can be read in the course of a call: the invariant without the head and the trail. -/
structure Readable (hash : Header → Hash) (bc : BlockChain Tx) : Prop where
  header : ∀ {n k w}, bc.db.chain.header n k = some w →
    hash w = k ∧ bc.db.chain.headerNumber k = some n ∧ (bc.db.chain.td n k).isSome
  blockCache : bc.blockCache.All fun k b => hash b.header = k ∧ bc.db.Whole k

theorem Sound.readable (h : Sound hash U bc) : Readable hash bc where
  header hw := ⟨(h.consistent.header hw).2.1, (h.consistent.header hw).2.2.2⟩
  blockCache := h.blockCache

theorem Readable.getBlock (h : Readable hash bc) (k : Hash) (n : Nat) :
    (∀ b, (bc.getBlock hash k n).1 = some b → hash b.header = k ∧ bc.db.Whole k) ∧
      ∃ cache, (bc.getBlock hash k n).2 = { bc with blockCache := cache } ∧
        Readable hash { bc with blockCache := cache } := by
  have hall := h.blockCache.get k
  rw [BlockChain.getBlock]
  split
  · next b cache hget =>
    obtain ⟨hk, hwhole⟩ := h.blockCache.get_eq (congrArg Prod.fst hget)
    rw [hget] at hall
    refine ⟨fun b' hb' => ?_, cache, rfl, h.header, hall⟩
    cases hb'
    exact ⟨hk, hwhole⟩
  · next cache hget =>
    rw [hget] at hall
    split
    · exact ⟨nofun, cache, rfl, h.header, hall⟩
    · next b hread =>
      have hwhole : hash b.header = k ∧ bc.db.Whole k := by
        rw [BlockDb.readBlock] at hread
        split at hread
        · cases hread
        · next w hw =>
          split at hread
          · cases hread
          · next body hbody =>
            cases hread
            obtain ⟨hk, hn, htd⟩ := h.header hw
            exact ⟨hk, n, hn, by rw [hw]; rfl, by rw [hbody]; rfl, htd⟩
      refine ⟨fun b' hb' => ?_, _, rfl, h.header, hall.add ⟨rfl, ?_⟩⟩
      · cases hb'
        exact hwhole
      · rw [hwhole.1]
        exact hwhole.2

variable {fuel : Nat} {bc' bc₁ bc₂ : BlockChain Tx}

theorem Readable.reduce {number : Nat} {block : Block Tx} (h : Readable hash bc)
    {passed : List (Block Tx)} {last : Option (Block Tx)}
    (hred : BlockChain.reduce hash number fuel bc (some block) = some (passed, last, bc')) :
    (∃ cache, bc' = { bc with blockCache := cache }) ∧ Readable hash bc' ∧
      (passed = [] ∧ last = some block ∧ block.number = number ∨
        block.number ≠ number ∧ ∃ rest, passed = block :: rest ∧
          ∀ b ∈ rest ++ last.toList, bc.db.Whole (hash b.header)) := by
  induction fuel generalizing bc block passed last with
  | zero => cases hred
  | succ fuel ih =>
    rw [BlockChain.reduce] at hred
    split at hred
    · next hnumber =>
      cases hred
      exact ⟨⟨_, rfl⟩, h, .inl ⟨rfl, rfl, hnumber⟩⟩
    · next hnumber =>
      obtain ⟨hwhole, cache, hstate, hread⟩ :=
        h.getBlock block.parentHash (uint64Pred block.number)
      dsimp only at hred
      rw [hstate] at hred
      obtain ⟨⟨chain, last', bc₁⟩, hrec, heq⟩ := Option.map_eq_some_iff.1 hred
      cases heq
      cases hb : (bc.getBlock hash block.parentHash (uint64Pred block.number)).1 with
      | none =>
        rw [hb] at hrec
        cases fuel with
        | zero => cases hrec
        | succ fuel =>
          cases hrec
          exact ⟨⟨cache, rfl⟩, hread, .inr ⟨hnumber, [], rfl, nofun⟩⟩
      | some b =>
        rw [hb] at hrec
        obtain ⟨⟨cache', rfl⟩, hread', hpassed⟩ := ih hread hrec
        refine ⟨⟨cache', rfl⟩, hread', .inr ⟨hnumber, chain, rfl, ?_⟩⟩
        rcases hpassed with ⟨rfl, rfl, -⟩ | ⟨-, rest, rfl, hrest⟩
        · intro b' hb'
          rw [mem_singleton.1 hb', (hwhole b hb).1]
          exact (hwhole b hb).2
        · intro b' hb'
          rcases mem_cons.1 hb' with rfl | hb'
          · rw [(hwhole _ hb).1]
            exact (hwhole _ hb).2
          · exact hrest b' hb'

theorem Readable.descend (h : Readable hash bc) (fuel : Nat) (old new : Block Tx) :
    (∃ cache, (BlockChain.descend hash fuel bc old new).2 = { bc with blockCache := cache }) ∧
      Readable hash (BlockChain.descend hash fuel bc old new).2 ∧
      ∀ oldChain newChain, (BlockChain.descend hash fuel bc old new).1 = .ok (oldChain, newChain) →
        newChain = [] ∨ hash old.header ≠ hash new.header ∧ ∃ rest, newChain = new :: rest ∧
          ∀ b ∈ rest, bc.db.Whole (hash b.header) := by
  induction fuel generalizing bc old new with
  | zero => exact ⟨⟨_, rfl⟩, h, nofun⟩
  | succ fuel ih =>
    rw [BlockChain.descend]
    split
    · refine ⟨⟨_, rfl⟩, h, fun o n heq => .inl ?_⟩
      cases heq
      rfl
    · next hne =>
      obtain ⟨-, cache1, hstate1, hread1⟩ := h.getBlock old.parentHash (uint64Pred old.number)
      obtain ⟨hwhole, cache2, hstate2, hread2⟩ :=
        hread1.getBlock new.parentHash (uint64Pred new.number)
      dsimp only
      rw [hstate1, hstate2]
      split
      · exact ⟨⟨cache2, rfl⟩, hread2, nofun⟩
      · exact ⟨⟨cache2, rfl⟩, hread2, nofun⟩
      · next old' new' _ hnew =>
        obtain ⟨⟨cache, hcache⟩, hread, hchains⟩ := ih hread2 old' new'
        split
        · next hrec =>
          rw [hrec] at hcache hread
          exact ⟨⟨cache, hcache⟩, hread, nofun⟩
        · next oldChain newChain bc' hrec =>
          rw [hrec] at hcache hread hchains
          refine ⟨⟨cache, hcache⟩, hread, fun o n heq => .inr ⟨hne, ?_⟩⟩
          cases heq
          refine ⟨newChain, rfl, ?_⟩
          rcases hchains oldChain newChain rfl with rfl | ⟨-, rest, rfl, hrest⟩
          · exact nofun
          · intro b hb
            rcases mem_cons.1 hb with rfl | hb
            · rw [(hwhole _ hnew).1]
              exact (hwhole _ hnew).2
            · exact hrest b hb

/-- The new chain is empty, or it is the new block and stored ones; then the two blocks differ. -/
theorem Readable.chains (h : Readable hash bc) (fuel : Nat) (old new : Block Tx) :
    (∃ cache, (BlockChain.chains hash fuel bc old new).2 = { bc with blockCache := cache }) ∧
      Readable hash (BlockChain.chains hash fuel bc old new).2 ∧
      ∀ oldChain newChain, (BlockChain.chains hash fuel bc old new).1 = .ok (oldChain, newChain) →
        newChain = [] ∨ (old.number ≠ new.number ∨ hash old.header ≠ hash new.header) ∧
          ∃ rest, newChain = new :: rest ∧ ∀ b ∈ rest, bc.db.Whole (hash b.header) := by
  rw [BlockChain.chains]
  split
  · next hlt =>
    split
    · exact ⟨⟨_, rfl⟩, h, nofun⟩
    · next hred =>
      obtain ⟨hcache, hread, -⟩ := h.reduce hred
      exact ⟨hcache, hread, nofun⟩
    · next passed old' bc₁ hred =>
      obtain ⟨⟨cache, rfl⟩, hread, -⟩ := h.reduce hred
      obtain ⟨⟨cache', hcache'⟩, hread', hchains⟩ := hread.descend fuel old' new
      split
      · next hrec =>
        rw [hrec] at hcache' hread'
        exact ⟨⟨cache', hcache'⟩, hread', nofun⟩
      · next oldChain newChain bc' hrec =>
        rw [hrec] at hcache' hread' hchains
        refine ⟨⟨cache', hcache'⟩, hread', fun o n heq => ?_⟩
        cases heq
        exact (hchains oldChain newChain rfl).imp_right fun ⟨_, hrest⟩ =>
          ⟨.inl (Nat.ne_of_gt hlt), hrest⟩
  · split
    · exact ⟨⟨_, rfl⟩, h, nofun⟩
    · next hred =>
      obtain ⟨hcache, hread, -⟩ := h.reduce hred
      exact ⟨hcache, hread, nofun⟩
    · next passed new' bc₁ hred =>
      obtain ⟨⟨cache, rfl⟩, hread, hpassed⟩ := h.reduce hred
      obtain ⟨⟨cache', hcache'⟩, hread', hchains⟩ := hread.descend fuel old new'
      split
      · next hrec =>
        rw [hrec] at hcache' hread'
        exact ⟨⟨cache', hcache'⟩, hread', nofun⟩
      · next oldChain newChain bc' hrec =>
        rw [hrec] at hcache' hread' hchains
        refine ⟨⟨cache', hcache'⟩, hread', fun o n heq => ?_⟩
        cases heq
        rcases hpassed with ⟨rfl, hlast, -⟩ | ⟨hne, rest, rfl, hrest⟩
        · cases hlast
          exact (hchains oldChain newChain rfl).imp_right fun ⟨hne, hrest⟩ => ⟨.inr hne, hrest⟩
        · refine .inr ⟨.inl (Ne.symm hne), rest ++ newChain, rfl, fun b hb => ?_⟩
          rcases mem_append.1 hb with hb | hb
          · exact hrest b (mem_append_left _ hb)
          · rcases hchains oldChain newChain rfl with rfl | ⟨-, rest', rfl, hrest'⟩
            · exact absurd hb not_mem_nil
            · rcases mem_cons.1 hb with rfl | hb
              · exact hrest _ (mem_append_right _ mem_cons_self)
              · exact hrest' b hb

/-! ## The steps of a call -/

theorem update_update_apply {β : Type} (f : Nat → Hash → β) (n : Nat) (k : Hash) (v : β) (n' : Nat)
    (k' : Hash) :
    update f n (update (f n) k v) n' k' =
      if n' = n ∧ k' = k then v else f n' k' := by
  by_cases hn : n' = n
  · subst hn
    rw [update_self]
    by_cases hk : k' = k
    · rw [hk, update_self, if_pos ⟨rfl, rfl⟩]
    · rw [update_of_ne hk, if_neg fun h => hk h.2]
  · rw [update_of_ne hn, if_neg fun h => hn h.1]

theorem td_writeTd (db : ChainDb) (k : Hash) (n : Nat) (td : Int) (n' : Nat) (k' : Hash) :
    (db.writeTd k n td).td n' k' = if n' = n ∧ k' = k then some td else db.td n' k' :=
  update_update_apply ..

theorem header_writeHeader (db : ChainDb) (k : Hash) (w : Header) (n' : Nat) (k' : Hash) :
    (db.writeHeader k w).header n' k' =
      if n' = w.number ∧ k' = k then some w else db.header n' k' :=
  update_update_apply ..

theorem body_writeBody (tables : BlockTables Tx) (k : Hash) (n : Nat) (body : Body Tx) (n' : Nat)
    (k' : Hash) :
    (tables.writeBody k n body).body n' k' =
      if n' = n ∧ k' = k then some body else tables.body n' k' :=
  update_update_apply ..

theorem keepTries_wrote (env : Env) (bc : BlockChain Tx) (block : Block Tx) :
    Wrote [] bc (bc.keepTries env block).2 ∧ HeadKept bc (bc.keepTries env block).2 := by
  have hread : ∀ n, Wrote [] bc (bc.getHeaderByNumber n).2 ∧
      HeadKept bc (bc.getHeaderByNumber n).2 := by
    intro n
    rw [getHeaderByNumber]
    split
    · exact ⟨.refl bc, rfl, rfl⟩
    · have hdb := HeaderChain.getHeader_chainDb bc.hc (bc.hc.chainDb.readCanonicalHash n) n
      refine ⟨(Wrote.refl bc).congr (congrArg (BlockDb.mk · bc.tables) hdb) rfl rfl, rfl, ?_⟩
      exact congrArg ChainDb.headBlockHash hdb
  rw [keepTries]
  split
  · split <;> exact ⟨.refl bc, rfl, rfl⟩
  · split
    · have := hread (block.number - triesInMemory)
      split
      · next heq => rwa [heq] at this
      · next heq => rwa [heq] at this
    · exact ⟨.refl bc, rfl, rfl⟩

theorem choose_wrote (hash : Header → Hash) (env : Env) (bc : BlockChain Tx) (block : Block Tx) :
    Wrote [] bc (choose hash env bc block).2 ∧ HeadKept bc (choose hash env bc block).2 ∧
      ∀ better, (choose hash env bc block).1 = .ok better →
        ((choose hash env bc block).2.db.chain.td block.number (hash block.header)).isSome := by
  have hdb := HeaderChain.getTd_chainDb bc.hc block.parentHash (uint64Pred block.number)
  rw [choose]
  split
  · next hc hget =>
    rw [hget] at hdb
    refine ⟨(Wrote.refl bc).congr (congrArg (BlockDb.mk · bc.tables) hdb) rfl rfl, ⟨rfl, ?_⟩, nofun⟩
    exact congrArg ChainDb.headBlockHash hdb
  · next ptd hc hget =>
    have hdb' := HeaderChain.getTd_chainDb hc (hash bc.currentBlock.header) bc.currentBlock.number
    rw [hget] at hdb
    dsimp only
    generalize hgot : hc.getTd (hash bc.currentBlock.header) bc.currentBlock.number = got at hdb' ⊢
    obtain ⟨localTd, hc1⟩ := got
    have hchain : hc1.chainDb = bc.hc.chainDb := hdb'.trans hdb
    have hnumber : hc1.chainDb.headerNumber = bc.hc.chainDb.headerNumber := by rw [hchain]
    have hheader : hc1.chainDb.header = bc.hc.chainDb.header := by rw [hchain]
    have hhead : hc1.chainDb.headBlockHash = bc.hc.chainDb.headBlockHash := by rw [hchain]
    generalize block.header.difficulty + ptd = externTd
    generalize hlog : { bc with
      hc := hc1.writeTd (hash block.header) block.number externTd }.log = bc₁
    have hw : Wrote [] bc bc₁ := by
      rw [← hlog]
      refine .log ⟨hnumber, hheader, rfl, fun n k hk => ?_⟩ rfl rfl (.inl ⟨rfl, hhead⟩)
      change ((hc1.chainDb.writeTd (hash block.header) block.number externTd).td n k).isSome
      rw [td_writeTd, hchain]
      split
      · rfl
      · exact hk
    have hkept : HeadKept bc bc₁ := by
      rw [← hlog]
      exact ⟨rfl, hhead⟩
    have hknown : (bc₁.db.chain.td block.number (hash block.header)).isSome := by
      rw [← hlog]
      change ((hc1.chainDb.writeTd (hash block.header) block.number externTd).td block.number
        (hash block.header)).isSome
      rw [td_writeTd, if_pos ⟨rfl, rfl⟩]
      rfl
    obtain ⟨hw2, hkept2⟩ := keepTries_wrote env bc₁ block
    have hboth : HeadKept bc (bc₁.keepTries env block).2 :=
      ⟨hkept2.1.trans hkept.1, hkept2.2.trans hkept.2⟩
    split
    · split
      · next heq =>
        rw [heq] at hw2 hboth
        exact ⟨hw.trans hw2, hboth, nofun⟩
      · next bc₂ heq =>
        rw [heq] at hw2 hboth
        have hknown2 := hw2.grown.td _ _ hknown
        split
        · exact ⟨hw.trans hw2, hboth, nofun⟩
        · exact ⟨hw.trans hw2, hboth, fun _ _ => hknown2⟩
    · exact ⟨hw, hkept, nofun⟩

theorem Sound.wrote {heads : List Hash} (h : Sound hash U bc) (hw : Wrote heads bc bc')
    (hheads : ∀ k ∈ heads, bc.db.Whole k)
    (hcurrent : bc'.db.chain.headBlockHash = hash bc'.currentBlock.header) :
    Sound hash U bc' := by
  have hwhole : ∀ {db}, Grown bc.db db →
      db.chain.headBlockHash ∈ bc.db.chain.headBlockHash :: heads → db.HeadStored := by
    intro db hg hk
    rcases mem_cons.1 hk with hk | hk
    · exact (hk ▸ h.consistent.head : bc.db.Whole _).grown hg
    · exact (hheads _ hk).grown hg
  refine ⟨⟨fun {n k w} hnk => ?_, hwhole hw.grown hw.head⟩, ?_, hcurrent, fun db hdb => ?_⟩
  · rw [hw.grown.header] at hnk
    obtain ⟨hU, hk, hn, hnumber, htd⟩ := h.consistent.header hnk
    rw [hw.grown.headerNumber]
    exact ⟨hU, hk, hn, hnumber, hw.grown.td n k htd⟩
  · rw [hw.blockCache]
    exact h.blockCache.mono fun k b ⟨hk, hb⟩ => ⟨hk, hb.grown hw.grown⟩
  · rcases hw.trail db hdb with hdb | ⟨hg, hk⟩
    · exact h.trail db hdb
    · exact hwhole hg hk

theorem Sound.kept (h : Sound hash U bc) (hw : Wrote [] bc bc') (hkept : HeadKept bc bc') :
    Sound hash U bc' := by
  refine h.wrote hw nofun ?_
  rw [hkept.1, hkept.2]
  exact h.current

theorem foldl_writeTxLookupEntry_body (entries : List (Hash × TxLookupEntry))
    (tables : BlockTables Tx) :
    (entries.foldl (fun tables (k, entry) => tables.writeTxLookupEntry k entry) tables).body =
      tables.body := by
  induction entries generalizing tables with
  | nil => rfl
  | cons entry entries ih => exact ih _

theorem Sound.writeBatch (hinj : Set.InjOn hash U) (txHash : Tx → Hash) (h : Sound hash U bc)
    {block : Block Tx} (hU : block.header ∈ U)
    (htd : (bc.db.chain.td block.number (hash block.header)).isSome) (canonical : Bool) :
    Sound hash U (bc.writeBatch hash txHash block canonical) ∧
      HeadKept bc (bc.writeBatch hash txHash block canonical) ∧
      (bc.writeBatch hash txHash block canonical).db.Whole (hash block.header) ∧
      ∀ db ∈ bc.trail, db ∈ (bc.writeBatch hash txHash block canonical).trail := by
  generalize hbc' : bc.writeBatch hash txHash block canonical = bc'
  have hchain : bc'.db.chain = bc.db.chain.writeHeader (hash block.header) block.header := by
    rw [← hbc']
    rfl
  have hbody : bc'.db.tables.body =
      (bc.tables.writeBody (hash block.header) block.number block.body).body := by
    rw [← hbc']
    exact foldl_writeTxLookupEntry_body _ _
  have htrail : bc'.trail = bc'.db :: bc.trail := by
    rw [← hbc']
    rfl
  have hcache : bc'.blockCache = bc.blockCache := by
    rw [← hbc']
    rfl
  have hcurrent : bc'.currentBlock = bc.currentBlock := by
    rw [← hbc']
    rfl
  -- A header that is stored under the hash of the block is its header.
  have hsame : ∀ {n w}, bc.db.chain.header n (hash block.header) = some w → n = block.number := by
    intro n w hw
    obtain ⟨hwU, hk, hn, -⟩ := h.consistent.header hw
    rw [← hn, hinj hwU hU hk]
    rfl
  have hnumber : ∀ k n, bc.db.chain.headerNumber k = some n → k ≠ hash block.header →
      bc'.db.chain.headerNumber k = some n := by
    intro k n hn hk
    rw [hchain]
    exact (update_of_ne hk ..).trans hn
  have hnumber' : bc'.db.chain.headerNumber (hash block.header) = some block.number := by
    rw [hchain]
    exact update_self ..
  have hheader : ∀ n k, bc'.db.chain.header n k =
      if n = block.number ∧ k = hash block.header then some block.header
      else bc.db.chain.header n k := by
    intro n k
    rw [hchain]
    exact header_writeHeader ..
  have hbodies : ∀ n k, bc'.db.tables.body n k =
      if n = block.number ∧ k = hash block.header then some block.body
      else bc.db.tables.body n k := by
    intro n k
    rw [hbody]
    exact body_writeBody ..
  have htds : bc'.db.chain.td = bc.db.chain.td := by
    rw [hchain]
    rfl
  have hnew : bc'.db.Whole (hash block.header) := by
    refine ⟨block.number, hnumber', ?_, ?_, by rwa [htds]⟩
    · rw [hheader, if_pos ⟨rfl, rfl⟩]
      rfl
    · rw [hbodies, if_pos ⟨rfl, rfl⟩]
      rfl
  have hold : ∀ {k}, bc.db.Whole k → bc'.db.Whole k := by
    rintro k ⟨n, hn, hhd, hbd, htd'⟩
    by_cases hk : k = hash block.header
    · rw [hk]
      exact hnew
    · refine ⟨n, hnumber k n hn hk, ?_, ?_, by rwa [htds]⟩
      · rwa [hheader, if_neg fun h => hk h.2]
      · rwa [hbodies, if_neg fun h => hk h.2]
  have hhead : bc'.db.chain.headBlockHash = bc.db.chain.headBlockHash := by
    rw [hchain]
    rfl
  have hstored : bc'.db.HeadStored := by
    rw [HeadStored, hhead]
    exact hold h.consistent.head
  refine ⟨⟨⟨fun {n k w} hw => ?_, hstored⟩, ?_, ?_, fun db hdb => ?_⟩, ⟨hcurrent, hhead⟩, hnew,
    fun db hdb => ?_⟩
  · rw [hheader] at hw
    rw [htds]
    split at hw
    · next heq =>
      cases hw
      obtain ⟨rfl, rfl⟩ := heq
      exact ⟨hU, rfl, rfl, hnumber', htd⟩
    · next hne =>
      obtain ⟨hwU, hkw, hn, hnum, htd'⟩ := h.consistent.header hw
      refine ⟨hwU, hkw, hn, hnumber k n hnum fun hk => hne ⟨?_, hk⟩, htd'⟩
      rw [hk] at hw
      exact hsame hw
  · rw [hcache]
    exact h.blockCache.mono fun k b ⟨hk, hb⟩ => ⟨hk, hold hb⟩
  · rw [hcurrent, hhead]
    exact h.current
  · rw [htrail] at hdb
    rcases mem_cons.1 hdb with rfl | hdb
    · exact hstored
    · exact h.trail db hdb
  · rw [htrail]
    exact mem_cons_of_mem _ hdb

theorem Sound.writeHead (hinj : Set.InjOn hash U) (h : Sound hash U bc) {block : Block Tx}
    (hU : block.header ∈ U)
    (htd : (bc.db.chain.td block.number (hash block.header)).isSome) :
    Sound hash U ((bc.writeBatch hash txHash block true).insert hash block) := by
  obtain ⟨hsound, -, hwhole, -⟩ := h.writeBatch hinj txHash hU htd true
  refine hsound.wrote (insert_wrote hash _ block) (fun k hk => ?_) ?_
  · rwa [mem_singleton.1 hk]
  · rw [insert_headBlockHash, insert_currentBlock]

theorem Sound.whole_of_grown (h : Sound hash U bc) {db : BlockDb Tx} (hg : Grown bc.db db)
    {k : Hash} (hk : db.Whole k) : bc.db.Whole k := by
  obtain ⟨n, hn, hheader, hbody, -⟩ := hk
  rw [hg.headerNumber] at hn
  rw [hg.header] at hheader
  rw [hg.body] at hbody
  obtain ⟨w, hw⟩ := Option.isSome_iff_exists.1 hheader
  exact ⟨n, hn, hheader, hbody, (h.consistent.header hw).2.2.2.2⟩

theorem Sound.recache (h : Sound hash U bc) {cache : Lru Hash (Block Tx)}
    (hread : Readable hash { bc with blockCache := cache }) :
    Sound hash U { bc with blockCache := cache } :=
  ⟨h.consistent, hread.blockCache, h.current, h.trail⟩

/-- Once the chains are known, `reorg` does not fail: it makes the blocks of the new chain the head,
one after another, and then only deletes lookup entries. -/
theorem reorg_of_chains (txHash : Tx → Hash) (env : Env) {old new : Block Tx}
    {oldChain newChain : List (Block Tx)}
    (hchains : chains hash fuel bc old new = (.ok (oldChain, newChain), bc₁)) :
    ∃ bc', reorg hash txHash fuel env bc old new = (.ok (), bc') ∧
      Wrote (newChain.reverse.map fun b => hash b.header) bc₁ bc' ∧
      HeadKept (newChain.reverse.foldl (insertWithEntries hash txHash) bc₁) bc' := by
  have hw := foldl_insertWithEntries_wrote hash txHash newChain.reverse bc₁
  rw [reorg, hchains]
  dsimp only
  generalize newChain.reverse.foldl (insertWithEntries hash txHash) bc₁ = bc₂ at hw ⊢
  split
  · refine ⟨_, rfl, ?_, rfl, rfl⟩
    rw [← append_nil (newChain.reverse.map _)]
    refine hw.trans (.writeTables bc₂ ?_)
    generalize (txDifference txHash _ _).map txHash = diff
    generalize bc₂.tables = tables
    induction diff generalizing tables with
    | nil => rfl
    | cons k diff ih => exact ih _
  · exact ⟨_, rfl, hw, rfl, rfl⟩

/-! ## One call -/

section

variable (hash : Header → Hash) (txHash : Tx → Hash) (block : Block Tx)

/-- How a call ends from a chain whose head it has not moved. -/
inductive Ends (bc : BlockChain Tx) : Except BlockErr WriteStatus × BlockChain Tx → Prop
  | failed (err : BlockErr) : Ends bc (.error err, bc)
  | side (htd : (bc.db.chain.td block.number (hash block.header)).isSome) :
    Ends bc (.ok .sideStatTy, bc.writeBatch hash txHash block false)
  | canon (htd : (bc.db.chain.td block.number (hash block.header)).isSome) :
    Ends bc (.ok .canonStatTy, (bc.writeBatch hash txHash block true).insert hash block)

/-- A call that moves the head in `reorg`: to the blocks of the new chain, the last of which is the
new block. -/
structure Reorganises (fuel : Nat) (env : Env) (bc : BlockChain Tx) (rest : List (Block Tx))
    (bc₁ bc₂ : BlockChain Tx) : Prop where
  reorganised : bc.reorganised hash fuel (env, block) = block :: rest
  kept : HeadKept bc bc₁
  grown : Grown bc.db bc₁.db
  td : (bc₁.db.chain.td block.number (hash block.header)).isSome
  wrote : Wrote ((block :: rest).reverse.map fun b => hash b.header) bc₁ bc₂
  currentBlock : bc₂.currentBlock = block
  headBlockHash : bc₂.db.chain.headBlockHash = hash block.header
  rest_whole : ∀ b ∈ rest, bc₁.db.Whole (hash b.header)
  ne : block ≠ bc.currentBlock
  call : writeBlockWithState hash txHash fuel env bc block =
    if env.written then
      (.ok .canonStatTy, (bc₂.writeBatch hash txHash block true).insert hash block)
    else (.error .batch, bc₂)

end

theorem HeadKept.trans (h : HeadKept bc bc₁) (h' : HeadKept bc₁ bc₂) : HeadKept bc bc₂ :=
  ⟨h'.1.trans h.1, h'.2.trans h.2⟩

theorem ends_written (hash : Header → Hash) (txHash : Tx → Hash) {block : Block Tx}
    (htd : (bc.db.chain.td block.number (hash block.header)).isSome) (written : Bool) :
    Ends hash txHash block bc (if written then
        (.ok .canonStatTy, (bc.writeBatch hash txHash block true).insert hash block)
      else (.error .batch, bc)) := by
  split
  · exact .canon htd
  · exact .failed .batch

theorem Sound.write_cases (txHash : Tx → Hash) (h : Sound hash U bc) (fuel : Nat) (env : Env)
    (block : Block Tx) :
    (bc.reorganised hash fuel (env, block) = [] ∧ ∃ bc₁, Sound hash U bc₁ ∧ HeadKept bc bc₁ ∧
        Ends hash txHash block bc₁ (writeBlockWithState hash txHash fuel env bc block)) ∨
      ∃ rest bc₁ bc₂, Sound hash U bc₁ ∧
        Reorganises hash txHash block fuel env bc rest bc₁ bc₂ := by
  obtain ⟨hw1, hkept1, htd1⟩ := choose_wrote hash env bc block
  have h1 := h.kept hw1 hkept1
  rw [writeBlockWithState, reorganised]
  generalize hch : choose hash env bc block = chosen at hw1 hkept1 htd1 h1
  obtain ⟨res, bc₁⟩ := chosen
  cases res with
  | error err => exact .inl ⟨rfl, bc₁, h1, hkept1, .failed err⟩
  | ok better =>
    have htd := htd1 better rfl
    cases better with
    | false =>
      refine .inl ⟨rfl, bc₁, h1, hkept1, ?_⟩
      dsimp only
      split
      · exact .side htd
      · exact .failed .batch
    | true =>
      by_cases hparent : block.parentHash ≠ hash bc₁.currentBlock.header
      · obtain ⟨⟨cache, hcache⟩, hread, hnew⟩ :=
          h1.readable.chains fuel bc₁.currentBlock block
        generalize hc : chains hash fuel bc₁ bc₁.currentBlock block = found at hcache hread hnew
        obtain ⟨res, bc₂⟩ := found
        dsimp only at hcache hread hnew ⊢
        subst hcache
        have h2 := h1.recache hread
        rw [if_pos hparent, if_pos hparent, hc]
        cases res with
        | error err =>
          refine .inl ⟨rfl, _, h2, hkept1, ?_⟩
          rw [reorg, hc]
          exact .failed err
        | ok found =>
          obtain ⟨oldChain, newChain⟩ := found
          obtain ⟨bc3, hreorg, hw3, hkept3⟩ := reorg_of_chains txHash env hc
          have htd3 := hw3.grown.td _ _ htd
          rw [hreorg]
          rcases hnew oldChain newChain rfl with rfl | ⟨hne, rest, rfl, hrest⟩
          · exact .inl ⟨rfl, bc3, h2.kept hw3 hkept3, hkept1.trans hkept3,
              ends_written hash txHash htd3 env.written⟩
          · rw [reverse_cons, foldl_append] at hkept3
            obtain ⟨-, hcurrent, hhead⟩ := insertWithEntries_wrote hash txHash
              (rest.reverse.foldl (insertWithEntries hash txHash)
                { bc₁ with blockCache := cache }) block
            refine .inr ⟨rest, _, bc3, h2, ?_, hkept1, hw1.grown, htd, hw3,
              hkept3.1.trans hcurrent, hkept3.2.trans hhead, hrest, fun heq => ?_, ?_⟩
            · rw [reorganised, hch]
              dsimp only
              rw [if_pos hparent, hc]
            · rw [hkept1.1, ← heq] at hne
              rcases hne with hne | hne <;> exact hne rfl
            · rw [writeBlockWithState, hch]
              dsimp only
              rw [if_pos hparent, hreorg]
      · refine .inl ⟨if_neg hparent, bc₁, h1, hkept1, ?_⟩
        dsimp only
        rw [if_neg hparent]
        exact ends_written hash txHash htd env.written

theorem Sound.ends (hinj : Set.InjOn hash U) (h : Sound hash U bc₁)
    (hkept : HeadKept bc bc₁) {block : Block Tx} (hU : block.header ∈ U)
    {res : Except BlockErr WriteStatus × BlockChain Tx} (hends : Ends hash txHash block bc₁ res) :
    Sound hash U res.2 ∧ ∀ err, res.1 = .error err → HeadKept bc res.2 := by
  cases hends with
  | failed err => exact ⟨h, fun _ _ => hkept⟩
  | side htd => exact ⟨(h.writeBatch hinj txHash hU htd false).1, nofun⟩
  | canon htd => exact ⟨h.writeHead hinj hU htd, nofun⟩

theorem Sound.reorganises {env : Env} {block : Block Tx} {rest : List (Block Tx)}
    (h : Sound hash U bc₁) (hr : Reorganises hash txHash block fuel env bc rest bc₁ bc₂)
    (hwhole : bc.db.Whole (hash block.header)) : Sound hash U bc₂ := by
  refine h.wrote hr.wrote (fun k hk => ?_) ?_
  · obtain ⟨b, hb, rfl⟩ := mem_map.1 hk
    rcases mem_cons.1 (mem_reverse.1 hb) with rfl | hb
    · exact hwhole.grown hr.grown
    · exact hr.rest_whole b hb
  · rw [hr.headBlockHash, hr.currentBlock]

theorem Reorganises.written {env : Env} {block : Block Tx} {rest : List (Block Tx)}
    (hr : Reorganises hash txHash block fuel env bc rest bc₁ bc₂)
    (h : Sound hash U bc) (hsafe : SafeWrite hash txHash fuel bc (env, block)) :
    env.written ∧ bc.db.Whole (hash block.header) := by
  obtain ⟨htrail, herr⟩ := hsafe
  rw [write, hr.call] at htrail herr
  by_cases hwritten : env.written
  · rw [if_pos hwritten] at htrail
    have hmem : hash block.header ∈ (block :: rest).reverse.map fun b => hash b.header :=
      mem_map.2 ⟨block, mem_reverse.2 mem_cons_self, rfl⟩
    obtain ⟨db, hdb, hg, hk⟩ := hr.wrote.seen _ hmem
    refine ⟨hwritten, h.whole_of_grown (hr.grown.trans hg) ?_⟩
    rw [← hk]
    exact htrail db ((insert_wrote hash _ block).kept db (mem_cons_of_mem _ hdb))
  · rw [if_neg hwritten] at herr
    have hsame := (herr .batch rfl).1
    rw [hr.currentBlock] at hsame
    exact absurd hsame hr.ne

theorem Sound.safeWrite_iff (hinj : Set.InjOn hash U) (txHash : Tx → Hash) (h : Sound hash U bc)
    (fuel : Nat) (call : Write Tx) (hU : call.2.header ∈ U) :
    (CleanWrite hash fuel bc call → Sound hash U (bc.write hash txHash fuel call)) ∧
      (SafeWrite hash txHash fuel bc call ↔ CleanWrite hash fuel bc call) := by
  obtain ⟨env, block⟩ := call
  rcases h.write_cases txHash fuel env block with
    ⟨hnil, bc₁, h1, hkept, hends⟩ | ⟨rest, bc₁, bc₂, h1, hr⟩
  · obtain ⟨hsound, herr⟩ := h1.ends hinj hkept hU hends
    exact ⟨fun _ => hsound, fun _ => .inl hnil, fun _ => ⟨hsound.trail, herr⟩⟩
  · have hclean : CleanWrite hash fuel bc (env, block) →
        env.written ∧ bc.db.Whole (hash block.header) := by
      refine fun hcl => hcl.resolve_left fun hnil => ?_
      rw [hr.reorganised] at hnil
      cases hnil
    have hsound : env.written ∧ bc.db.Whole (hash block.header) →
        Sound hash U (bc.write hash txHash fuel (env, block)) ∧
          ∃ status, (writeBlockWithState hash txHash fuel env bc block).1 = .ok status := by
      rintro ⟨hwritten, hwhole⟩
      rw [write, hr.call, if_pos hwritten]
      exact ⟨(h1.reorganises hr hwhole).writeHead hinj hU (hr.wrote.grown.td _ _ hr.td), _, rfl⟩
    refine ⟨fun hcl => (hsound (hclean hcl)).1, fun hsafe => .inr (hr.written h hsafe),
      fun hcl => ⟨(hsound (hclean hcl)).1.trail, fun err herr => ?_⟩⟩
    obtain ⟨-, status, hok⟩ := hsound (hclean hcl)
    rw [hok] at herr
    cases herr

/-! ## Runs -/

theorem Sound.safeAlong_iff (hinj : Set.InjOn hash U) (txHash : Tx → Hash) (fuel : Nat)
    (calls : List (Write Tx)) (hU : ∀ call ∈ calls, call.2.header ∈ U) (h : Sound hash U bc) :
    SafeAlong hash txHash fuel bc calls ↔ CleanAlong hash txHash fuel bc calls := by
  induction calls generalizing bc with
  | nil => exact Iff.rfl
  | cons call calls ih =>
    obtain ⟨hsound, hiff⟩ := h.safeWrite_iff hinj txHash fuel call (hU call mem_cons_self)
    rw [SafeAlong, CleanAlong, hiff]
    exact and_congr_right fun hclean =>
      ih (fun c hc => hU c (mem_cons_of_mem call hc)) (hsound hclean)

/-! ## Opening a database -/

theorem Readable.congr (h : Readable hash bc) (hdb : bc'.db = bc.db)
    (hcache : bc'.blockCache = bc.blockCache) : Readable hash bc' := by
  constructor
  · rw [hdb]
    exact h.header
  · rw [hdb, hcache]
    exact h.blockCache

theorem Readable.getBlockByHash (h : Readable hash bc) (k : Hash) :
    (∀ b, (bc.getBlockByHash hash k).1 = some b → hash b.header = k ∧ bc.db.Whole k) ∧
      (bc.getBlockByHash hash k).2.db = bc.db ∧ Readable hash (bc.getBlockByHash hash k).2 ∧
      (bc.getBlockByHash hash k).2.trail = bc.trail ∧
      (bc.getBlockByHash hash k).2.currentBlock = bc.currentBlock := by
  have hdb := HeaderChain.getBlockNumber_chainDb bc.hc k
  rw [BlockChain.getBlockByHash]
  split
  · next hc heq =>
    rw [heq] at hdb
    have hsame : ({ bc with hc := hc } : BlockChain Tx).db = bc.db :=
      congrArg (BlockDb.mk · bc.tables) hdb
    exact ⟨nofun, hsame, h.congr hsame rfl, rfl, rfl⟩
  · next n hc heq =>
    rw [heq] at hdb
    have hsame : ({ bc with hc := hc } : BlockChain Tx).db = bc.db :=
      congrArg (BlockDb.mk · bc.tables) hdb
    obtain ⟨hread, cache, hstate, hreadable⟩ := (h.congr hsame rfl).getBlock k n
    rw [hstate]
    rw [hsame] at hread
    exact ⟨hread, hsame, hreadable, rfl, rfl⟩

theorem Sound.loadHeads (h : Sound hash U bc) : Sound hash U (BlockChain.loadHeads hash bc) := by
  rw [BlockChain.loadHeads]
  generalize hgot : (if bc.hc.chainDb.headHeaderHash ≠ Hash.zero then
    bc.hc.getHeaderByHash bc.hc.chainDb.headHeaderHash else (none, bc.hc)) = got
  have hdb : got.2.chainDb = bc.hc.chainDb := by
    rw [← hgot]
    split
    · exact HeaderChain.getHeaderByHash_chainDb ..
    · rfl
  have hw : Wrote [] bc { bc with hc := got.2 } :=
    (Wrote.refl bc).congr (congrArg (BlockDb.mk · bc.tables) hdb) rfl rfl
  have hhead : got.2.chainDb.headBlockHash = bc.hc.chainDb.headBlockHash := by rw [hdb]
  have h1 := h.kept (hw.trans (setCurrentHeader_wrote hash _ (got.1.getD bc.currentBlock.header)))
    ⟨rfl, hhead⟩
  generalize setCurrentHeader hash { bc with hc := got.2 }
    (got.1.getD bc.currentBlock.header) = bc₁ at h1 ⊢
  obtain ⟨-, hdb1, hread, htrail, hcurrent⟩ :=
    h1.readable.getBlockByHash bc₁.tables.headFastBlockHash
  split
  · refine ⟨?_, hread.blockCache, ?_, ?_⟩
    · change Consistent hash U (bc₁.getBlockByHash hash bc₁.tables.headFastBlockHash).2.db
      rw [hdb1]
      exact h1.consistent
    · exact (congrArg (·.chain.headBlockHash) hdb1).trans
        (h1.current.trans (congrArg (hash ·.header) hcurrent.symm))
    · rw [htrail]
      exact h1.trail
  · exact ⟨h1.consistent, h1.blockCache, h1.current, h1.trail⟩

theorem getBlock_of_empty (h : bc.blockCache.entries = []) (k : Hash) (n : Nat) :
    (bc.getBlock hash k n).1 = bc.db.readBlock k n := by
  have hget : bc.blockCache.get k = (none, bc.blockCache) := by simp [Lru.get, Lru.peek, h]
  rw [BlockChain.getBlock, hget]
  cases bc.db.readBlock k n <;> rfl

theorem Consistent.new {db : BlockDb Tx} (h : Consistent hash U db) {cacheDisabled : Bool}
    (hnew : BlockChain.new hash db cacheDisabled = some bc) : Sound hash U bc := by
  obtain ⟨chain, tables⟩ := db
  rw [BlockChain.new] at hnew
  split at hnew
  · cases hnew
  · next hc heq =>
    obtain rfl : hc.chainDb = chain := HeaderChain.new_chainDb heq
    split at hnew
    · cases hnew
    · next genesis hread =>
      have hempty : Readable hash (BlockChain.mk hc tables genesis genesis (Lru.new 256)
          cacheDisabled []) :=
        ⟨fun hw => ⟨(h.header hw).2.1, (h.header hw).2.2.2⟩, Lru.all_new 256⟩
      -- The genesis block is read as `GetBlock` reads it.
      have hget : ((BlockChain.mk hc tables genesis genesis (Lru.new 256)
          cacheDisabled []).getBlock hash (hc.chainDb.readCanonicalHash 0) 0).1 = some genesis :=
        (getBlock_of_empty rfl _ 0).trans hread
      obtain ⟨hhash, hwhole⟩ := (hempty.getBlock _ 0).1 genesis hget
      have hreadable : Readable hash (BlockChain.mk hc tables genesis genesis
          ((Lru.new 256).add (hash genesis.header) genesis) cacheDisabled []) := by
        refine ⟨hempty.header, hempty.blockCache.add ⟨rfl, ?_⟩⟩
        rw [hhash]
        exact hwhole
      obtain ⟨hblock, hdb, hread1, htrail, -⟩ :=
        hreadable.getBlockByHash hc.chainDb.headBlockHash
      rw [loadLastState] at hnew
      split at hnew
      · cases hnew
      · split at hnew
        · cases hnew
        · next currentBlock bc₁ hgot =>
          cases hnew
          rw [hgot] at hblock hdb hread1 htrail
          refine Sound.loadHeads ⟨?_, hread1.blockCache, ?_, ?_⟩
          · change Consistent hash U bc₁.db
            rw [hdb]
            exact h
          · exact (congrArg (·.chain.headBlockHash) hdb).trans (hblock currentBlock rfl).1.symm
          · rw [htrail]
            exact nofun

theorem consistent_commitGenesis {genesis : Block Tx} (hU : genesis.header ∈ U) (td : Int) :
    Consistent hash U (commitGenesis hash genesis td) := by
  have hheader : ∀ n k, (commitGenesis hash genesis td).chain.header n k =
      if n = genesis.number ∧ k = hash genesis.header then some genesis.header else none :=
    fun n k => header_writeHeader ..
  have hnumber : (commitGenesis hash genesis td).chain.headerNumber (hash genesis.header) =
      some genesis.number := update_self ..
  have htd : (commitGenesis hash genesis td).chain.td genesis.number (hash genesis.header) =
      some td := (td_writeTd ..).trans (if_pos ⟨rfl, rfl⟩)
  have hbody : (commitGenesis hash genesis td).tables.body genesis.number (hash genesis.header) =
      some genesis.body := (body_writeBody ..).trans (if_pos ⟨rfl, rfl⟩)
  refine ⟨fun {n k w} hw => ?_, genesis.number, hnumber, ?_, ?_, ?_⟩
  · rw [hheader] at hw
    split at hw
    · next heq =>
      cases hw
      obtain ⟨rfl, rfl⟩ := heq
      exact ⟨hU, rfl, rfl, hnumber, by rw [htd]; rfl⟩
    · cases hw
  · rw [hheader, if_pos ⟨rfl, rfl⟩]
    rfl
  · change ((commitGenesis hash genesis td).tables.body genesis.number (hash genesis.header)).isSome
    rw [hbody]
    rfl
  · change ((commitGenesis hash genesis td).chain.td genesis.number (hash genesis.header)).isSome
    rw [htd]
    rfl

/-- On a chain that is opened on a consistent database, the head block is stored as a whole after
every write and a call that fails keeps the head, if and only if no call moves the head in `reorg`
to a block that is not stored yet, or before a batch that is not written. -/
theorem safeAlong_iff_cleanAlong (hash : Header → Hash) (txHash : Tx → Hash) {U : Set Header}
    (hinj : Set.InjOn hash U) {db : BlockDb Tx} (hdb : Consistent hash U db) {cacheDisabled : Bool}
    {bc : BlockChain Tx} (hnew : new hash db cacheDisabled = some bc) (fuel : Nat)
    (calls : List (Write Tx)) (hU : ∀ call ∈ calls, call.2.header ∈ U) :
    SafeAlong hash txHash fuel bc calls ↔ CleanAlong hash txHash fuel bc calls :=
  (hdb.new hnew).safeAlong_iff hinj txHash fuel calls hU

namespace Sample

open HeaderChain.Sample

/-- Nothing fails. -/
def fine : Env := ⟨false, true, true, true, true⟩

/-- The batch of the block is not written. -/
def unwritten : Env := ⟨false, true, true, false, true⟩

/-- A block without transactions, which are of no type then. -/
def block (header : Header) : Block Empty := ⟨header, [], []⟩

def noHash (tx : Empty) : Hash := nomatch tx

/-- The headers of the sample runs. -/
def headers : List Header := [origin, light, lighter, heavy]

theorem injOn_headers : Set.InjOn extraHash { x | x ∈ headers } := by
  have : ∀ x ∈ headers, ∀ y ∈ headers, extraHash x = extraHash y → x = y := by decide +kernel
  exact fun x hx y hy => this x hx y hy

/-- The chain of a genesis block. -/
def opened : Option (BlockChain Empty) :=
  new extraHash (commitGenesis extraHash (block origin) 1) true

/-- A call for a block. -/
def put (env : Env) (header : Header) (bc : BlockChain Empty) : BlockChain Empty :=
  bc.write extraHash noHash 4 (env, block header)

/-- Two blocks on top of each other, the second of which fails at first. -/
def growth : List (Write Empty) :=
  [(fine, block light), (unwritten, block lighter), (fine, block lighter)]

theorem safeAlong_growth : ∃ bc, opened = some bc ∧ SafeAlong extraHash noHash 4 bc growth := by
  have hrun : (opened.any fun bc => (bc.reorganised extraHash 4 (fine, block light)).isEmpty &&
      ((put fine light bc).reorganised extraHash 4 (unwritten, block lighter)).isEmpty &&
      ((put unwritten lighter (put fine light bc)).reorganised extraHash 4
        (fine, block lighter)).isEmpty) = true := by
    decide
  obtain ⟨bc, hnew, hrun⟩ := (Option.any_eq_true _ _).1 hrun
  simp only [Bool.and_eq_true, List.isEmpty_iff] at hrun
  have hU : ∀ call ∈ growth, call.2.header ∈ headers := by decide +kernel
  have hgenesis : (block origin).header ∈ { x | x ∈ headers } := by decide +kernel
  refine ⟨bc, hnew, (safeAlong_iff_cleanAlong extraHash noHash injOn_headers
    (consistent_commitGenesis hgenesis 1) hnew 4 growth hU).2 ?_⟩
  exact ⟨.inl hrun.1.1, .inl hrun.1.2, .inl hrun.2, trivial⟩

/-- A heavier block of another branch: after a write the head is a block that is not stored, and
when the batch fails the head stays there. -/
theorem not_safeWrite_heavy : ∃ bc, opened = some bc ∧
    (∃ db ∈ (put fine heavy (put fine light bc)).trail, ¬ db.HeadStored) ∧
    (writeBlockWithState extraHash noHash 4 unwritten (put fine light bc) (block heavy)).1 =
      .error .batch ∧
    (put unwritten heavy (put fine light bc)).currentBlock = block heavy ∧
    (put fine light bc).currentBlock = block light := by
  have hrun : (opened.any fun bc =>
      ((put fine heavy (put fine light bc)).trail.any fun db =>
        (db.chain.headerNumber db.chain.headBlockHash).isNone) &&
      (match (writeBlockWithState extraHash noHash 4 unwritten (put fine light bc)
          (block heavy)).1 with
        | .error err => err = .batch
        | .ok _ => false) &&
      (put unwritten heavy (put fine light bc)).currentBlock = block heavy &&
      (put fine light bc).currentBlock = block light) = true := by
    decide +kernel
  obtain ⟨bc, hnew, hrun⟩ := (Option.any_eq_true _ _).1 hrun
  simp only [Bool.and_eq_true, decide_eq_true_eq] at hrun
  obtain ⟨⟨⟨hany, herr⟩, hheavy⟩, hlight⟩ := hrun
  obtain ⟨db, hdb, hnone⟩ := List.any_eq_true.1 hany
  refine ⟨bc, hnew, ⟨db, hdb, ?_⟩, ?_, hheavy, hlight⟩
  · rintro ⟨n, hn, -⟩
    rw [hn] at hnone
    cases hnone
  · split at herr
    · next heq => rw [heq, of_decide_eq_true herr]
    · cases herr

end Sample

end BlockChain

end Geth.Core
