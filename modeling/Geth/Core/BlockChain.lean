import Geth.Core.HeaderChain

/-!
# The block chain (`core/blockchain.go`)

`WriteBlockWithState` stores a block and, when it is better than the current one, makes it the head
of the chain; `reorg` moves the head to a block of another branch. Some writes go to the database at
once and some through a batch. The trail of a chain holds the database after each write, the last
one first: it is not part of the source, and nothing reads it.

Left out are receipts and logs, preimages and tries (the tables of the chain do not hold them), the
queue of future blocks and the event feeds.
-/

namespace Geth.Core

open Lib

variable {Tx : Type}

structure Body (Tx : Type) where
  transactions : List Tx
  uncles : List Header
  deriving DecidableEq

structure Block (Tx : Type) where
  header : Header
  transactions : List Tx
  uncles : List Header
  deriving DecidableEq

namespace Block

/-- `NumberU64`. -/
def number (block : Block Tx) : Nat := block.header.number

def parentHash (block : Block Tx) : Hash := block.header.parentHash

def body (block : Block Tx) : Body Tx := ⟨block.transactions, block.uncles⟩

end Block

structure TxLookupEntry where
  blockHash : Hash
  blockIndex : Nat
  index : Nat
  deriving DecidableEq

/-- The tables that only the block chain writes. -/
structure BlockTables (Tx : Type) where
  body : Nat → Hash → Option (Body Tx)
  txLookup : Hash → Option TxLookupEntry
  headFastBlockHash : Hash

namespace BlockTables

def writeBody (tables : BlockTables Tx) (hash : Hash) (number : Nat) (body : Body Tx) :
    BlockTables Tx :=
  { tables with
    body := Function.update tables.body number
      (Function.update (tables.body number) hash (some body)) }

/-- One entry of `rawdb.WriteTxLookupEntries`. -/
def writeTxLookupEntry (tables : BlockTables Tx) (txHash : Hash) (entry : TxLookupEntry) :
    BlockTables Tx :=
  { tables with txLookup := Function.update tables.txLookup txHash (some entry) }

def deleteTxLookupEntry (tables : BlockTables Tx) (txHash : Hash) : BlockTables Tx :=
  { tables with txLookup := Function.update tables.txLookup txHash none }

end BlockTables

/-- The database: the tables that it shares with the header chain, and its own. -/
structure BlockDb (Tx : Type) where
  chain : ChainDb
  tables : BlockTables Tx

def BlockDb.readBlock (db : BlockDb Tx) (hash : Hash) (number : Nat) : Option (Block Tx) :=
  match db.chain.header number hash with
  | none => none
  | some header =>
    match db.tables.body number hash with
    | none => none
    | some body => some ⟨header, body.transactions, body.uncles⟩

/-- `BlockChain`; the header chain holds the tables that both write. -/
structure BlockChain (Tx : Type) where
  hc : HeaderChain
  tables : BlockTables Tx
  currentBlock : Block Tx
  currentFastBlock : Block Tx
  blockCache : Lru Hash (Block Tx)
  /-- `cacheConfig.Disabled`: an archive node. -/
  cacheDisabled : Bool
  /-- The database after each write. -/
  trail : List (BlockDb Tx)

/-- How a call of the block chain ends without a result. -/
inductive BlockErr where
  | unknownAncestor
  /-- The errors of `state.Commit`, of `triedb.Commit` and of `batch.Write`. -/
  | state
  | trie
  | batch
  | invalidOldChain
  | invalidNewChain
  /-- A nil dereference: a total difficulty or a header that is not stored. -/
  | nilTd
  | nilHeader
  /-- A loop of `reorg` has not ended within its fuel. -/
  | outOfFuel
  deriving DecidableEq

/-- What a call does not decide itself. -/
structure Env where
  /-- The random tie break. -/
  coin : Bool
  /-- `state.Commit` succeeds. -/
  committed : Bool
  /-- `triedb.Commit` succeeds. -/
  flushed : Bool
  /-- `batch.Write` of the block succeeds. -/
  written : Bool
  /-- `batch.Write` of `reorg` succeeds; its error is dropped. -/
  pruned : Bool
  deriving DecidableEq

def triesInMemory : Nat := 128

namespace BlockChain

/-- The database as it is now. -/
def db (bc : BlockChain Tx) : BlockDb Tx := ⟨bc.hc.chainDb, bc.tables⟩

/-- A write to the database has been done. -/
def log (bc : BlockChain Tx) : BlockChain Tx := { bc with trail := bc.db :: bc.trail }

/-- A write to the tables that are shared with the header chain. -/
def writeChain (bc : BlockChain Tx) (write : ChainDb → ChainDb) : BlockChain Tx :=
  { bc with hc := { bc.hc with chainDb := write bc.hc.chainDb } }.log

/-- A write to the tables of the block chain. -/
def writeTables (bc : BlockChain Tx) (write : BlockTables Tx → BlockTables Tx) : BlockChain Tx :=
  { bc with tables := write bc.tables }.log

variable (hash : Header → Hash) (txHash : Tx → Hash)

def getBlock (bc : BlockChain Tx) (blockHash : Hash) (number : Nat) :
    Option (Block Tx) × BlockChain Tx :=
  match bc.blockCache.get blockHash with
  | (some block, cache) => (some block, { bc with blockCache := cache })
  | (none, cache) =>
    match bc.db.readBlock blockHash number with
    | none => (none, { bc with blockCache := cache })
    | some block => (some block, { bc with blockCache := cache.add (hash block.header) block })

def setCurrentHeader (bc : BlockChain Tx) (head : Header) : BlockChain Tx :=
  let bc := bc.writeChain fun db => { db with headHeaderHash := hash head }
  { bc with hc := { bc.hc with currentHeader := head, currentHeaderHash := hash head } }

def insert (bc : BlockChain Tx) (block : Block Tx) : BlockChain Tx :=
  let updateHeads := bc.hc.chainDb.readCanonicalHash block.number ≠ hash block.header
  let bc := bc.writeChain fun db => db.writeCanonicalHash (hash block.header) block.number
  let bc := bc.writeChain fun db => { db with headBlockHash := hash block.header }
  let bc := { bc with currentBlock := block }
  if updateHeads then
    let bc := bc.setCurrentHeader hash block.header
    let bc := bc.writeTables fun tables => { tables with headFastBlockHash := hash block.header }
    { bc with currentFastBlock := block }
  else bc

/-- The entries that `rawdb.WriteTxLookupEntries` writes for a block. -/
def lookupEntries (block : Block Tx) : List (Hash × TxLookupEntry) :=
  block.transactions.zipIdx.map fun (tx, i) => (txHash tx, ⟨hash block.header, block.number, i⟩)

/-- `rawdb.WriteTxLookupEntries`, each entry at once. -/
def writeTxLookupEntries (bc : BlockChain Tx) (block : Block Tx) : BlockChain Tx :=
  (lookupEntries hash txHash block).foldl
    (fun bc (k, entry) => bc.writeTables fun tables => tables.writeTxLookupEntry k entry) bc

/-- The loops of `reorg` that reduce the higher of the two chains to a number: the blocks that they
pass, and the block that they come to. -/
def reduce (number : Nat) :
    Nat → BlockChain Tx → Option (Block Tx) →
      Option (List (Block Tx) × Option (Block Tx) × BlockChain Tx)
  | 0, _, _ => none
  | _ + 1, bc, none => some ([], none, bc)
  | fuel + 1, bc, some block =>
    if block.number = number then some ([], some block, bc)
    else
      let read := bc.getBlock hash block.parentHash (uint64Pred block.number)
      (reduce number fuel read.2 read.1).map fun (chain, last, bc) => (block :: chain, last, bc)

/-- The loop of `reorg` that goes down both chains to a common block. -/
def descend :
    Nat → BlockChain Tx → Block Tx → Block Tx →
      Except BlockErr (List (Block Tx) × List (Block Tx)) × BlockChain Tx
  | 0, bc, _, _ => (.error .outOfFuel, bc)
  | fuel + 1, bc, oldBlock, newBlock =>
    if hash oldBlock.header = hash newBlock.header then (.ok ([], []), bc)
    else
      let readOld := bc.getBlock hash oldBlock.parentHash (uint64Pred oldBlock.number)
      let readNew := readOld.2.getBlock hash newBlock.parentHash (uint64Pred newBlock.number)
      match readOld.1, readNew.1 with
      | none, _ => (.error .invalidOldChain, readNew.2)
      | some _, none => (.error .invalidNewChain, readNew.2)
      | some old, some new =>
        match descend fuel readNew.2 old new with
        | (.error err, bc) => (.error err, bc)
        | (.ok (oldChain, newChain), bc) => (.ok (oldBlock :: oldChain, newBlock :: newChain), bc)

/-- The part of `reorg` that reads: the old chain and the new chain, from their heads down to the
common block. -/
def chains (fuel : Nat) (bc : BlockChain Tx) (oldBlock newBlock : Block Tx) :
    Except BlockErr (List (Block Tx) × List (Block Tx)) × BlockChain Tx :=
  if oldBlock.number > newBlock.number then
    match reduce hash newBlock.number fuel bc (some oldBlock) with
    | none => (.error .outOfFuel, bc)
    | some (_, none, bc) => (.error .invalidOldChain, bc)
    | some (passed, some oldBlock, bc) =>
      match descend hash fuel bc oldBlock newBlock with
      | (.error err, bc) => (.error err, bc)
      | (.ok (oldChain, newChain), bc) => (.ok (passed ++ oldChain, newChain), bc)
  else
    match reduce hash oldBlock.number fuel bc (some newBlock) with
    | none => (.error .outOfFuel, bc)
    | some (_, none, bc) => (.error .invalidNewChain, bc)
    | some (passed, some newBlock, bc) =>
      match descend hash fuel bc oldBlock newBlock with
      | (.error err, bc) => (.error err, bc)
      | (.ok (oldChain, newChain), bc) => (.ok (oldChain, passed ++ newChain), bc)

def txDifference (a b : List Tx) : List Tx := a.filter fun tx => txHash tx ∉ b.map txHash

/-- A block of the new chain becomes the head, with its lookup entries. -/
def insertWithEntries (bc : BlockChain Tx) (block : Block Tx) : BlockChain Tx :=
  (bc.insert hash block).writeTxLookupEntries hash txHash block

def reorg (fuel : Nat) (env : Env) (bc : BlockChain Tx) (oldBlock newBlock : Block Tx) :
    Except BlockErr Unit × BlockChain Tx :=
  match chains hash fuel bc oldBlock newBlock with
  | (.error err, bc) => (.error err, bc)
  | (.ok (oldChain, newChain), bc) =>
    let bc := newChain.reverse.foldl (insertWithEntries hash txHash) bc
    let deletedTxs := oldChain.flatMap Block.transactions
    let addedTxs := newChain.reverse.flatMap Block.transactions
    let diff := (txDifference txHash deletedTxs addedTxs).map txHash
    if env.pruned then
      (.ok (), bc.writeTables fun tables => diff.foldl BlockTables.deleteTxLookupEntry tables)
    else (.ok (), bc)

def getHeaderByNumber (bc : BlockChain Tx) (number : Nat) : Option Header × BlockChain Tx :=
  let headerHash := bc.hc.chainDb.readCanonicalHash number
  if headerHash = Hash.zero then (none, bc)
  else
    let read := bc.hc.getHeader headerHash number
    (read.1, { bc with hc := read.2 })

/-- What `WriteBlockWithState` does with the tries: an archive node flushes them, another one reads
the header whose trie it may flush, and dereferences it. -/
def keepTries (env : Env) (bc : BlockChain Tx) (block : Block Tx) :
    Except BlockErr Unit × BlockChain Tx :=
  if bc.cacheDisabled then
    if env.flushed then (.ok (), bc) else (.error .trie, bc)
  else if block.number > triesInMemory then
    match bc.getHeaderByNumber (block.number - triesInMemory) with
    | (none, bc) => (.error .nilHeader, bc)
    | (some _, bc) => (.ok (), bc)
  else (.ok (), bc)

/-- The part of `WriteBlockWithState` up to the choice of the fork: whether the block is better than
the current one. -/
def choose (env : Env) (bc : BlockChain Tx) (block : Block Tx) :
    Except BlockErr Bool × BlockChain Tx :=
  match bc.hc.getTd block.parentHash (uint64Pred block.number) with
  | (none, hc) => (.error .unknownAncestor, { bc with hc := hc })
  | (some ptd, hc) =>
    let currentBlock := bc.currentBlock
    match hc.getTd (hash currentBlock.header) currentBlock.number with
    | (localTd, hc) =>
      let externTd := block.header.difficulty + ptd
      let bc := { bc with hc := hc.writeTd (hash block.header) block.number externTd }.log
      if env.committed then
        match bc.keepTries env block with
        | (.error err, bc) => (.error err, bc)
        | (.ok (), bc) =>
          match localTd with
          | none => (.error .nilTd, bc)
          | some localTd =>
            let better : Bool := externTd > localTd ∨ externTd = localTd ∧
              (block.number < currentBlock.number ∨ block.number = currentBlock.number ∧ env.coin)
            (.ok better, bc)
      else (.error .state, bc)

/-- The write of the batch of `WriteBlockWithState`, with the lookup entries of a block that becomes
the head. -/
def writeBatch (bc : BlockChain Tx) (block : Block Tx) (canonical : Bool) : BlockChain Tx :=
  let entries := if canonical then lookupEntries hash txHash block else []
  let tables := entries.foldl (fun tables (k, entry) => tables.writeTxLookupEntry k entry)
    (bc.tables.writeBody (hash block.header) block.number block.body)
  let chainDb := bc.hc.chainDb.writeHeader (hash block.header) block.header
  { bc with hc := { bc.hc with chainDb := chainDb }, tables := tables }.log

def writeBlockWithState (fuel : Nat) (env : Env) (bc : BlockChain Tx) (block : Block Tx) :
    Except BlockErr WriteStatus × BlockChain Tx :=
  match choose hash env bc block with
  | (.error err, bc) => (.error err, bc)
  | (.ok true, bc) =>
    let moved :=
      if block.parentHash ≠ hash bc.currentBlock.header then
        reorg hash txHash fuel env bc bc.currentBlock block
      else (.ok (), bc)
    match moved with
    | (.error err, bc) => (.error err, bc)
    | (.ok (), bc) =>
      if env.written then
        (.ok .canonStatTy, (bc.writeBatch hash txHash block true).insert hash block)
      else (.error .batch, bc)
  | (.ok false, bc) =>
    if env.written then (.ok .sideStatTy, bc.writeBatch hash txHash block false)
    else (.error .batch, bc)

/-- A call, with what it does not decide itself. -/
abbrev Write (Tx : Type) := Env × Block Tx

/-- The chain after a call, which may have failed. -/
def write (fuel : Nat) (bc : BlockChain Tx) (call : Write Tx) : BlockChain Tx :=
  (writeBlockWithState hash txHash fuel call.1 bc call.2).2

/-- What `Genesis.Commit` writes for a genesis block. -/
def commitGenesis (genesis : Block Tx) (td : Int) : BlockDb Tx where
  chain := ChainDb.commitGenesis genesis.header (hash genesis.header) td
  tables := BlockTables.writeBody ⟨fun _ _ => none, fun _ => none, Hash.zero⟩
    (hash genesis.header) genesis.number genesis.body

def getBlockByHash (bc : BlockChain Tx) (blockHash : Hash) : Option (Block Tx) × BlockChain Tx :=
  match bc.hc.getBlockNumber blockHash with
  | (none, hc) => (none, { bc with hc := hc })
  | (some number, hc) => getBlock hash { bc with hc := hc } blockHash number

/-- The part of `loadLastState` that restores the head header and the head fast block. -/
def loadHeads (bc : BlockChain Tx) : BlockChain Tx :=
  let head := bc.hc.chainDb.headHeaderHash
  let read := if head ≠ Hash.zero then bc.hc.getHeaderByHash head else (none, bc.hc)
  let bc := { bc with hc := read.2 }
  let bc := bc.setCurrentHeader hash (read.1.getD bc.currentBlock.header)
  let head := bc.tables.headFastBlockHash
  let read := if head ≠ Hash.zero then bc.getBlockByHash hash head else (none, bc)
  { read.2 with currentFastBlock := read.1.getD bc.currentBlock }

/-- `loadLastState` where the head block is stored, with its state; elsewhere the source resets or
repairs the chain. -/
def loadLastState (bc : BlockChain Tx) : Option (BlockChain Tx) :=
  let head := bc.hc.chainDb.headBlockHash
  if head = Hash.zero then none
  else
    match bc.getBlockByHash hash head with
    | (none, _) => none
    | (some currentBlock, bc) => some (loadHeads hash { bc with currentBlock := currentBlock })

/-- `NewBlockChain`. Up to `loadLastState` the chain has no current block; the genesis block stands
in for it. -/
def new (db : BlockDb Tx) (cacheDisabled : Bool) : Option (BlockChain Tx) :=
  match HeaderChain.new hash db.chain with
  | .error _ => none
  | .ok hc =>
    match db.readBlock (db.chain.readCanonicalHash 0) 0 with
    | none => none
    | some genesisBlock =>
      loadLastState hash
        { hc := hc
          tables := db.tables
          currentBlock := genesisBlock
          currentFastBlock := genesisBlock
          blockCache := (Lru.new 256).add (hash genesisBlock.header) genesisBlock
          cacheDisabled := cacheDisabled
          trail := [] }

end BlockChain

end Geth.Core
