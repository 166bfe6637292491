import Geth.Core.Types
import Geth.Lib.Lru

/-!
# The header chain (`core/headerchain.go`)

`WriteHeader` stores a header and, when its total difficulty beats that of the current one, makes
the canonical hashes follow its branch. The tables of `core/rawdb` are maps; what is read from them
is what was written, since the encodings of the tables decode to their values. Caches are the caches
of the source, with their sizes.
-/

namespace Geth.Core

open Lib

/-- The tables of the chain database that the header chain reads or writes. -/
structure ChainDb where
  canonicalHash : Nat → Option Hash
  headerNumber : Hash → Option Nat
  header : Nat → Hash → Option Header
  td : Nat → Hash → Option Int
  headHeaderHash : Hash
  headBlockHash : Hash

namespace ChainDb

/-- An empty database. -/
def empty : ChainDb where
  canonicalHash _ := none
  headerNumber _ := none
  header _ _ := none
  td _ _ := none
  headHeaderHash := Hash.zero
  headBlockHash := Hash.zero

/-- `rawdb.ReadCanonicalHash`: the zero hash stands for a number without a hash. -/
def readCanonicalHash (db : ChainDb) (number : Nat) : Hash :=
  (db.canonicalHash number).getD Hash.zero

def writeCanonicalHash (db : ChainDb) (hash : Hash) (number : Nat) : ChainDb :=
  { db with canonicalHash := Function.update db.canonicalHash number (some hash) }

def deleteCanonicalHash (db : ChainDb) (number : Nat) : ChainDb :=
  { db with canonicalHash := Function.update db.canonicalHash number none }

def writeTd (db : ChainDb) (hash : Hash) (number : Nat) (td : Int) : ChainDb :=
  { db with td := Function.update db.td number (Function.update (db.td number) hash (some td)) }

/-- `rawdb.WriteHeader`, under the hash of the header. -/
def writeHeader (db : ChainDb) (hash : Hash) (header : Header) : ChainDb :=
  { db with
    headerNumber := Function.update db.headerNumber hash (some header.number)
    header := Function.update db.header header.number
      (Function.update (db.header header.number) hash (some header)) }

def deleteHeader (db : ChainDb) (hash : Hash) (number : Nat) : ChainDb :=
  { db with
    headerNumber := Function.update db.headerNumber hash none
    header := Function.update db.header number (Function.update (db.header number) hash none) }

def deleteTd (db : ChainDb) (hash : Hash) (number : Nat) : ChainDb :=
  { db with td := Function.update db.td number (Function.update (db.td number) hash none) }

/-- What `Genesis.Commit` writes for a genesis header. The total difficulty is that of the
specification, which need not be the difficulty of the header. -/
def commitGenesis (genesis : Header) (hash : Hash) (td : Int) : ChainDb :=
  let db := ((empty.writeTd hash genesis.number td).writeHeader hash genesis).writeCanonicalHash
    hash
    genesis.number
  { db with headBlockHash := hash, headHeaderHash := hash }

end ChainDb

structure HeaderChain where
  chainDb : ChainDb
  currentHeader : Header
  currentHeaderHash : Hash
  headerCache : Lru Hash Header
  tdCache : Lru Hash Int
  numberCache : Lru Hash Nat

inductive WriteStatus where
  | canonStatTy
  | sideStatTy
  deriving DecidableEq

/-- How a call of the header chain ends without a result. -/
inductive HeaderErr where
  | noGenesis
  | unknownAncestor
  /-- A nil dereference: a total difficulty or a header that is not stored. -/
  | nilTd
  | nilHeader
  /-- One of the two loops has not ended within its fuel. -/
  | outOfFuel
  deriving DecidableEq

namespace HeaderChain

def getBlockNumber (hc : HeaderChain) (hash : Hash) : Option Nat × HeaderChain :=
  match hc.numberCache.get hash with
  | (some number, cache) => (some number, { hc with numberCache := cache })
  | (none, cache) =>
    match hc.chainDb.headerNumber hash with
    | none => (none, { hc with numberCache := cache })
    | some number => (some number, { hc with numberCache := cache.add hash number })

def getTd (hc : HeaderChain) (hash : Hash) (number : Nat) : Option Int × HeaderChain :=
  match hc.tdCache.get hash with
  | (some td, cache) => (some td, { hc with tdCache := cache })
  | (none, cache) =>
    match hc.chainDb.td number hash with
    | none => (none, { hc with tdCache := cache })
    | some td => (some td, { hc with tdCache := cache.add hash td })

def writeTd (hc : HeaderChain) (hash : Hash) (number : Nat) (td : Int) : HeaderChain :=
  { hc with chainDb := hc.chainDb.writeTd hash number td, tdCache := hc.tdCache.add hash td }

def getHeader (hc : HeaderChain) (hash : Hash) (number : Nat) : Option Header × HeaderChain :=
  match hc.headerCache.get hash with
  | (some header, cache) => (some header, { hc with headerCache := cache })
  | (none, cache) =>
    match hc.chainDb.header number hash with
    | none => (none, { hc with headerCache := cache })
    | some header => (some header, { hc with headerCache := cache.add hash header })

def getHeaderByHash (hc : HeaderChain) (hash : Hash) : Option Header × HeaderChain :=
  match hc.getBlockNumber hash with
  | (none, hc) => (none, hc)
  | (some number, hc) => hc.getHeader hash number

/-- The first loop of `WriteHeader`: the numbers from `i` on that have a canonical hash, up to a
gap. The loop reads the database and deletes in a batch. -/
def assignedFrom (db : ChainDb) : Nat → Nat → Option (List Nat)
  | 0, _ => none
  | fuel + 1, i =>
    if db.readCanonicalHash i = Hash.zero then some []
    else (assignedFrom db fuel (i + 1)).map (i :: ·)

/-- The second loop of `WriteHeader`: rewrite the canonical hashes downwards until one agrees. -/
def reroute : Nat → HeaderChain → Hash → Nat → Option Header → Except HeaderErr HeaderChain
  | 0, _, _, _, _ => .error .outOfFuel
  | fuel + 1, hc, headHash, headNumber, headHeader =>
    if hc.chainDb.readCanonicalHash headNumber = headHash then .ok hc
    else
      let hc := { hc with chainDb := hc.chainDb.writeCanonicalHash headHash headNumber }
      match headHeader with
      | none => .error .nilHeader
      | some header =>
        let number := uint64Pred header.number
        let read := hc.getHeader header.parentHash number
        reroute fuel read.2 header.parentHash number read.1

/-- The branch of `WriteHeader` that makes a header the current one. -/
def makeCurrent (fuel : Nat) (hc : HeaderChain) (hash : Hash) (header : Header) :
    Except HeaderErr HeaderChain :=
  match assignedFrom hc.chainDb fuel (header.number + 1) with
  | none => .error .outOfFuel
  | some batch =>
    let hc := { hc with chainDb := batch.foldl ChainDb.deleteCanonicalHash hc.chainDb }
    let number := uint64Pred header.number
    let read := hc.getHeader header.parentHash number
    match reroute fuel read.2 header.parentHash number read.1 with
    | .error err => .error err
    | .ok hc =>
      let db := hc.chainDb.writeCanonicalHash hash header.number
      .ok { hc with
        chainDb := { db with headHeaderHash := hash }
        currentHeaderHash := hash
        currentHeader := header }

variable (hash : Header → Hash)

/-- `WriteHeader`; `coin` is the outcome of the random tie break. -/
def writeHeader (fuel : Nat) (coin : Bool) (hc : HeaderChain) (header : Header) :
    Except HeaderErr (WriteStatus × HeaderChain) :=
  match hc.getTd header.parentHash (uint64Pred header.number) with
  | (none, _) => .error .unknownAncestor
  | (some ptd, hc) =>
    match hc.getTd hc.currentHeaderHash hc.currentHeader.number with
    | (localTd, hc) =>
      let externTd := header.difficulty + ptd
      let hc := hc.writeTd (hash header) header.number externTd
      let hc := { hc with chainDb := hc.chainDb.writeHeader (hash header) header }
      match localTd with
      | none => .error .nilTd
      | some localTd =>
        let written :=
          if externTd > localTd ∨ externTd = localTd ∧ coin then
            (makeCurrent fuel hc (hash header) header).map fun hc => (.canonStatTy, hc)
          else .ok (.sideStatTy, hc)
        written.map fun (status, hc) =>
          (status, { hc with
            headerCache := hc.headerCache.add (hash header) header
            numberCache := hc.numberCache.add (hash header) header.number })

/-- `NewHeaderChain`; the genesis header is read and cached as `GetHeaderByNumber` does. -/
def new (chainDb : ChainDb) : Except HeaderErr HeaderChain :=
  let genesisHash := chainDb.readCanonicalHash 0
  if genesisHash = Hash.zero then .error .noGenesis
  else
    match chainDb.header 0 genesisHash with
    | none => .error .noGenesis
    | some genesisHeader =>
      let hc : HeaderChain :=
        { chainDb := chainDb
          currentHeader := genesisHeader
          currentHeaderHash := Hash.zero
          headerCache := (Lru.new 512).add genesisHash genesisHeader
          tdCache := Lru.new 1024
          numberCache := Lru.new 2048 }
      let head := chainDb.headBlockHash
      let hc :=
        if head ≠ Hash.zero then
          match hc.getHeaderByHash head with
          | (some chead, hc) => { hc with currentHeader := chead }
          | (none, hc) => hc
        else hc
      .ok { hc with currentHeaderHash := hash hc.currentHeader }

/-- Calls of `WriteHeader`, one after another. -/
def writeHeaders (fuel : Nat) : HeaderChain → List (Header × Bool) → Except HeaderErr HeaderChain
  | hc, [] => .ok hc
  | hc, (header, coin) :: calls =>
    match writeHeader hash fuel coin hc header with
    | .error err => .error err
    | .ok (_, hc) => writeHeaders fuel hc calls

/-- The first loop of `SetHead`: the header it comes to, and the headers that it deletes in a batch.
A header that is not stored is nil and ends the loop. -/
def rewind (head : Nat) :
    Nat → HeaderChain → Option Header → Option (Option Header × List Header × HeaderChain)
  | 0, _, _ => none
  | fuel + 1, hc, hdr =>
    match hdr with
    | none => some (none, [], hc)
    | some header =>
      if header.number > head then
        let read := hc.getHeader header.parentHash (uint64Pred header.number)
        (rewind head fuel read.2 read.1).map fun (hdr, batch, hc) => (hdr, header :: batch, hc)
      else some (some header, [], hc)

/-- `SetHead`, without a callback; `genesisHeader` is that of the chain. -/
def setHead (genesisHeader : Header) (fuel : Nat) (hc : HeaderChain) (head : Nat) :
    Except HeaderErr HeaderChain :=
  let height := hc.currentHeader.number
  match rewind head fuel hc (some hc.currentHeader) with
  | none => .error .outOfFuel
  | some (hdr, batch, hc) =>
    let db := batch.foldl (fun db h => (db.deleteHeader (hash h) h.number).deleteTd (hash h)
      h.number)
      hc.chainDb
    -- The numbers from `height` down to `head + 1` lose their canonical hashes.
    let db := ((List.range' (head + 1) (height - head)).reverse).foldl ChainDb.deleteCanonicalHash
      db
    let current := hdr.getD genesisHeader
    .ok
      { chainDb := { db with headHeaderHash := hash current }
        currentHeader := current
        currentHeaderHash := hash current
        headerCache := hc.headerCache.purge
        tdCache := hc.tdCache.purge
        numberCache := hc.numberCache.purge }

/-- A call on the header chain. -/
inductive Call where
  | writeHeader (header : Header) (coin : Bool)
  | setHead (head : Nat)

/-- The chain after a call; `none` is a panic or a loop without an end. A header whose parent has no
total difficulty is refused with `ErrUnknownAncestor`, which leaves the chain as it was. -/
def call (genesisHeader : Header) (fuel : Nat) (hc : HeaderChain) : Call → Option HeaderChain
  | .writeHeader header coin =>
    match writeHeader hash fuel coin hc header with
    | .ok (_, hc) => some hc
    | .error .unknownAncestor => some hc
    | .error _ => none
  | .setHead head =>
    match setHead hash genesisHeader fuel hc head with
    | .ok hc => some hc
    | .error _ => none

end HeaderChain

end Geth.Core
