import Geth.Mpt.Database

/-!
# Flushing the node database (`trie/database.go`)

`Cap` and `Commit` move data from memory to disk in two phases: under the read lock it is written
out through a batch, and under the write lock it is then dropped from memory. A map is ranged over
in the order of its list, and storage sizes, floats in the source, are integers. Statistics, logs
and reference counts are left out.
-/

namespace Geth.Mpt

def gatherChildren {K F : Type} : Node K F → List Hash
  | .short _ val _ => gatherChildren val
  | .full children _ => (List.ofFn fun i : Fin 16 => gatherChildren (children i.castSucc)).flatten
  | .hash h => [h]
  | _ => []

/-- `cachedNode`; of `children` only the keys are kept. -/
structure CacheEntry where
  node : CachedNode
  size : UInt16
  children : List Hash
  flushPrev : Hash
  flushNext : Hash

def CacheEntry.childs (n : CacheEntry) : List Hash :=
  match n.node with
  | .raw _ => n.children
  | .node node => n.children ++ gatherChildren node

/-- `sync.RWMutex`: how many readers hold it, and whether a writer does. -/
structure RWMutex where
  readers : Nat := 0
  writer : Bool := false
  deriving DecidableEq

/-- `Database` without the disk. The entry of the zero hash is the metadata root. -/
structure Memory where
  nodes : List (Hash × CacheEntry)
  oldest : Hash
  preimages : List (Hash × Bytes)
  nodesSize : Int
  preimagesSize : Int
  lock : RWMutex

/-- How a call ends other than by returning nil; `err` is the batch's error. -/
inductive Exit where
  | err
  | panic
  | blocked
  | outOfFuel

namespace Memory

def rLock (db : Memory) : Except Exit Memory :=
  if db.lock.writer then .error .blocked
  else .ok { db with lock.readers := db.lock.readers + 1 }

def rUnlock (db : Memory) : Memory :=
  { db with lock.readers := db.lock.readers - 1 }

/-- `db.lock.Lock()`. -/
def wLock (db : Memory) : Except Exit Memory :=
  if db.lock = {} then .ok { db with lock.writer := true } else .error .blocked

/-- `db.lock.Unlock()`. -/
def wUnlock (db : Memory) : Memory :=
  { db with lock.writer := false }

/-- Writes to the entry of a hash, which must be there. -/
def update (db : Memory) (hash : Hash) (f : CacheEntry → CacheEntry) : Except Exit Memory :=
  if (db.nodes.lookup hash).isSome then
    .ok { db with nodes := db.nodes.map fun (h, n) => (h, if h = hash then f n else n) }
  else .error .panic

/-- Deletes a node and takes its size off. -/
def delete (db : Memory) (hash : Hash) (node : CacheEntry) : Memory :=
  { db with
    nodes := db.nodes.filter (·.1 ≠ hash)
    nodesSize := db.nodesSize - (32 + node.size.toNat) }

def uncache : Nat → Memory → Hash → Except Exit Memory
  | 0, _, _ => .error .outOfFuel
  | fuel + 1, db, hash =>
    match db.nodes.lookup hash with
    | none => .ok db
    | some node => do
      let db ←
        if hash = db.oldest then .ok { db with oldest := node.flushNext }
        else do
          let db ← db.update node.flushPrev ({ · with flushNext := node.flushNext })
          db.update node.flushNext ({ · with flushPrev := node.flushPrev })
      let db ← node.childs.foldlM (uncache fuel) db
      .ok (db.delete hash node)

/-- The last loop of `Cap`: drops the nodes flushed, which end before `oldest`. -/
def dropFlushed (oldest : Hash) : Nat → Memory → Except Exit Memory
  | 0, _ => .error .outOfFuel
  | fuel + 1, db =>
    if db.oldest = oldest then .ok db
    else
      match db.nodes.lookup db.oldest with
      | none => .error .panic
      | some node =>
        dropFlushed oldest fuel { db.delete db.oldest node with oldest := node.flushNext }

/-- The end of `Cap`, once all is written. -/
def capped (flushPreimages : Bool) (oldest : Hash) (fuel : Nat) (db : Memory) :
    Except Exit Memory := do
  let db ← db.rUnlock.wLock
  let db := if flushPreimages then { db with preimages := [], preimagesSize := 0 } else db
  let db ← db.dropFlushed oldest fuel
  let db ← if db.oldest = .zero then .ok db else db.update db.oldest ({ · with flushPrev := .zero })
  .ok db.wUnlock

/-- The end of `Commit`, once all is written. -/
def committed (node : Hash) (fuel : Nat) (db : Memory) : Except Exit Memory := do
  let db ← db.rUnlock.wLock
  let db ← uncache fuel { db with preimages := [], preimagesSize := 0 } node
  .ok db.wUnlock

end Memory

/-- Where a request to the batch is made. -/
inductive Site where
  | preimagePut
  | preimageWrite
  | nodePut
  | nodeWrite
  | lastWrite
  deriving DecidableEq

/-- A call in progress: the database, the batch, what the disk has taken, the number of requests to
the batch and the one that failed. -/
structure Session where
  db : Memory
  batch : List (Bytes × Bytes) := []
  written : List (Bytes × Bytes) := []
  requests : Nat := 0
  failed : Option Site := none

def Session.valueSize (s : Session) : Nat :=
  (s.batch.map (·.2.length)).sum

def idealBatchSize : Nat := 100 * 1024

def secureKey (hash : Hash) : Bytes :=
  "secure-key-".toUTF8.toList ++ hash.val

/-- The code of `Cap` and `Commit`: a run that ends early keeps what it did. -/
abbrev Flush := EStateM Exit Session

namespace Flush

/-- Works on the database. -/
def alter (f : Memory → Except Exit Memory) : Flush Unit := fun s =>
  match f s.db with
  | .ok db => .ok () { s with db }
  | .error e => .error e s

variable (faults : Nat → Bool)

/-- A request to the batch, which fails as `faults` says; the call then does `release` and returns
the error. -/
def request (site : Site) (release : Memory → Memory) (effect : Session → Session) : Flush Unit :=
  fun s =>
    if faults s.requests then
      .error .err { s with db := release s.db, requests := s.requests + 1, failed := some site }
    else .ok () (effect { s with requests := s.requests + 1 })

def put (site : Site) (key value : Bytes) : Flush Unit :=
  request faults site Memory.rUnlock fun s => { s with batch := s.batch ++ [(key, value)] }

def write (site : Site) (release : Memory → Memory) : Flush Unit :=
  request faults site release fun s => { s with written := s.written ++ s.batch }

def reset : Flush Unit := fun s =>
  .ok () { s with batch := [] }

/-- The loop over the preimages; `release` is what a failed write does to the lock. -/
def flushPreimages (release : Memory → Memory) : List (Hash × Bytes) → Flush Unit
  | [] => pure ()
  | (hash, preimage) :: preimages => do
    put faults .preimagePut (secureKey hash) preimage
    if (← getThe Session).valueSize > idealBatchSize then
      write faults .preimageWrite release
      reset
    flushPreimages release preimages

/-- Puts a node into the batch, and writes the batch if it is large enough. -/
def putNode (hash : Hash) (node : CacheEntry) : Flush Unit := do
  put faults .nodePut hash.val node.node.rlp
  if (← getThe Session).valueSize ≥ idealBatchSize then
    write faults .nodeWrite Memory.rUnlock
    reset

/-- The loop of `Cap` over the flush list: the first node it leaves. -/
def flushOldest (limit : Int) : Nat → Int → Hash → Flush Hash
  | 0, _, _ => throw .outOfFuel
  | fuel + 1, size, oldest => do
    if size > limit ∧ oldest ≠ .zero then
      match (← getThe Session).db.nodes.lookup oldest with
      | none => throw .panic
      | some node =>
        putNode faults oldest node
        flushOldest limit fuel (size - (3 * 32 + node.size.toNat)) node.flushNext
    else return oldest

def cap (fuel : Nat) (limit : Int) : Flush Unit := do
  alter Memory.rLock
  let db := (← getThe Session).db
  let size := db.nodesSize + (db.nodes.length - 1) * 2 * 32
  let flush := decide (db.preimagesSize > 4 * 1024 * 1024)
  if flush then flushPreimages faults Memory.rUnlock db.preimages
  let oldest ← flushOldest faults limit fuel size db.oldest
  write faults .lastWrite Memory.rUnlock
  alter (Memory.capped flush oldest fuel)

/-- `commit`, whose errors make `Commit` release the lock. -/
def commitNode : Nat → Hash → Flush Unit
  | 0, _ => throw .outOfFuel
  | fuel + 1, hash => do
    match (← getThe Session).db.nodes.lookup hash with
    | none => pure ()
    | some node =>
      node.childs.forM (commitNode fuel)
      putNode faults hash node

def commit (fuel : Nat) (node : Hash) : Flush Unit := do
  alter Memory.rLock
  -- A failed write returns with the lock held.
  flushPreimages faults id (← getThe Session).db.preimages
  commitNode faults fuel node
  write faults .lastWrite Memory.rUnlock
  alter (Memory.committed node fuel)

end Flush

/-- A flush of the database. -/
inductive FlushCall where
  | cap (limit : Int)
  | commit (node : Hash)

/-- Runs a call with a new batch. -/
def FlushCall.run (faults : Nat → Bool) (fuel : Nat) (db : Memory) :
    FlushCall → EStateM.Result Exit Session Unit
  | .cap limit => Flush.cap faults fuel limit { db }
  | .commit node => Flush.commit faults fuel node { db }

end Geth.Mpt
