import Geth.State.Object

/-!
# The state database and its journal (`core/state/statedb.go`, `core/state/journal.go`)

Accounts live as state objects in front of the account trie. Every change is journaled, newest entry
first, with what it takes to undo it. `none` as the result of a method is a panic.
-/

namespace Geth.State

structure Log where
  address : Address
  topics : List Hash
  data : Bytes
  blockNumber : UInt64
  txHash : Hash
  txIndex : UInt64
  blockHash : Hash
  index : UInt64

inductive JournalEntry (B : Backend) where
  | createObjectChange (account : Address)
  | resetObjectChange (prev : StateObject B)
  | suicideChange (account : Address) (prev : Bool) (prevbalance : Int)
  | balanceChange (account : Address) (prev : Int)
  | nonceChange (account : Address) (prev : UInt64)
  | storageChange (account : Address) (key prevalue : Hash)
  | codeChange (account : Address) (prevcode : Option Bytes) (prevhash : Bytes)
  | refundChange (prev : UInt64)
  | addLogChange (txhash : Hash)
  | addPreimageChange (hash : Hash)
  | touchChange (account : Address)

def JournalEntry.dirtied {B : Backend} : JournalEntry B → Option Address
  | .createObjectChange account => some account
  | .resetObjectChange _ => none
  | .suicideChange account _ _ => some account
  | .balanceChange account _ => some account
  | .nonceChange account _ => some account
  | .storageChange account _ _ => some account
  | .codeChange account _ _ => some account
  | .refundChange _ => none
  | .addLogChange _ => none
  | .addPreimageChange _ => none
  | .touchChange account => some account

/-- `journal`: the entries, newest first, and the number of changes of each account. An account
without a count is not in the map. -/
structure Journal (B : Backend) where
  entries : List (JournalEntry B)
  dirties : Address → Nat

namespace Journal

variable {B : Backend}

/-- `newJournal`. -/
def new : Journal B := ⟨[], fun _ => 0⟩

def dirty (j : Journal B) (addr : Address) : Journal B :=
  { j with dirties := Function.update j.dirties addr (j.dirties addr + 1) }

/-- Counts the change of an entry. -/
def mark (j : Journal B) : Option Address → Journal B
  | some addr => j.dirty addr
  | none => j

/-- Drops the count of an entry. -/
def unmark (j : Journal B) : Option Address → Journal B
  | some addr => { j with dirties := Function.update j.dirties addr (j.dirties addr - 1) }
  | none => j

def append (j : Journal B) (entry : JournalEntry B) : Journal B :=
  { j with entries := entry :: j.entries }.mark entry.dirtied

end Journal

structure Revision where
  id : Nat
  journalIndex : Nat

structure StateDB (B : Backend) where
  db : B.Db
  trie : B.Trie
  stateObjects : Address → Option (StateObject B)
  stateObjectsDirty : Address → Bool
  dbErr : Option (StateErr B)
  refund : UInt64
  thash : Hash
  bhash : Hash
  txIndex : UInt64
  logs : Hash → List Log
  logSize : UInt64
  preimages : Hash → Option Bytes
  journal : Journal B
  validRevisions : List Revision
  nextRevisionId : Nat

/-- The address of the ripemd precompile, `ripemd`. -/
def ripemd : Address := ⟨List.replicate 19 0 ++ [3], rfl⟩

namespace StateDB

variable {B : Backend}

def new (root : Hash) (db : B.Db) : Except B.Err (StateDB B) :=
  match B.openTrie db root with
  | .error err => .error err
  | .ok tr => .ok {
      db := db
      trie := tr
      stateObjects := fun _ => none
      stateObjectsDirty := fun _ => false
      dbErr := none
      refund := 0
      thash := Hash.zero
      bhash := Hash.zero
      txIndex := 0
      logs := fun _ => []
      logSize := 0
      preimages := fun _ => none
      journal := .new
      validRevisions := []
      nextRevisionId := 0 }

def setError (s : StateDB B) (err : Option (StateErr B)) : StateDB B :=
  { s with dbErr := s.dbErr.or err }

def append (s : StateDB B) (entry : JournalEntry B) : StateDB B :=
  { s with journal := s.journal.append entry }

def setStateObject (s : StateDB B) (o : StateObject B) : StateDB B :=
  { s with stateObjects := Function.update s.stateObjects o.address (some o) }

def getStateObject (s : StateDB B) (addr : Address) : Option (StateObject B) × StateDB B :=
  match s.stateObjects addr with
  | some o => if o.deleted then (none, s) else (some o, s)
  | none =>
    -- Load the object from the database.
    let (enc, err, tr) := B.tryGet s.db s.trie addr.val
    let s := { s with trie := tr }
    if enc.length = 0 then (none, s.setError (err.map .backend))
    else
      match Account.decode enc with
      | none => (none, s)
      | some data =>
        let o := newObject B addr data
        (some o, s.setStateObject o)

/-! ## Getters -/

def exist (s : StateDB B) (addr : Address) : Bool × StateDB B :=
  let (o, s) := s.getStateObject addr
  (o.isSome, s)

def empty (s : StateDB B) (addr : Address) : Bool × StateDB B :=
  let (o, s) := s.getStateObject addr
  (o.all StateObject.empty, s)

def getBalance (s : StateDB B) (addr : Address) : Int × StateDB B :=
  let (o, s) := s.getStateObject addr
  (match o with
    | some o => o.data.balance
    | none => 0, s)

def getNonce (s : StateDB B) (addr : Address) : UInt64 × StateDB B :=
  let (o, s) := s.getStateObject addr
  (match o with
    | some o => o.data.nonce
    | none => 0, s)

def getCode (s : StateDB B) (addr : Address) : Option Bytes × StateDB B :=
  let (o, s) := s.getStateObject addr
  match o with
  | some o =>
    let (code, o) := o.getCode s.db
    (code, s.setStateObject o)
  | none => (none, s)

def getCodeSize (s : StateDB B) (addr : Address) : Nat × StateDB B :=
  let (o, s) := s.getStateObject addr
  match o with
  | some o =>
    match o.code with
    | some code => (code.length, s)
    | none =>
      let (size, err) := B.contractCodeSize s.db o.addrHash (bytesToHash o.data.codeHash)
      (size, s.setError (err.map .backend))
  | none => (0, s)

def getCodeHash (s : StateDB B) (addr : Address) : Hash × StateDB B :=
  let (o, s) := s.getStateObject addr
  (match o with
    | some o => bytesToHash o.data.codeHash
    | none => Hash.zero, s)

def getState (s : StateDB B) (addr : Address) (key : Hash) : Hash × StateDB B :=
  let (o, s) := s.getStateObject addr
  match o with
  | some o =>
    let (value, o) := o.getState s.db key
    (value, s.setStateObject o)
  | none => (Hash.zero, s)

def hasSuicided (s : StateDB B) (addr : Address) : Bool × StateDB B :=
  let (o, s) := s.getStateObject addr
  (match o with
    | some o => o.suicided
    | none => false, s)

def getLogs (s : StateDB B) (hash : Hash) : List Log := s.logs hash

/-! ## Setters -/

/-- `createObject`: the new object and the one it replaces. -/
def createObject (s : StateDB B) (addr : Address) :
    StateObject B × Option (StateObject B) × StateDB B :=
  let (prev, s) := s.getStateObject addr
  let newobj := (newObject B addr (newAccount B)).setNonce 0
  let s := match prev with
    | none => s.append (.createObjectChange addr)
    | some prev => s.append (.resetObjectChange prev)
  (newobj, prev, s.setStateObject newobj)

def getOrNewStateObject (s : StateDB B) (addr : Address) : StateObject B × StateDB B :=
  match s.getStateObject addr with
  | (some o, s) => if o.deleted then
      let (o, _, s) := s.createObject addr
      (o, s)
    else (o, s)
  | (none, s) =>
    let (o, _, s) := s.createObject addr
    (o, s)

def createAccount (s : StateDB B) (addr : Address) : StateDB B :=
  let (new, prev, s) := s.createObject addr
  match prev with
  | some prev => s.setStateObject (new.setBalance prev.data.balance)
  | none => s

def touch (s : StateDB B) (addr : Address) : StateDB B :=
  let s := s.append (.touchChange addr)
  if addr = ripemd then { s with journal := s.journal.dirty addr } else s

/-- `SetBalance` of an object. -/
def setObjectBalance (s : StateDB B) (o : StateObject B) (amount : Int) : StateDB B :=
  (s.append (.balanceChange o.address o.data.balance)).setStateObject (o.setBalance amount)

def addBalance (s : StateDB B) (addr : Address) (amount : Int) : StateDB B :=
  let (o, s) := s.getOrNewStateObject addr
  if amount = 0 then
    if o.empty then s.touch o.address else s
  else s.setObjectBalance o (o.data.balance + amount)

def subBalance (s : StateDB B) (addr : Address) (amount : Int) : StateDB B :=
  let (o, s) := s.getOrNewStateObject addr
  if amount = 0 then s else s.setObjectBalance o (o.data.balance - amount)

def setBalance (s : StateDB B) (addr : Address) (amount : Int) : StateDB B :=
  let (o, s) := s.getOrNewStateObject addr
  s.setObjectBalance o amount

def setNonce (s : StateDB B) (addr : Address) (nonce : UInt64) : StateDB B :=
  let (o, s) := s.getOrNewStateObject addr
  (s.append (.nonceChange o.address o.data.nonce)).setStateObject (o.setNonce nonce)

def setCode (s : StateDB B) (addr : Address) (code : Bytes) : StateDB B :=
  let (o, s) := s.getOrNewStateObject addr
  let (prevcode, o) := o.getCode s.db
  (s.append (.codeChange o.address prevcode o.data.codeHash)).setStateObject
    (o.setCode (B.keccak code) (some code))

def setState (s : StateDB B) (addr : Address) (key value : Hash) : StateDB B :=
  let (o, s) := s.getOrNewStateObject addr
  let (prevalue, o) := o.getState s.db key
  (s.append (.storageChange o.address key prevalue)).setStateObject (o.setState key value)

def suicide (s : StateDB B) (addr : Address) : Bool × StateDB B :=
  match s.getStateObject addr with
  | (none, s) => (false, s)
  | (some o, s) =>
    let s := s.append (.suicideChange addr o.suicided o.data.balance)
    (true, s.setStateObject ({ o with suicided := true }.setBalance 0))

def addRefund (s : StateDB B) (gas : UInt64) : StateDB B :=
  { s.append (.refundChange s.refund) with refund := s.refund + gas }

/-- `AddLog`; the log is fresh. -/
def addLog (s : StateDB B) (log : Log) : StateDB B :=
  let s := s.append (.addLogChange s.thash)
  let log := { log with
    txHash := s.thash, blockHash := s.bhash, txIndex := s.txIndex, index := s.logSize }
  { s with
    logs := Function.update s.logs s.thash (s.logs s.thash ++ [log])
    logSize := s.logSize + 1 }

def addPreimage (s : StateDB B) (hash : Hash) (preimage : Bytes) : StateDB B :=
  match s.preimages hash with
  | some _ => s
  | none =>
    { s.append (.addPreimageChange hash) with
      preimages := Function.update s.preimages hash (some preimage) }

def prepare (s : StateDB B) (thash bhash : Hash) (ti : UInt64) : StateDB B :=
  { s with thash := thash, bhash := bhash, txIndex := ti }

/-! ## Snapshots -/

/-- Applies a change to the object of an address, which must not be nil. -/
def changeObject (s : StateDB B) (addr : Address) (f : StateObject B → StateObject B) :
    Option (StateDB B) :=
  match s.getStateObject addr with
  | (some o, s) => some (s.setStateObject (f o))
  | (none, _) => none

/-- `revert` of an entry. -/
def revertEntry (s : StateDB B) : JournalEntry B → Option (StateDB B)
  | .createObjectChange account => some { s with
      stateObjects := Function.update s.stateObjects account none
      stateObjectsDirty := Function.update s.stateObjectsDirty account false }
  | .resetObjectChange prev => some (s.setStateObject prev)
  | .suicideChange account prev prevbalance =>
    match s.getStateObject account with
    | (some o, s) => some (s.setStateObject ({ o with suicided := prev }.setBalance prevbalance))
    | (none, s) => some s
  | .balanceChange account prev => s.changeObject account (·.setBalance prev)
  | .nonceChange account prev => s.changeObject account (·.setNonce prev)
  | .codeChange account prevcode prevhash =>
    s.changeObject account (·.setCode (bytesToHash prevhash) prevcode)
  | .storageChange account key prevalue => s.changeObject account (·.setState key prevalue)
  | .refundChange prev => some { s with refund := prev }
  | .addLogChange txhash =>
    match s.logs txhash with
    | [] => none
    | logs => some { s with
        logs := Function.update s.logs txhash logs.dropLast
        logSize := s.logSize - 1 }
  | .addPreimageChange hash => some { s with
      preimages := Function.update s.preimages hash none }
  | .touchChange _ => some s

/-- The loop of `journal.revert` over the entries, the newest first. -/
def revertEntries (s : StateDB B) : List (JournalEntry B) → Option (StateDB B)
  | [] => some s
  | entry :: entries =>
    match s.revertEntry entry with
    | none => none
    | some s => { s with journal := s.journal.unmark entry.dirtied }.revertEntries entries

/-- `journal.revert`. -/
def revertJournal (s : StateDB B) (snapshot : Nat) : Option (StateDB B) :=
  let n := s.journal.entries.length - snapshot
  (s.revertEntries (s.journal.entries.take n)).map fun s =>
    { s with journal := { s.journal with entries := s.journal.entries.drop n } }

def snapshot (s : StateDB B) : Nat × StateDB B :=
  (s.nextRevisionId, { s with
    nextRevisionId := s.nextRevisionId + 1
    validRevisions := s.validRevisions ++ [⟨s.nextRevisionId, s.journal.entries.length⟩] })

/-- The loop of `sort.Search` between `i` and `j`. -/
def searchLoop (f : Nat → Bool) : Nat → Nat → Nat → Nat
  | 0, i, _ => i
  | fuel + 1, i, j =>
    if i < j then
      let h := (i + j) / 2
      if f h then searchLoop f fuel i h else searchLoop f fuel (h + 1) j
    else i

def search (n : Nat) (f : Nat → Bool) : Nat := searchLoop f n 0 n

def revertToSnapshot (s : StateDB B) (revid : Nat) : Option (StateDB B) :=
  let idx := search s.validRevisions.length fun i =>
    match s.validRevisions[i]? with
    | some r => r.id ≥ revid
    | none => false
  match s.validRevisions[idx]? with
  | none => none
  | some r =>
    if r.id ≠ revid then none
    else (s.revertJournal r.journalIndex).map fun s =>
      { s with validRevisions := s.validRevisions.take idx }

end StateDB

end Geth.State
