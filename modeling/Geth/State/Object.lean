import Geth.State.Backend

/-!
# State objects (`core/state/state_object.go`)

An account in memory, with its storage caches in front of a storage trie that is opened on first
use. Go maps are functions to `Option`; a loop over a map takes the order of its keys as a list. The
database of the enclosing `StateDB` is an argument, and what a method does to the journal is left to
`StateDB`.
-/

namespace Geth.State

/-- The errors that are memoized: those of the database, as they are or in the texts of the source,
and those of `rlp.Split`. -/
inductive StateErr (B : Backend) where
  | backend (err : B.Err)
  | storageTrie (err : B.Err)
  | loadCode (codeHash : Bytes) (err : B.Err)
  | rlp (err : Rlp.Err)

structure StateObject (B : Backend) where
  address : Address
  addrHash : Hash
  data : Account
  dbErr : Option (StateErr B)
  trie : Option B.Trie
  code : Option Bytes
  cachedStorage : Hash → Option Hash
  dirtyStorage : Hash → Option Hash
  dirtyCode : Bool
  suicided : Bool
  deleted : Bool

variable {B : Backend}

def emptyCodeHash (B : Backend) : Bytes := (B.keccak []).val

/-- `Account{}` with the balance and the code hash that `newObject` fills in. -/
def newAccount (B : Backend) : Account := ⟨0, 0, Hash.zero, emptyCodeHash B⟩

def newObject (B : Backend) (address : Address) (data : Account) : StateObject B where
  address := address
  addrHash := B.keccak address.val
  data := data
  dbErr := none
  trie := none
  code := none
  cachedStorage := fun _ => none
  dirtyStorage := fun _ => none
  dirtyCode := false
  suicided := false
  deleted := false

namespace StateObject

def empty (o : StateObject B) : Bool :=
  o.data.nonce = 0 && o.data.balance = 0 && o.data.codeHash = emptyCodeHash B

/-- `setError`: the first error is remembered. -/
def setError (o : StateObject B) (err : Option (StateErr B)) : StateObject B :=
  { o with dbErr := o.dbErr.or err }

def getTrie (o : StateObject B) (db : B.Db) : B.Trie × StateObject B :=
  match o.trie with
  | some t => (t, o)
  | none =>
    match B.openStorageTrie db o.addrHash o.data.root with
    | .ok t => (t, { o with trie := some t })
    | .error err =>
      let t := B.openEmptyTrie db o.addrHash
      (t, { o with trie := some t }.setError (some (.storageTrie err)))

def getState (o : StateObject B) (db : B.Db) (key : Hash) : Hash × StateObject B :=
  match o.cachedStorage key with
  | some value => (value, o)
  | none =>
    -- Load from DB in case it is missing.
    let (t, o) := o.getTrie db
    let (enc, err, t) := B.tryGet db t key.val
    let o := { o with trie := some t }
    match err with
    | some err => (Hash.zero, o.setError (some (.backend err)))
    | none =>
      let (value, err) := decodeValue enc
      let o := o.setError (err.map .rlp)
      (value, { o with cachedStorage := Function.update o.cachedStorage key (some value) })

def setState (o : StateObject B) (key value : Hash) : StateObject B :=
  { o with
    cachedStorage := Function.update o.cachedStorage key (some value)
    dirtyStorage := Function.update o.dirtyStorage key (some value) }

/-- One round of the loop of `updateTrie`; `t` is the trie of the object. -/
def flushKey (db : B.Db) (o : StateObject B) (t : B.Trie) (key : Hash) : StateObject B :=
  match o.dirtyStorage key with
  | none => o
  | some value =>
    let o := { o with dirtyStorage := Function.update o.dirtyStorage key none }
    let (err, t) := if value = Hash.zero then B.tryDelete db t key.val
      else B.tryUpdate db t key.val (encodeValue value)
    { o with trie := some t }.setError (err.map .backend)

/-- `updateTrie`, with the keys of `dirtyStorage` in the order of the loop. -/
def updateTrie (o : StateObject B) (db : B.Db) (order : List Hash) : StateObject B :=
  order.foldl (fun o key =>
    let (t, o) := o.getTrie db
    o.flushKey db t key) (o.getTrie db).2

def updateRoot (o : StateObject B) (db : B.Db) (order : List Hash) : StateObject B :=
  let (t, o) := (o.updateTrie db order).getTrie db
  let (root, t) := B.hash t
  { o with trie := some t, data := { o.data with root := root } }

/-- `CommitTrie`: the error, the object and the database. -/
def commitTrie (o : StateObject B) (db : B.Db) (order : List Hash) :
    Option (StateErr B) × StateObject B × B.Db :=
  let (t, o) := (o.updateTrie db order).getTrie db
  match o.dbErr with
  | some err => (some err, o, db)
  | none =>
    match B.commit db t with
    | (.ok root, t, db) =>
      (none, { o with trie := some t, data := { o.data with root := root } }, db)
    | (.error err, t, db) => (some (.backend err), { o with trie := some t }, db)

def setBalance (o : StateObject B) (amount : Int) : StateObject B :=
  { o with data := { o.data with balance := amount } }

def setNonce (o : StateObject B) (nonce : UInt64) : StateObject B :=
  { o with data := { o.data with nonce := nonce } }

/-- `Code`. -/
def getCode (o : StateObject B) (db : B.Db) : Option Bytes × StateObject B :=
  match o.code with
  | some code => (some code, o)
  | none =>
    if o.data.codeHash = emptyCodeHash B then (none, o)
    else
      let (code, err) := B.contractCode db o.addrHash (bytesToHash o.data.codeHash)
      let o := o.setError (err.map (.loadCode o.data.codeHash))
      (code, { o with code := code })

def setCode (o : StateObject B) (codeHash : Hash) (code : Option Bytes) : StateObject B :=
  { o with code := code, data := { o.data with codeHash := codeHash.val }, dirtyCode := true }

end StateObject

end Geth.State
