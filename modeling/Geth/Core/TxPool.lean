import Geth.Core.TxList
import Geth.Core.StateTransition
import Geth.Lib.Choice
import Mathlib.Data.List.AList

/-!
# Adding to the transaction pool (`core/tx_pool.go`)

`add` and what it calls are functions on the state of the pool. The order of the walks over maps
comes from `choices`. The promotion of what was added, the feed of new transactions and the metrics
are left out.
-/

namespace Geth.Core

open Lib

/-- `TxPoolConfig`: what `add` reads of it. -/
structure TxPoolConfig where
  priceBump : UInt64
  globalSlots : UInt64
  globalQueue : UInt64

/-- What a pool never changes: the configuration, the signer and the primitives under it. -/
structure PoolEnv where
  E : Ecdsa
  config : TxPoolConfig
  signer : Signer

namespace PoolEnv

def hash (env : PoolEnv) (tx : TxData) : Hash := tx.hash env.E

def sender (env : PoolEnv) (tx : TxData) : Except TxErr Address := env.signer.sender env.E tx

/-- The sender, where the source leaves the error out: the zero address then. -/
def origin (env : PoolEnv) (tx : TxData) : Address :=
  match env.sender tx with
  | .ok addr => addr
  | .error _ => zeroBytes 20

end PoolEnv

/-- `txLookup`: its methods keep every transaction under its own hash. -/
structure TxLookup (env : PoolEnv) where
  all : AList fun _ : Hash => TxData
  keyed : ∀ h tx, all.lookup h = some tx → env.hash tx = h

namespace TxLookup

variable {env : PoolEnv}

/-- `newTxLookup`. -/
def new : TxLookup env := ⟨∅, fun _ _ => nofun⟩

def get (t : TxLookup env) (hash : Hash) : Option TxData := t.all.lookup hash

def count (t : TxLookup env) : Nat := t.all.entries.length

def add (t : TxLookup env) (tx : TxData) : TxLookup env where
  all := t.all.insert (env.hash tx) tx
  keyed h x hx := by
    by_cases hh : h = env.hash tx
    · subst hh
      cases (AList.lookup_insert t.all).symm.trans hx
      rfl
    · rw [AList.lookup_insert_ne hh] at hx
      exact t.keyed h x hx

def remove (t : TxLookup env) (hash : Hash) : TxLookup env where
  all := t.all.erase hash
  keyed h x hx := by
    by_cases hh : h = hash
    · subst hh
      cases (AList.lookup_erase h t.all).symm.trans hx
    · rw [AList.lookup_erase_ne hh] at hx
      exact t.keyed h x hx

end TxLookup

/-- What the pool reads of a state. -/
structure StateView where
  nonce : Address → UInt64
  balance : Address → Int

/-- `TxPool`. A `state.ManagedState` to which the pool only applies `SetNonce` is the map of its
nonces; a missing heartbeat is the zero time, and the journal the transactions written to it. -/
structure TxPool (env : PoolEnv) where
  gasPrice : Int
  currentState : StateView
  pendingState : Address → UInt64
  currentMaxGas : UInt64
  locals : List Address
  journal : Option (List TxData)
  pending : Address → Option TxList
  queue : Address → Option TxList
  beats : Address → Nat
  all : TxLookup env
  priced : TxPricedList
  homestead : Bool
  choices : List Nat

inductive PoolErr where
  | known
  | oversizedData
  | negativeValue
  | gasLimit
  | invalidSender
  | underpriced
  | nonceTooLow
  | insufficientFunds
  | outOfGas
  | intrinsicGas
  | replaceUnderpriced
  deriving DecidableEq

namespace TxPool

variable {env : PoolEnv}

def setPending (pool : TxPool env) (addr : Address) (list : Option TxList) : TxPool env :=
  { pool with pending := Function.update pool.pending addr list }

def setQueue (pool : TxPool env) (addr : Address) (list : Option TxList) : TxPool env :=
  { pool with queue := Function.update pool.queue addr list }

/-- `all.Remove` and `priced.Removed`. -/
def forget (pool : TxPool env) (hash : Hash) : TxPool env :=
  let all := pool.all.remove hash
  let (order, choices) := shuffle pool.choices (all.all.entries.map Sigma.snd)
  { pool with all := all, priced := pool.priced.removed order, choices := choices }

/-- What an addition to a list replaced leaves the pool. -/
def forgetOld (pool : TxPool env) : Option TxData → TxPool env
  | some old => pool.forget (env.hash old)
  | none => pool

/-- `all.Add` and `priced.Put`. -/
def enter (pool : TxPool env) (tx : TxData) : TxPool env :=
  { pool with all := pool.all.add tx, priced := pool.priced.put tx }

/-- Whether `all` knows the hash of a transaction. -/
def pooled (pool : TxPool env) (tx : TxData) : Bool := (pool.all.get (env.hash tx)).isSome

/-- `containsTx` of the local accounts. -/
def isLocal (pool : TxPool env) (tx : TxData) : Bool :=
  match env.sender tx with
  | .ok addr => pool.locals.contains addr
  | .error _ => false

def validateTx (pool : TxPool env) (tx : TxData) (fromLocal : Bool) : Except PoolErr Unit :=
  if 32 * 1024 < tx.size then .error .oversizedData
  else if tx.amount < 0 then .error .negativeValue
  else if pool.currentMaxGas < tx.gasLimit then .error .gasLimit
  else
    match env.sender tx with
    | .error _ => .error .invalidSender
    | .ok addr =>
      if !(fromLocal || pool.locals.contains addr) && decide (tx.price < pool.gasPrice) then
        .error .underpriced
      else if tx.accountNonce < pool.currentState.nonce addr then .error .nonceTooLow
      else if pool.currentState.balance addr < tx.cost then .error .insufficientFunds
      else
        match intrinsicGas tx.payload tx.recipient.isNone pool.homestead with
        | none => .error .outOfGas
        | some gas => if tx.gasLimit < gas then .error .intrinsicGas else .ok ()

def journalTx (pool : TxPool env) (addr : Address) (tx : TxData) : TxPool env :=
  if pool.locals.contains addr then { pool with journal := pool.journal.map (tx :: ·) } else pool

def enqueueTx (pool : TxPool env) (tx : TxData) : Except PoolErr Bool × TxPool env :=
  let addr := env.origin tx
  let list := (pool.queue addr).getD (.new false)
  match list.add tx env.config.priceBump with
  | (false, _, list) => (.error .replaceUnderpriced, pool.setQueue addr (some list))
  | (true, old, list) =>
    let pool := (pool.setQueue addr (some list)).forgetOld old
    (.ok old.isSome, if pool.pooled tx then pool else pool.enter tx)

/-- `enqueueTx` of several transactions, whose results are left out. -/
def enqueueAll (pool : TxPool env) (txs : List TxData) : TxPool env :=
  txs.foldl (fun pool tx => (pool.enqueueTx tx).2) pool

/-- The second part of `removeTx`: the transaction is in the queue. -/
def removeQueued (pool : TxPool env) (addr : Address) (tx : TxData) : TxPool env :=
  match pool.queue addr with
  | none => pool
  | some future =>
    let (_, _, future) := future.remove tx
    pool.setQueue addr (if future.empty then none else some future)

/-- A pending list that has got shorter; an empty one is deleted, with the heartbeat. -/
def cutPending (pool : TxPool env) (addr : Address) (pending : TxList) : TxPool env :=
  { pool with
    pending := Function.update pool.pending addr (if pending.empty then none else some pending)
    beats := if pending.empty then Function.update pool.beats addr 0 else pool.beats }

/-- The first part of `removeTx`, for a transaction that was found in its pending list. -/
def removePending (pool : TxPool env) (addr : Address) (tx : TxData) (invalids : List TxData)
    (pending : TxList) : TxPool env :=
  let pool := pool.cutPending addr pending
  let (invalids, choices) := shuffle pool.choices invalids
  let pool := { pool with choices := choices }.enqueueAll invalids
  if tx.accountNonce < pool.pendingState addr then
    { pool with pendingState := Function.update pool.pendingState addr tx.accountNonce }
  else pool

def removeTx (pool : TxPool env) (hash : Hash) (outofbound : Bool) : TxPool env :=
  match pool.all.get hash with
  | none => pool
  | some tx =>
    let addr := env.origin tx
    let pool := if outofbound then pool.forget hash else { pool with all := pool.all.remove hash }
    match pool.pending addr with
    | none => pool.removeQueued addr tx
    | some pending =>
      match pending.remove tx with
      | (true, invalids, pending) => pool.removePending addr tx invalids pending
      | (false, _, _) => pool.removeQueued addr tx

/-- `removeTx` of the transactions that have been discarded. -/
def removeAll (pool : TxPool env) (txs : List TxData) : TxPool env :=
  txs.foldl (fun pool tx => pool.removeTx (env.hash tx) false) pool

/-- `GlobalSlots` and `GlobalQueue` together. -/
def slots (env : PoolEnv) : UInt64 := env.config.globalSlots + env.config.globalQueue

/-- Whether `add` asks `Underpriced`, and gets told so; the heap is left without stale entries at
its front. -/
def underpriced (pool : TxPool env) (tx : TxData) (fromLocal : Bool) : Bool × TxPricedList :=
  if fromLocal then (false, pool.priced)
  else pool.priced.underpriced pool.pooled pool.isLocal tx

/-- The part of `add` that makes room in a full pool; an error is the refusal of `tx`. -/
def makeRoom (pool : TxPool env) (tx : TxData) (fromLocal : Bool) :
    Except PoolErr Unit × TxPool env :=
  if pool.all.count.toUInt64 < slots env then (.ok (), pool)
  else
    match pool.underpriced tx fromLocal with
    | (true, priced) => (.error .underpriced, { pool with priced := priced })
    | (false, priced) =>
      let count := (pool.all.count : Int) - (slots env - 1).toInt64.toInt
      let (drop, priced) := priced.discard pool.pooled pool.isLocal count.toNat
      (.ok (), { pool with priced := priced }.removeAll drop)

/-- The part of `add` that replaces a pending transaction. -/
def replacePending (pool : TxPool env) (tx : TxData) (list : TxList) :
    Except PoolErr Bool × TxPool env :=
  let addr := env.origin tx
  match list.add tx env.config.priceBump with
  | (false, _, list) => (.error .replaceUnderpriced, pool.setPending addr (some list))
  | (true, old, list) =>
    (.ok old.isSome,
      (((pool.setPending addr (some list)).forgetOld old).enter tx).journalTx addr tx)

/-- The part of `add` that enqueues a transaction whose nonce is not pending. -/
def addQueued (pool : TxPool env) (tx : TxData) (fromLocal : Bool) :
    Except PoolErr Bool × TxPool env :=
  let addr := env.origin tx
  match pool.enqueueTx tx with
  | (.error err, pool) => (.error err, pool)
  | (.ok replace, pool) =>
    let pool := if fromLocal then { pool with locals := pool.locals.insert addr } else pool
    (.ok replace, pool.journalTx addr tx)

def add (pool : TxPool env) (tx : TxData) (fromLocal : Bool) : Except PoolErr Bool × TxPool env :=
  if pool.pooled tx then (.error .known, pool)
  else
    match pool.validateTx tx fromLocal with
    | .error err => (.error err, pool)
    | .ok () =>
      match pool.makeRoom tx fromLocal with
      | (.error err, pool) => (.error err, pool)
      | (.ok (), pool) =>
        match pool.pending (env.origin tx) with
        | none => pool.addQueued tx fromLocal
        | some list =>
          if list.overlaps tx then pool.replacePending tx list else pool.addQueued tx fromLocal

end TxPool

end Geth.Core
