import Geth.State.Run

/-!
# What a state database is for

The abstract model: a ledger of accounts with the changes of the running transaction. There are no
caches, no tries and no journal here. A snapshot saves the world, a revert restores it, and the end
of a transaction removes the accounts that destroyed themselves, and the touched empty ones if asked
to.
-/

namespace Geth.State

open Lib

/-- An account as the getters show it. -/
structure Acct where
  nonce : UInt64
  balance : Int
  code : Bytes
  storage : Hash → Hash
  suicided : Bool

namespace Acct

/-- A fresh account. -/
def new : Acct := ⟨0, 0, [], fun _ => Hash.zero, false⟩

/-- Emptiness as the rules for the removal of accounts define it. -/
def empty (keccak : Bytes → Hash) (ac : Acct) : Bool :=
  ac.nonce = 0 && ac.balance = 0 && keccak ac.code = keccak []

/-- The account does not outlive its transaction if that has touched it. -/
def dies (keccak : Bytes → Hash) (d : Bool) (ac : Acct) : Bool :=
  ac.suicided || (d && ac.empty keccak)

end Acct

/-- What a revert has to restore: the accounts, the refund counter, the logs and the preimages. -/
structure Ledger where
  accounts : Address → Option Acct
  refund : UInt64
  logs : Hash → List Log
  logSize : UInt64
  preimages : Hash → Option Bytes

/-- Replaces the account at an address. -/
def Ledger.set (w : Ledger) (addr : Address) (ac : Option Acct) : Ledger :=
  { w with accounts := Function.update w.accounts addr ac }

/-- A ledger and the accounts that the running transaction has touched. -/
structure World where
  ledger : Ledger
  touched : Address → Bool

namespace World

variable (keccak : Bytes → Hash)

/-- Changes an account, which is created if it does not exist. -/
def change (w : World) (addr : Address) (f : Acct → Acct) : World where
  ledger := w.ledger.set addr (some (f ((w.ledger.accounts addr).getD .new)))
  touched := Function.update w.touched addr true

/-- Adding nothing touches an empty account. -/
def addBalance (w : World) (addr : Address) (amount : Int) : World :=
  if amount = 0 then
    if ((w.ledger.accounts addr).getD .new).empty keccak then w.change addr id else w
  else w.change addr fun ac => { ac with balance := ac.balance + amount }

/-- Subtracting nothing still creates the account. -/
def subBalance (w : World) (addr : Address) (amount : Int) : World :=
  if amount = 0 then
    match w.ledger.accounts addr with
    | none => w.change addr id
    | some _ => w
  else w.change addr fun ac => { ac with balance := ac.balance - amount }

/-- A created account keeps the balance of the one it replaces, and nothing else. Replacing an
account does not touch it. -/
def createAccount (w : World) (addr : Address) : World :=
  match w.ledger.accounts addr with
  | none => w.change addr id
  | some ac => { w with ledger := w.ledger.set addr (some { Acct.new with balance := ac.balance }) }

/-- Self-destruction. -/
def suicide (w : World) (addr : Address) : World :=
  match w.ledger.accounts addr with
  | none => w
  | some _ => w.change addr fun ac => { ac with suicided := true, balance := 0 }

/-- The end of a transaction. -/
def finalise (w : World) (d : Bool) : World where
  ledger := { w.ledger with
    accounts := fun addr => if w.touched addr
      then (w.ledger.accounts addr).filter fun ac => !ac.dies keccak d
      else w.ledger.accounts addr
    refund := 0 }
  touched := fun _ => false

/-- A touch of the ripemd precompile is not taken back by a revert. -/
def settle (w : World) (ripemdTouched : Bool) : World :=
  { w with touched := fun addr => w.touched addr || (decide (addr = ripemd) && ripemdTouched) }

end World

/-- The world with its snapshots and the running transaction, which has started with the ledger
`base`. -/
structure Session where
  world : World
  base : Ledger
  thash : Hash
  bhash : Hash
  txIndex : UInt64
  ripemdTouched : Bool
  saved : List (Nat × World)
  nextId : Nat

namespace Session

variable (keccak : Bytes → Hash)

/-- The end of a transaction, which drops the snapshots. -/
def finalise (σ : Session) (d : Bool) : Session :=
  { σ with
    world := σ.world.finalise keccak d
    base := (σ.world.finalise keccak d).ledger
    ripemdTouched := false
    saved := [] }

/-- The touch that a revert does not take back. -/
def touchesRipemd (w : World) (addr : Address) (amount : Int) : Bool :=
  decide (addr = ripemd) && decide (amount = 0) && ((w.ledger.accounts addr).getD .new).empty keccak

/-- Files a log under the running transaction. -/
def addLog (σ : Session) (log : Log) : Session :=
  let w := σ.world.ledger
  let log := { log with
    txHash := σ.thash, blockHash := σ.bhash, txIndex := σ.txIndex, index := w.logSize }
  { σ with world := { σ.world with ledger := { w with
      logs := Function.update w.logs σ.thash (w.logs σ.thash ++ [log])
      logSize := w.logSize + 1 } } }

/-- The first preimage of a hash is kept. -/
def addPreimage (σ : Session) (hash : Hash) (preimage : Bytes) : Session :=
  let w := σ.world.ledger
  { σ with world := { σ.world with ledger := { w with
      preimages := Function.update w.preimages hash (some ((w.preimages hash).getD preimage)) } } }

/-- Restores a saved world; the snapshots taken since are gone. -/
def revertToSnapshot (σ : Session) (revid : Nat) : Option Session :=
  (σ.saved.find? fun r => r.1 = revid).map fun r =>
    { σ with
      world := r.2.settle σ.ripemdTouched
      saved := σ.saved.takeWhile fun r => r.1 ≠ revid }

/-- The session after an operation; `none` stands for a revert to a snapshot that is not valid. -/
def step (σ : Session) : Op → Option Session
  | .query _ => some σ
  | .addBalance addr amount => some { σ with
      world := σ.world.addBalance keccak addr amount
      ripemdTouched := σ.ripemdTouched || touchesRipemd keccak σ.world addr amount }
  | .subBalance addr amount => some { σ with world := σ.world.subBalance addr amount }
  | .setBalance addr amount => some { σ with
      world := σ.world.change addr fun ac => { ac with balance := amount } }
  | .setNonce addr nonce => some { σ with
      world := σ.world.change addr fun ac => { ac with nonce := nonce } }
  | .setCode addr code => some { σ with
      world := σ.world.change addr fun ac => { ac with code := code } }
  | .setState addr key value => some { σ with
      world := σ.world.change addr fun ac =>
        { ac with storage := Function.update ac.storage key value } }
  | .createAccount addr => some { σ with world := σ.world.createAccount addr }
  | .suicide addr => some { σ with world := σ.world.suicide addr }
  | .addRefund gas => some { σ with world := { σ.world with
      ledger := { σ.world.ledger with refund := σ.world.ledger.refund + gas } } }
  | .addLog log => some (σ.addLog log)
  | .addPreimage hash preimage => some (σ.addPreimage hash preimage)
  | .prepare thash bhash ti => some { σ with thash := thash, bhash := bhash, txIndex := ti }
  | .snapshot => some { σ with
      saved := σ.saved ++ [(σ.nextId, σ.world)]
      nextId := σ.nextId + 1 }
  | .revertToSnapshot revid => σ.revertToSnapshot revid
  | .finalise d _ => some (σ.finalise keccak d)
  | .intermediateRoot d _ => some (σ.finalise keccak d)
  | .commit d _ => some (σ.finalise keccak d)

/-- The session after a run. -/
def run (σ : Session) : List Op → Option Session
  | [] => some σ
  | op :: ops => (σ.step keccak op).bind fun σ => σ.run ops

end Session

end Geth.State
